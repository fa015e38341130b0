import Msboss.Malloc.FreeList

/-!
# The search of `malloc`

`malloc` goes round the list from `freep` on until a block is large enough (`search_scan`) and takes
the block, or its end, out of the list (`take_spec`). Where no block is large enough it comes back
to `freep` and asks for more memory.
-/

namespace Msboss.Malloc

open List

variable {P : Process} {m m' : Nat → UInt8} {bs pre post : List Block} {b c f q x : Block}

/-! ## Going round -/

/-- The nodes of the list have addresses of their own. -/
theorem FreeList.nodup (h : FreeList P m bs) : ((P.node :: bs).map Block.addr).Nodup :=
  pairwise_map.2 (h.sorted.imp fun hb => hb.addr_lt.ne)

/-- Blocks of the list at one address are the same. -/
theorem FreeList.ext (h : FreeList P m bs) (hb : b ∈ P.node :: bs) (hc : c ∈ P.node :: bs)
    (heq : b.addr = c.addr) : b = c := inj_on_of_nodup_map h.nodup hb hc heq

/-- What the loop does when it has come round. -/
def again {ε : Type} (stuck : ε) (more : Heap → Except ε (Nat × Heap)) (nunits n : Nat) (s : Heap) :
    Except ε (Nat × Heap) := do
  let (p, s) ← more s
  if p = 0 then .ok (0, s) else mallocLoop stuck more nunits n p (ptr s.mem p) s

section
variable {ε : Type} {stuck : ε} {more : Heap → Except ε (Nat × Heap)}

/-- The loop from the node after `q` on, up to `freep`. -/
theorem search_scan (hf : f.addr = s.freep) (hne : ∀ b ∈ todo, b.addr ≠ s.freep)
    (hl : Linked s.mem ((q :: todo).map Block.addr ++ [f.addr]))
    (hsizes : ∀ b ∈ todo ++ [f], size s.mem b.addr = b.units) :
    (∃ prev ∈ q :: todo, ∃ x ∈ todo ++ [f], nunits ≤ x.units ∧ ptr s.mem prev.addr = x.addr ∧
      mallocLoop stuck more nunits (n + todo.length + 1) q.addr (ptr s.mem q.addr) s =
        .ok (found s nunits prev.addr x.addr)) ∨ (∀ x ∈ todo ++ [f], x.units < nunits) ∧
      mallocLoop stuck more nunits (n + todo.length + 1) q.addr (ptr s.mem q.addr) s =
        again stuck more nunits n s := by
  induction todo generalizing q with
  | nil =>
    have hnext : ptr s.mem q.addr = f.addr := (linked_cons.1 hl).1
    have hsize : size s.mem f.addr = f.units := hsizes f mem_cons_self
    rw [length_nil, mallocLoop, hnext, hsize]
    split_ifs with hle
    · exact Or.inl ⟨q, mem_cons_self, f, mem_cons_self, hle, hnext, rfl⟩
    · refine Or.inr ⟨fun x hx => ?_, rfl⟩
      rw [mem_singleton.1 hx]
      exact not_le.1 hle
  | cons y todo ih =>
    obtain ⟨hnext, hl⟩ := linked_cons.1 hl
    have hnext : ptr s.mem q.addr = y.addr := hnext
    have hsize : size s.mem y.addr = y.units := hsizes y mem_cons_self
    obtain ⟨hy, hne⟩ := forall_mem_cons.1 hne
    rw [length_cons, mallocLoop, hnext, hsize]
    split_ifs with hle
    · exact Or.inl ⟨q, mem_cons_self, y, mem_cons_self, hle, hnext, rfl⟩
    -- `y` is too small, so the loop goes on after it
    obtain ⟨prev, hprev, x, hx, hfound⟩ | ⟨hall, hloop⟩ :=
      ih hne hl fun b hb => hsizes b (mem_cons_of_mem _ hb)
    · exact Or.inl ⟨prev, mem_cons_of_mem _ hprev, x, mem_cons_of_mem _ hx, hfound⟩
    · exact Or.inr ⟨forall_mem_cons.2 ⟨not_le.1 hle, hall⟩, hloop⟩

variable (stuck more) in
/-- The loop, once round the list. -/
theorem search_round (h : FreeList P s.mem bs)
    (hfreep : s.freep ∈ (P.node :: bs).map Block.addr) (hpos : 0 < nunits) :
    (∃ pre prev x post, P.node :: bs = pre ++ prev :: x :: post ∧ nunits ≤ x.units ∧
      mallocLoop stuck more nunits (n + bs.length + 1) s.freep (ptr s.mem s.freep) s =
        .ok (found s nunits prev.addr x.addr)) ∨ (∀ b ∈ bs, b.units < nunits) ∧
      mallocLoop stuck more nunits (n + bs.length + 1) s.freep (ptr s.mem s.freep) s =
        again stuck more nunits n s := by
  obtain ⟨f, hf, hfp⟩ := mem_map.1 hfreep
  obtain ⟨pre, post, he⟩ := append_of_mem hf
  have hmem : ∀ b, b ∈ post ++ pre ++ [f] ↔ b ∈ P.node :: bs := by
    intro b
    rw [he]
    simp only [mem_append, mem_cons, not_mem_nil, or_false]
    rw [or_comm, or_comm (a := b ∈ post), or_left_comm]
  have hlen : (post ++ pre).length = bs.length := by
    have := congrArg List.length he
    simp only [length_append, length_cons] at this ⊢
    omega
  have hne : ∀ b ∈ post ++ pre, b.addr ≠ s.freep := by
    have hnodup := h.nodup
    rw [he, map_append, map_cons] at hnodup
    have hnot := (nodup_middle.1 hnodup).notMem
    intro b hb heq
    refine hnot ?_
    rw [hfp, ← heq, ← map_append]
    refine mem_map_of_mem ?_
    rwa [mem_append, or_comm, ← mem_append]
  have hsizes : ∀ b ∈ post ++ pre ++ [f], size s.mem b.addr = b.units := fun b hb =>
    h.sizes b ((hmem b).1 hb)
  rw [← hlen, ← hfp]
  obtain ⟨prev, hprev, x, hx, hle, hnext, hloop⟩ | ⟨hall, hloop⟩ :=
    search_scan (n := n) hfp hne (h.circle he) hsizes
  · refine Or.inl ?_
    have hx := (hmem x).1 hx
    have hprev : prev ∈ P.node :: bs := by
      rw [he]
      rwa [mem_append, or_comm, ← mem_append]
    obtain ⟨pre, post, he'⟩ := append_of_mem hprev
    have hnext' := h.next he'
    rw [hnext] at hnext'
    -- `base` is too small, so the block that is found is not the first one
    cases post with
    | nil =>
      have hxb : x = P.node := h.ext hx mem_cons_self hnext'
      rw [hxb] at hle
      exact absurd hle (not_le.2 hpos)
    | cons y post =>
      have hy : y ∈ P.node :: bs := by
        rw [he']
        exact mem_append_right _ (mem_cons_of_mem _ mem_cons_self)
      have hxy : x = y := h.ext hx hy hnext'
      exact ⟨pre, prev, x, post, hxy ▸ he', hle, hloop⟩
  · exact Or.inr ⟨fun b hb => hall b ((hmem b).2 (mem_cons_of_mem _ hb)), hloop⟩

end

/-! ## Taking a block -/

/-- The list with other blocks after one of its nodes. -/
theorem FreeList.replace (h : FreeList P m bs) (he : P.node :: bs = pre ++ q :: post)
    (hlinked : Linked m' ((pre ++ q :: mid).map Block.addr ++ [P.base]))
    (hsizes : ∀ b ∈ pre ++ q :: mid, size m' b.addr = b.units)
    (hsorted : (pre ++ q :: mid).Pairwise Block.Before) (hmid : ∀ b ∈ mid, b.InHeap P) :
    ∃ bs', P.node :: bs' = pre ++ q :: mid ∧ FreeList P m' bs' := by
  obtain ⟨bs', he', hheap⟩ : ∃ bs', P.node :: bs' = pre ++ q :: mid ∧ ∀ b ∈ bs', b.InHeap P := by
    cases pre with
    | nil =>
      obtain ⟨rfl, -⟩ := List.cons.inj he
      exact ⟨mid, rfl, hmid⟩
    | cons a pre =>
      obtain ⟨rfl, rfl⟩ := List.cons.inj he
      refine ⟨pre ++ q :: mid, rfl, forall_mem_append.2 ⟨fun b hb => ?_,
        forall_mem_cons.2 ⟨?_, hmid⟩⟩⟩
      · exact h.heap b (mem_append_left _ hb)
      · exact h.heap q (mem_append_right _ mem_cons_self)
  exact ⟨bs', he', he' ▸ hlinked, he' ▸ hsizes, he' ▸ hsorted, hheap⟩

/-- What `malloc` has taken out of the list, and what is left. -/
structure Taken (P : Process) (m : Nat → UInt8) (bs : List Block) (q c : Block) (m' : Nat → UInt8)
    (bs' : List Block) : Prop where
  list : FreeList P m' bs'
  freep : q.addr ∈ (P.node :: bs').map Block.addr
  heap : c.InHeap P
  size : size m' c.addr = c.units
  cover : ∀ x, Extent.cover ((c :: bs').map Block.extent) x = Extent.cover (bs.map Block.extent) x
  kept : Kept P bs m m'

section
variable {nunits : Nat} (h : FreeList P m bs) (he : P.node :: bs = pre ++ q :: x :: post)
include h he

/-- The block is taken as it is. -/
theorem taken_whole : ∃ bs', Taken P m bs q x (setPtr m q.addr (ptr m x.addr)) bs' := by
  have hxbs : x ∈ bs := mem_of_mem_post he mem_cons_self
  have hpost : ∀ b ∈ post, b ∈ bs := fun b hb => mem_of_mem_post he (mem_cons_of_mem _ hb)
  have hmem : ∀ b ∈ pre ++ q :: x :: post, b ∈ P.node :: bs := fun b hb => he ▸ hb
  have hsorted := h.sorted
  rw [he] at hsorted
  obtain ⟨-, hq, hpre⟩ := pairwise_append.1 hsorted
  obtain ⟨hqx, hqpost⟩ := forall_mem_cons.1 (pairwise_cons.1 hq).1
  have he' : P.node :: bs = (pre ++ [q]) ++ x :: post := by rw [he, append_assoc]; rfl
  have hsame : Same m (setPtr m q.addr (ptr m x.addr)) q.addr := fun _ hx => setPtr_of_not hx
  have hpres := fun b hb => hsame.header (Or.inl (hpre b hb q mem_cons_self).header)
  obtain ⟨hlinked, hsizes⟩ := relinked hsame
    ((ptr_setPtr (ptr_lt m x.addr)).trans (h.next he'))
    (size_setPtr.trans (h.sizes q (hmem q (by simp)))) rfl (linked_cons.1 (h.linked_from he')).2
    (fun y hy => h.sizes y (mem_cons_of_mem _ (hpost y hy))) fun y hy => (hqpost y hy).header
  have hlinked' : Linked (setPtr m q.addr (ptr m x.addr))
      ((pre ++ q :: post).map Block.addr ++ [P.base]) := by
    have hold := h.linked
    rw [he, map_append, append_assoc, map_cons, cons_append] at hold
    rw [map_append, append_assoc]
    refine isChain_split.2 ⟨Linked.congr (isChain_split.1 hold).1 fun r hr => ?_, hlinked⟩
    obtain ⟨b, hb, rfl⟩ := mem_map.1 hr
    exact (hpres b hb).1
  obtain ⟨bs', heq, hlist⟩ := h.replace he hlinked'
    (forall_mem_append.2 ⟨fun b hb =>
      (hpres b hb).2.trans (h.sizes b (hmem b (mem_append_left _ hb))), hsizes⟩)
    (hsorted.sublist ((List.Sublist.refl pre).append ((sublist_cons_self x post).cons_cons q)))
    fun b hb => h.heap b (hpost b hb)
  refine ⟨bs', hlist, ?_, h.heap x hxbs, ?_, fun y => ?_, fun y hbase hy => ?_⟩
  · rw [heq, map_append]
    exact mem_append_right _ mem_cons_self
  · exact (hsame.header (Or.inr hqx.header)).2.trans (h.sizes x (mem_cons_of_mem _ hxbs))
  · rw [map_cons, Extent.cover_cons, ← cover_node P bs', ← cover_node P bs, heq, he]
    simp only [map_append, map_cons, Extent.cover_append, Extent.cover_cons]
    omega
  · refine hsame y ?_
    obtain rfl | hqbs := mem_cons.1 (hmem q (by simp))
    · exact hbase
    · exact not_header hy hqbs (h.heap q hqbs)

/-- The end of the block is taken. -/
theorem taken_part (hpos : 0 < nunits) (hlt : nunits < x.units) :
    ∃ bs', Taken P m bs q ⟨x.addr + 8 * (x.units - nunits), nunits⟩
      (setSize (setSize m x.addr (x.units - nunits)) (x.addr + 8 * (x.units - nunits))
        nunits) bs' := by
  have hxbs : x ∈ bs := mem_of_mem_post he mem_cons_self
  have hpost : ∀ b ∈ post, b ∈ bs := fun b hb => mem_of_mem_post he (mem_cons_of_mem _ hb)
  have hmem : ∀ b ∈ pre ++ q :: x :: post, b ∈ P.node :: bs := fun b hb => he ▸ hb
  obtain ⟨-, hstart, hfin⟩ := h.heap x hxbs
  have hfin32 := lt_of_le_kernbase hfin
  -- what is left of the block, and what is taken
  obtain ⟨x', hx'⟩ : ∃ x' : Block, x' = ⟨x.addr, x.units - nunits⟩ := ⟨_, rfl⟩
  have haddr : x'.addr = x.addr := by rw [hx']
  have hunits : x'.units = x.units - nunits := by rw [hx']
  have hleft : x'.fin = x.addr + 8 * (x.units - nunits) := by rw [hx', Block.fin]
  have htaken : x'.fin + 8 * nunits = x.fin := by
    rw [hleft, Block.fin]
    omega
  have hroom : x.addr + 8 ≤ x'.fin := by
    rw [hleft]
    omega
  rw [← hleft, ← hunits]
  have hsame := same_setSize m x.addr x'.units
  have hsame' := same_setSize (setSize m x.addr x'.units) x'.fin nunits
  generalize hm' : setSize (setSize m x.addr x'.units) x'.fin nunits = m' at hsame'
  have hother : ∀ b : Block, b.Before x ∨ x.Before b →
      ptr m' b.addr = ptr m b.addr ∧ size m' b.addr = size m b.addr := by
    intro b hb
    have hap : (b.addr + 8 ≤ x.addr ∨ x.addr + 8 ≤ b.addr) ∧
        (b.addr + 8 ≤ x'.fin ∨ x'.fin + 8 ≤ b.addr) := by
      obtain hb | hb := hb
      · have := hb.header
        omega
      · have := hb.header
        have := hb.gap
        omega
    obtain ⟨hp1, hs1⟩ := hsame.header hap.1
    obtain ⟨hp2, hs2⟩ := hsame'.header hap.2
    exact ⟨hp2.trans hp1, hs2.trans hs1⟩
  have hself : ptr m' x.addr = ptr m x.addr ∧ size m' x.addr = x'.units := by
    obtain ⟨hp, hs⟩ := hsame'.header (Or.inl hroom)
    refine ⟨hp.trans ptr_setSize, hs.trans (size_setSize ?_)⟩
    have : x.fin = x.addr + 8 * x.units := rfl
    omega
  have hsorted := h.sorted
  rw [he] at hsorted
  obtain ⟨hpre, hq, hcross⟩ := pairwise_append.1 hsorted
  obtain ⟨hqall, hx⟩ := pairwise_cons.1 hq
  obtain ⟨hqx, hqpost⟩ := forall_mem_cons.1 hqall
  obtain ⟨hxpost, hpost'⟩ := pairwise_cons.1 hx
  have hle : x'.fin ≤ x.fin := htaken ▸ Nat.le_add_right _ _
  have hbefore : ∀ {b : Block}, b.Before x → b.Before x' := fun hb =>
    ⟨haddr.symm ▸ hb.gap, haddr.symm ▸ hb.header⟩
  have hafter : ∀ b ∈ post, x'.Before b := fun b hb =>
    ⟨hle.trans_lt (hxpost b hb).gap, haddr.symm ▸ (hxpost b hb).header⟩
  have hside : ∀ b ∈ pre ++ q :: x :: post, b = x ∨ b.Before x ∨ x.Before b := by
    refine forall_mem_append.2 ⟨fun b hb => Or.inr (Or.inl (hcross b hb x (by simp))), ?_⟩
    refine forall_mem_cons.2 ⟨Or.inr (Or.inl hqx), forall_mem_cons.2 ⟨Or.inl rfl, ?_⟩⟩
    exact fun b hb => Or.inr (Or.inr (hxpost b hb))
  have hlinked : Linked m' ((pre ++ q :: x' :: post).map Block.addr ++ [P.base]) := by
    have hsameaddr : (pre ++ q :: x' :: post).map Block.addr =
        (pre ++ q :: x :: post).map Block.addr := by
      simp only [map_append, map_cons, haddr]
    rw [hsameaddr]
    refine Linked.congr (he ▸ h.linked) fun r hr => ?_
    obtain ⟨b, hb, rfl⟩ := mem_map.1 hr
    obtain rfl | hb := hside b hb
    · exact hself.1
    · exact (hother b hb).1
  have hsizes : ∀ b ∈ pre ++ q :: x' :: post, size m' b.addr = b.units := by
    have hold : ∀ b ∈ pre ++ q :: x :: post, b.Before x ∨ x.Before b → size m' b.addr = b.units :=
      fun b hb hside => (hother b hside).2.trans (h.sizes b (hmem b hb))
    refine forall_mem_append.2 ⟨fun b hb => ?_, forall_mem_cons.2 ⟨?_,
      forall_mem_cons.2 ⟨haddr.symm ▸ hself.2, fun b hb => ?_⟩⟩⟩
    · exact hold b (mem_append_left _ hb) (Or.inl (hcross b hb x (by simp)))
    · exact hold q (by simp) (Or.inl hqx)
    · exact hold b (by simp [hb]) (Or.inr (hxpost b hb))
  have hsorted' : (pre ++ q :: x' :: post).Pairwise Block.Before := by
    refine pairwise_append.2
      ⟨hpre, pairwise_cons.2 ⟨?_, pairwise_cons.2 ⟨hafter, hpost'⟩⟩, fun a ha => ?_⟩
    · exact forall_mem_cons.2 ⟨hbefore hqx, hqpost⟩
    · obtain ⟨haq, hax⟩ := forall_mem_cons.1 (hcross a ha)
      obtain ⟨hax, hapost⟩ := forall_mem_cons.1 hax
      exact forall_mem_cons.2 ⟨haq, forall_mem_cons.2 ⟨hbefore hax, hapost⟩⟩
  have hx'heap : x'.InHeap P := ⟨by omega, haddr.symm ▸ hstart, hle.trans hfin⟩
  obtain ⟨bs', heq, hlist⟩ := h.replace he hlinked hsizes hsorted'
    (forall_mem_cons.2 ⟨hx'heap, fun b hb => h.heap b (hpost b hb)⟩)
  refine ⟨bs', hlist, ?_, ⟨hpos, ?_, htaken.le.trans hfin⟩, ?_, fun y => ?_, fun y hbase hy => ?_⟩
  · rw [heq, map_append]
    exact mem_append_right _ mem_cons_self
  · exact hstart.trans (haddr ▸ x'.addr_le_fin)
  · rw [← hm']
    exact size_setSize (by have : x.fin = x.addr + 8 * x.units := rfl; omega)
  · have hjoin := Extent.cover_join (haddr ▸ x'.addr_le_fin : x.addr ≤ x'.fin) hle [] y
    have hc : Block.extent ⟨x'.fin, nunits⟩ = ⟨x'.fin, x.fin⟩ := congrArg (Extent.mk x'.fin) htaken
    have hx'e : x'.extent = ⟨x.addr, x'.fin⟩ := congrArg (fun a => Extent.mk a x'.fin) haddr
    have hxe : x.extent = ⟨x.addr, x.fin⟩ := rfl
    rw [map_cons, hc, Extent.cover_cons, ← cover_node P bs', ← cover_node P bs, heq, he]
    simp only [map_append, map_cons, Extent.cover_append, Extent.cover_cons, hxe, hx'e,
      Extent.cover_nil] at hjoin ⊢
    omega
  · have hnot := not_header hy hxbs (h.heap x hxbs)
    have hout : ¬ x.extent.Has y := fun hhas => by
      have := Extent.cover_pos.2 ⟨_, mem_map_of_mem hxbs, hhas⟩
      omega
    rw [← hsame y hnot]
    refine hsame' y fun hin => hout ⟨(Nat.le_add_right _ 8).trans (hroom.trans hin.1), ?_⟩
    have : y < x.fin := by omega
    exact this

/-- What `malloc` takes from a block that is large enough. -/
theorem take_spec (hpos : 0 < nunits) (hle : nunits ≤ x.units) :
    ∃ c bs', (take m nunits q.addr x.addr).1 = c.addr ∧ c.units = nunits ∧
      Taken P m bs q c (take m nunits q.addr x.addr).2 bs' := by
  have hx : x ∈ bs := mem_of_mem_post he mem_cons_self
  have hsize : size m x.addr = x.units := h.sizes x (mem_cons_of_mem _ hx)
  have hfin := lt_of_le_kernbase (h.heap x hx).fin
  rw [Block.fin] at hfin
  rw [take, hsize]
  split_ifs with heq
  · obtain ⟨bs', htaken⟩ := taken_whole h he
    exact ⟨x, bs', rfl, heq, htaken⟩
  obtain ⟨bs', htaken⟩ := taken_part h he hpos (lt_of_le_of_ne hle (Ne.symm heq))
  have hsize' : size (setSize m x.addr (x.units - nunits)) x.addr = x.units - nunits :=
    size_setSize (by omega)
  have hplus : plus x.addr (x.units - nunits) = x.addr + 8 * (x.units - nunits) :=
    Nat.mod_eq_of_lt (by omega)
  simp only [hsize', hplus]
  exact ⟨_, bs', rfl, rfl, htaken⟩

end

end Msboss.Malloc
