import Msboss.Malloc.Search
import Msboss.Lib.System

/-!
# The heap of a process

In every run the free blocks and the blocks of the program cover each byte that `sbrk` has returned
once, and no other (`Tiled`). `free` moves a block from the program to the free list, `malloc` the
other way, and `morecore` adds an area to both sides. What `umalloc.c` promises follows from this
(`heap_sound`). -/

namespace Msboss.Malloc

open Function List

/-! ## What `sbrk` has returned -/

/-- The bytes of an area. -/
def area (r : Nat × Nat) : Extent := ⟨r.1, r.1 + r.2⟩

/-- Each area is above the earlier ones. -/
def Areas (P : Process) : List (Nat × Nat) → Prop
  | [] => True
  | r :: areas => top P areas ≤ r.1 ∧ r.1 + r.2 ≤ KERNBASE ∧ Areas P areas

section
variable {P : Process} {areas : List (Nat × Nat)} {x : Nat}

theorem Areas.start_le (h : Areas P areas) : P.start ≤ top P areas := by
  induction areas with
  | nil => exact le_rfl
  | cons r areas ih => exact ((ih h.2.2).trans h.1).trans (Nat.le_add_right _ _)

/-- Nothing is above the areas. -/
theorem Areas.cover_above (h : Areas P areas) (hx : top P areas ≤ x) :
    Extent.cover (areas.map area) x = 0 := by
  induction areas with
  | nil => rfl
  | cons r areas ih =>
    have hx : r.1 + r.2 ≤ x := hx
    rw [map_cons, Extent.cover_cons, if_neg fun hhas => absurd hhas.2 (not_lt.2 hx),
      ih h.2.2 (h.1.trans ((Nat.le_add_right _ _).trans hx))]

/-- No byte is returned twice. -/
theorem Areas.cover_le_one (h : Areas P areas) (x : Nat) : Extent.cover (areas.map area) x ≤ 1 := by
  induction areas with
  | nil => exact Nat.zero_le _
  | cons r areas ih =>
    rw [map_cons, Extent.cover_cons]
    split_ifs with hhas
    · rw [h.2.2.cover_above (h.1.trans hhas.1)]
    · exact ih h.2.2

/-- The areas fit into the address space. -/
theorem Areas.total_le (h : Areas P areas) : Extent.total (areas.map area) ≤ KERNBASE := by
  have hbound : ∀ e ∈ areas.map area, e.hi ≤ KERNBASE := by
    intro e he
    obtain ⟨r, hr, rfl⟩ := mem_map.1 he
    induction areas with
    | nil => cases hr
    | cons r' areas ih =>
      obtain rfl | hr := mem_cons.1 hr
      · exact h.2.1
      · exact ih h.2.2 hr (mem_map_of_mem hr)
  rw [← Extent.sum_cover hbound]
  refine (Finset.sum_le_card_nsmul _ _ 1 fun x _ => h.cover_le_one x).trans ?_
  rw [Finset.card_range, smul_eq_mul, Nat.mul_one]

end

/-! ## Free blocks and blocks of the program -/

/-- The free blocks `bs` and the blocks `ls` of the program make up what `sbrk` has returned. -/
structure Tiled (P : Process) (s : Heap) (bs ls : List Block) : Prop where
  list : FreeList P s.mem bs
  freep : s.freep ∈ (P.node :: bs).map Block.addr
  live : ∀ b ∈ ls, size s.mem b.addr = b.units ∧ b.InHeap P
  areas : Areas P s.areas
  tiles : ∀ x, Extent.cover ((bs ++ ls).map Block.extent) x = Extent.cover (s.areas.map area) x

section
variable {P : Process} {s s' : Heap} {bs bs' ls l1 l2 : List Block} {b c : Block}

/-- Blocks without a common byte. -/
theorem apart_of_disjoint (hb : b.InHeap P) (hc : c.InHeap P)
    (h : ∀ x, ¬ (b.extent.Has x ∧ c.extent.Has x)) : b.fin ≤ c.addr ∨ c.fin ≤ b.addr := by
  by_contra hcon
  obtain ⟨h1, h2⟩ := not_or.1 hcon
  have hb8 : b.addr < b.fin := lt_of_lt_of_le (by omega) hb.header_le
  have hc8 : c.addr < c.fin := lt_of_lt_of_le (by omega) hc.header_le
  exact h (max b.addr c.addr) ⟨⟨le_max_left _ _, max_lt hb8 (not_le.1 h1)⟩, le_max_right _ _,
    max_lt (not_le.1 h2) hc8⟩

/-- Every block has a header. -/
theorem length_le_total (h : ∀ b ∈ bs, b.InHeap P) :
    8 * bs.length ≤ Extent.total (bs.map Block.extent) := by
  induction bs with
  | nil => exact Nat.zero_le _
  | cons b bs ih =>
    obtain ⟨hb, hbs⟩ := forall_mem_cons.1 h
    have := ih hbs
    have hsize : b.extent.hi - b.extent.lo = 8 * b.units := Nat.add_sub_cancel_left _ _
    have := hb.pos
    simp only [Extent.total, map_cons, sum_cons, hsize, length_cons] at *
    omega

/-- More memory: there is a block that is large enough. -/
def Grants {ε : Type} (P : Process) (more : Heap → Except ε (Nat × Heap)) (nunits : Nat) (s : Heap)
    (bs ls : List Block) : Prop :=
  ∃ s' bs', more s = .ok (s'.freep, s') ∧ Tiled P s' bs' ls ∧ (∃ b ∈ bs', nunits ≤ b.units) ∧
    bs'.length ≤ bs.length + 1

/-- A way to get more memory, which may fail. -/
def Supplies {ε : Type} (P : Process) (more : Heap → Except ε (Nat × Heap))
    (nunits : Nat) (s : Heap)
    (bs ls : List Block) : Prop :=
  (∃ s', more s = .ok (0, s') ∧ Tiled P s' bs ls) ∨ Grants P more nunits s bs ls

namespace Tiled

/-- Blocks do not overlap. -/
theorem cover_le_one (h : Tiled P s bs ls) (x : Nat) :
    Extent.cover ((bs ++ ls).map Block.extent) x ≤ 1 := h.tiles x ▸ h.areas.cover_le_one x

/-- The number of free blocks. -/
theorem length_le (h : Tiled P s bs ls) : bs.length ≤ 2 ^ 28 := by
  have h8 := length_le_total h.list.heap
  have htotal := Extent.total_eq h.tiles
  have hle := h.areas.total_le
  rw [map_append, Extent.total_append] at htotal
  have : KERNBASE = 2 ^ 31 := rfl
  omega

/-- A block of the program can be freed. -/
theorem fits (h : Tiled P s bs ls) (hc : c ∈ ls) : c.Fits P bs := by
  refine ⟨(h.live c hc).2, fun b hb => ?_⟩
  have hdisj := Extent.pairwise_disjoint h.cover_le_one
  rw [map_append] at hdisj
  exact apart_of_disjoint (h.list.heap b hb) (h.live c hc).2
    ((pairwise_append.1 hdisj).2.2 _ (mem_map_of_mem hb) _ (mem_map_of_mem hc))

/-- Headers of blocks that have no byte in common with what changes. -/
theorem live_kept (hlive : ∀ b ∈ ls, size m b.addr = b.units ∧ b.InHeap P)
    (hcover : ∀ x, Extent.cover ((bs0 ++ ls).map Block.extent) x ≤ 1) (hk : Kept P bs0 m m') :
    ∀ b ∈ ls, size m' b.addr = b.units ∧ b.InHeap P := by
  intro b hb
  obtain ⟨hsize, hin⟩ := hlive b hb
  refine ⟨(header_congr fun x hle hlt => hk x ?_ ?_).2.trans hsize, hin⟩
  · have := P.base_le
    have := hin.start
    omega
  · have hhas : b.extent.Has x := ⟨hle, hlt.trans_le hin.header_le⟩
    have hpos := Extent.cover_pos.2 ⟨_, mem_map_of_mem hb, hhas⟩
    have := hcover x
    rw [map_append, Extent.cover_append] at this
    omega

/-- `free` of a block of the program. -/
theorem free_spec (h : Tiled P s bs (l1 ++ c :: l2)) : ∃ s' bs', free (c.addr + 8) s = .ok s' ∧
    Tiled P s' bs' (l1 ++ l2) ∧ (∃ b ∈ bs', c.units ≤ b.units) ∧ bs'.length ≤ bs.length + 1 := by
  have hc : c ∈ l1 ++ c :: l2 := mem_append_right _ mem_cons_self
  have hlen : bs.length < LOOPS := lt_of_le_of_lt h.length_le (by decide)
  obtain ⟨m', p', bs', hfree, hlist, hfreep, hcover, hlarge, hlen', hkept⟩ :=
    Malloc.free_spec h.list h.freep (h.fits hc) (h.live c hc).1 hlen
  have htiles : ∀ x, Extent.cover (((c :: bs) ++ (l1 ++ l2)).map Block.extent) x =
      Extent.cover ((bs ++ (l1 ++ c :: l2)).map Block.extent) x := by
    intro x
    simp only [map_append, map_cons, cons_append, Extent.cover_append,
      Extent.cover_cons]
    omega
  refine ⟨_, bs', hfree, ⟨hlist, hfreep, ?_, h.areas, fun x => ?_⟩, hlarge, hlen'⟩
  · refine live_kept (fun b hb => h.live b ?_) (fun x => htiles x ▸ h.cover_le_one x) hkept
    exact ((sublist_cons_self c l2).append_left l1).subset hb
  · rw [← h.tiles x, ← htiles x, map_append, Extent.cover_append, hcover x, ← Extent.cover_append,
      ← map_append]

/-- A new area is a block that nobody has. -/
theorem extend (h : Tiled P s bs ls) (hnu : 0 < nu) (ha : top P s.areas ≤ a)
    (hfin : a + nu * 8 ≤ KERNBASE) (calls : Nat) :
    Tiled P ⟨setSize s.mem a nu, s.freep, (a, nu * 8) :: s.areas, calls⟩ bs (⟨a, nu⟩ :: ls) := by
  have hext : Block.extent ⟨a, nu⟩ = area (a, nu * 8) := by
    rw [Block.extent, Block.fin, area, Nat.mul_comm]
  have hin : Block.InHeap P ⟨a, nu⟩ :=
    ⟨hnu, h.areas.start_le.trans ha, (Nat.mul_comm 8 nu ▸ hfin : a + 8 * nu ≤ KERNBASE)⟩
  -- the bytes below the area are as before
  have hbelow : ∀ r, r + 8 ≤ a → ptr (setSize s.mem a nu) r = ptr s.mem r ∧
      size (setSize s.mem a nu) r = size s.mem r := fun r hr =>
    (same_setSize s.mem a nu).header (Or.inl hr)
  have hold : ∀ b ∈ bs ++ ls, b.InHeap P → b.addr + 8 ≤ a := by
    intro b hb hbin
    have hhas : b.extent.Has (b.fin - 1) := by
      have := hbin.header_le
      exact ⟨by show b.addr ≤ b.fin - 1; omega, by show b.fin - 1 < b.fin; omega⟩
    have hpos := Extent.cover_pos.2 ⟨_, mem_map_of_mem hb, hhas⟩
    rw [h.tiles] at hpos
    have hlt : b.fin - 1 < top P s.areas := by
      by_contra hge
      rw [h.areas.cover_above (not_lt.1 hge)] at hpos
      exact absurd hpos (lt_irrefl _)
    have := hbin.header_le
    omega
  have hnode : ∀ b ∈ P.node :: bs, b.addr + 8 ≤ a := by
    refine forall_mem_cons.2 ⟨P.base_le.trans hin.start, fun b hb => ?_⟩
    exact hold b (mem_append_left _ hb) (h.list.heap b hb)
  refine ⟨⟨h.list.linked.congr fun r hr => ?_, fun b hb => ?_, h.list.sorted, h.list.heap⟩, h.freep,
    forall_mem_cons.2 ⟨⟨size_setSize ?_, hin⟩, fun b hb => ?_⟩, ⟨ha, hfin, h.areas⟩, fun x => ?_⟩
  · obtain ⟨b, hb, rfl⟩ := mem_map.1 hr
    exact (hbelow _ (hnode b hb)).1
  · exact (hbelow _ (hnode b hb)).2.trans (h.list.sizes b hb)
  · have := lt_of_le_kernbase hfin
    omega
  · obtain ⟨hsize, hbin⟩ := h.live b hb
    exact ⟨(hbelow _ (hold b (mem_append_right _ hb) hbin)).2.trans hsize, hbin⟩
  · have htiles := h.tiles x
    simp only [map_append, map_cons, Extent.cover_append, Extent.cover_cons, hext] at htiles ⊢
    omega

theorem freep_ne_zero (h : Tiled P s bs ls) : s.freep ≠ 0 := by
  obtain ⟨b, hb, hbf⟩ := mem_map.1 h.freep
  have := h.list.base_le hb
  have := P.base_pos
  omega

/-- `morecore` fails, or there is a block that is large enough. -/
theorem morecore_spec (h : Tiled P s bs ls) (hnu : nu * 8 < 2 ^ 31) :
    Supplies P (morecore P nu) nu s bs ls := by
  rw [Supplies, Grants, morecore]
  obtain ⟨n, hn, hpos, hle, hlt⟩ : ∃ n, n = (if nu < 4096 then 4096 else nu) ∧ 0 < n ∧ nu ≤ n ∧
      n * 8 < 2 ^ 31 :=
        ⟨_, rfl, by split_ifs <;> omega, by split_ifs <;> omega, by split_ifs <;> omega⟩
  have hmod : n * 8 % 2 ^ 32 = n * 8 := Nat.mod_eq_of_lt (hlt.trans (by decide))
  simp only [← hn, hmod, if_neg (not_le.2 hlt)]
  rw [sbrk]
  cases hgap : P.gaps s.calls with
  | none => exact Or.inl ⟨_, rfl, h.list, h.freep, h.live, h.areas, h.tiles⟩
  | some gap =>
    by_cases hfin : top P s.areas + gap + n * 8 ≤ KERNBASE
    · have hext : Tiled P _ bs ([] ++ _ :: ls) :=
        h.extend hpos (Nat.le_add_right _ gap) hfin (s.calls + 1)
      obtain ⟨s', bs', hfree, htiled, ⟨b, hb, hbn⟩, hlen⟩ := free_spec hext
      have hwrap : (top P s.areas + gap + 8) % 2 ^ 32 = top P s.areas + gap + 8 := by
        have := lt_of_le_kernbase hfin
        exact Nat.mod_eq_of_lt (by omega)
      refine Or.inr ⟨s', bs', ?_, htiled, ⟨b, hb, hle.trans hbn⟩, hlen⟩
      simp only [if_pos hfin, hwrap]
      exact congrArg (· >>= fun s : Heap => Except.ok (s.freep, s)) hfree
    · simp only [if_neg hfin]
      exact Or.inl ⟨_, rfl, h.list, h.freep, h.live, h.areas, h.tiles⟩

/-- The block that `malloc` has found becomes one of the program. -/
theorem found_spec (h : Tiled P s bs ls)
    (he : P.node :: bs = pre ++ q :: x :: post) (hpos : 0 < nunits) (hle : nunits ≤ x.units) :
    ∃ c s' bs', found s nunits q.addr x.addr = (c.addr + 8, s') ∧ c.units = nunits ∧
      Tiled P s' bs' (c :: ls) := by
  obtain ⟨c, bs', haddr, hunits, htaken⟩ := take_spec h.list he hpos hle
  have hwrap : (c.addr + 8) % 2 ^ 32 = c.addr + 8 := by
    have := htaken.heap.header_le
    have := lt_of_le_kernbase htaken.heap.fin
    have := htaken.heap.fin
    have : KERNBASE < 2 ^ 32 - 8 := by decide
    exact Nat.mod_eq_of_lt (by omega)
  refine ⟨c, { s with mem := (take s.mem nunits q.addr x.addr).2, freep := q.addr },
    bs', ?_, hunits,
    htaken.list, htaken.freep, forall_mem_cons.2 ⟨⟨htaken.size, htaken.heap⟩, ?_⟩, h.areas,
    fun y => ?_⟩
  · have hfound : found s nunits q.addr x.addr =
      (((take s.mem nunits q.addr x.addr).1 + 8) % 2 ^ 32,
        { s with mem := (take s.mem nunits q.addr x.addr).2, freep := q.addr }) := rfl
    rw [hfound, haddr, hwrap]
  · exact live_kept h.live h.cover_le_one htaken.kept
  · have hcover := htaken.cover y
    have htiles := h.tiles y
    simp only [map_append, map_cons, Extent.cover_append, Extent.cover_cons] at hcover htiles ⊢
    omega

section
variable {ε : Type} {more : Heap → Except ε (Nat × Heap)} {nunits : Nat}

/-- The loop of `malloc` goes round the list once before it asks for more. -/
theorem search_once (stuck : ε) (more : Heap → Except ε (Nat × Heap)) (h : Tiled P s bs ls)
    (hpos : 0 < nunits) : (∃ b ∈ bs, nunits ≤ b.units) ∧ (∃ c s' bs',
      mallocLoop stuck more nunits LOOPS s.freep (ptr s.mem s.freep) s = .ok (c.addr + 8, s') ∧
        c.units = nunits ∧ Tiled P s' bs' (c :: ls)) ∨
    (∀ b ∈ bs, b.units < nunits) ∧ ∃ n, bs.length + 2 ≤ n ∧
      mallocLoop stuck more nunits LOOPS s.freep (ptr s.mem s.freep) s =
        again stuck more nunits n s := by
  have hlen := h.length_le
  obtain ⟨n, hn, hroom⟩ : ∃ n, LOOPS = n + bs.length + 1 ∧ bs.length + 2 ≤ n :=
    ⟨LOOPS - (bs.length + 1), by unfold LOOPS; omega, by unfold LOOPS; omega⟩
  rw [hn]
  obtain ⟨pre, prev, x, post, he, hle, hloop⟩ | ⟨hall, hloop⟩ :=
    search_round stuck more (n := n) h.list h.freep hpos
  · obtain ⟨c, s', bs', hfound, hunits, htiled⟩ := h.found_spec he hpos hle
    exact Or.inl ⟨⟨x, mem_of_mem_post he mem_cons_self, hle⟩, c, s', bs',
      hloop.trans (congrArg Except.ok hfound), hunits, htiled⟩
  · exact Or.inr ⟨hall, n, hroom, hloop⟩

/-- The loop of `malloc` takes a block, if there is one that is large enough or it gets one. -/
theorem search_takes (stuck : ε) (h : Tiled P s bs ls) (hpos : 0 < nunits)
    (hmore : (∃ b ∈ bs, nunits ≤ b.units) ∨ Grants P more nunits s bs ls) :
    ∃ c s' bs', mallocLoop stuck more nunits LOOPS s.freep (ptr s.mem s.freep) s =
      .ok (c.addr + 8, s') ∧ c.units = nunits ∧ Tiled P s' bs' (c :: ls) := by
  obtain ⟨-, hfound⟩ | ⟨hall, n, hroom, hloop⟩ := h.search_once stuck more hpos
  · exact hfound
  -- no block is large enough
  obtain ⟨b, hb, hbn⟩ | ⟨s', bs', hcore, htiled, ⟨b, hb, hbn⟩, hlen'⟩ := hmore
  · exact absurd hbn (not_le.2 (hall b hb))
  obtain ⟨n, rfl⟩ : ∃ k, n = k + bs'.length + 1 := ⟨n - (bs'.length + 1), by omega⟩
  obtain ⟨pre, prev, x, post, he, hle, hloop'⟩ | ⟨hall, -⟩ :=
    search_round stuck more (n := n) htiled.list htiled.freep hpos
  · obtain ⟨c, s'', bs'', hfound, hunits, htiled'⟩ := htiled.found_spec he hpos hle
    refine ⟨c, s'', bs'', ?_, hunits, htiled'⟩
    rw [hloop, again, hcore]
    exact (if_neg htiled.freep_ne_zero).trans (hloop'.trans (congrArg Except.ok hfound))
  · exact absurd hbn (not_le.2 (hall b hb))

/-- The loop of `malloc` returns: no block, or one that is large enough. -/
theorem search_spec (stuck : ε) (h : Tiled P s bs ls) (hpos : 0 < nunits)
    (hmore : Supplies P more nunits s bs ls) :
    ∃ p s' bs', mallocLoop stuck more nunits LOOPS s.freep (ptr s.mem s.freep) s = .ok (p, s') ∧
      (p = 0 ∧ Tiled P s' bs' ls ∨
        ∃ c, p = c.addr + 8 ∧ c.units = nunits ∧ Tiled P s' bs' (c :: ls)) := by
  obtain ⟨s', hcore, htiled⟩ | hgrants := hmore
  · obtain ⟨-, c, s', bs', hloop, hunits, htiled'⟩ | ⟨-, n, -, hloop⟩ :=
      h.search_once stuck more hpos
    · exact ⟨_, s', bs', hloop, Or.inr ⟨c, rfl, hunits, htiled'⟩⟩
    · refine ⟨0, s', bs, ?_, Or.inl ⟨rfl, htiled⟩⟩
      rw [hloop, again, hcore]
      rfl
  · obtain ⟨c, s', bs', hloop, hunits, htiled⟩ := h.search_takes stuck hpos (Or.inr hgrants)
    exact ⟨_, s', bs', hloop, Or.inr ⟨c, rfl, hunits, htiled⟩⟩

end

end Tiled

end

/-! ## The program -/

/-- The heap, and the pointers that the program has from `malloc`, with the bytes it has asked
for. -/
structure State where
  heap : Heap
  live : List (Nat × Nat)

/-- What the program does: it calls `malloc` and `free`, and writes its own memory. -/
inductive Action
  | malloc (nbytes : Nat)
  | free (p : Nat)
  | store (x : Nat) (v : UInt8)
  deriving DecidableEq, Repr

/-- The block of a pointer of the program. -/
def block (m : Nat → UInt8) (r : Nat × Nat) : Block := ⟨r.1 - 8, size m (r.1 - 8)⟩

/-- The blocks of the program. -/
def State.blocks (s : State) : List Block := s.live.map (block s.heap.mem)

/-- The bytes that the program may write: those it has from `malloc`, and all that are neither in
the heap nor in `base`. -/
def State.Owns (P : Process) (s : State) (x : Nat) : Prop :=
  (∃ r ∈ s.live, r.1 ≤ x ∧ x < r.1 + r.2) ∨
    (∀ r ∈ s.heap.areas, ¬ (area r).Has x) ∧ ¬ (P.base ≤ x ∧ x < P.base + 8)

instance (P : Process) (s : State) (x : Nat) : Decidable (s.Owns P x) :=
  inferInstanceAs (Decidable (_ ∨ _))

/-- One step of the program. -/
def next (P : Process) (s : State) : Action → Option State
  | .malloc nbytes =>
    match malloc P nbytes s.heap with
    | .ok (p, heap) => some ⟨heap, if p = 0 then s.live else (p, nbytes) :: s.live⟩
    | .error _ => none
  | .free p =>
    if p ∈ s.live.map Prod.fst then
      match free p s.heap with
      | .ok heap => some ⟨heap, s.live.eraseP (·.1 == p)⟩
      | .error _ => none
    else none
  | .store x v =>
    if s.Owns P x then some { s with heap := { s.heap with mem := update s.heap.mem x v } }
    else none

/-- The process has not called `malloc` yet. -/
def State.Fresh (s : State) : Prop := s.heap.freep = 0 ∧ s.heap.areas = [] ∧ s.live = []

/-- The runs of the program. -/
def system (P : Process) : System State Action := System.ofNext State.Fresh (next P)

/-- `nbytes + 7` and `nunits * 8` do not overflow. -/
def Fits (nbytes : Nat) : Prop := nbytes + 7 < 2 ^ 32 ∧ units nbytes * 8 < 2 ^ 31

instance (nbytes : Nat) : Decidable (Fits nbytes) := inferInstanceAs (Decidable (_ ∧ _))

/-- Calls with such an argument. -/
def Action.Fits (_ : State) : Action → Prop
  | .malloc nbytes => Malloc.Fits nbytes
  | _ => True

instance (s : State) : (a : Action) → Decidable (a.Fits s)
  | .malloc nbytes => inferInstanceAs (Decidable (Malloc.Fits nbytes))
  | .free _ | .store .. => inferInstanceAs (Decidable True)

section
variable {P : Process} {s s' : State} {bs : List Block} {n p x : Nat} {v : UInt8}

/-- The heap is tiled, and each block of the program has room for what was asked for. -/
def State.Good (P : Process) (s : State) (bs : List Block) : Prop :=
  Tiled P s.heap bs s.blocks ∧ ∀ r ∈ s.live, 8 ≤ r.1 ∧ r.2 + 8 ≤ 8 * size s.heap.mem (r.1 - 8)

/-- The blocks have kept their sizes. -/
theorem map_block_eq {live : List (Nat × Nat)}
    (h : Tiled P heap bs ls) (hsub : ∀ r ∈ live, block m r ∈ ls) :
    live.map (block heap.mem) = live.map (block m) := by
  refine map_congr_left fun r hr => ?_
  have hsize : size heap.mem (r.1 - 8) = size m (r.1 - 8) := (h.live _ (hsub r hr)).1
  rw [block, block, hsize]

/-- The pointers that are left have the blocks that are left. -/
theorem good_of_tiled (hg : s.Good P bs)
    (h : Tiled P heap bs' ls) (hls : ls = live.map (block s.heap.mem))
    (hsub : ∀ r ∈ live, r ∈ s.live) : State.Good P ⟨heap, live⟩ bs' := by
  have hmem : ∀ r ∈ live, block s.heap.mem r ∈ ls := fun r hr => hls ▸ mem_map_of_mem hr
  have hblocks : State.blocks ⟨heap, live⟩ = ls := (map_block_eq h hmem).trans hls.symm
  refine ⟨hblocks ▸ h, fun r hr => ?_⟩
  have hsize : size heap.mem (r.1 - 8) = size s.heap.mem (r.1 - 8) := (h.live _ (hmem r hr)).1
  rw [hsize]
  exact hg.2 r (hsub r hr)

/-- The first call of `malloc` makes the list. -/
def ready (P : Process) (h : Heap) : Heap :=
  if h.freep = 0 then
    { h with mem := setSize (setPtr h.mem P.base P.base) P.base 0, freep := P.base }
  else h

/-- The first call makes the list. -/
theorem State.Fresh.good_ready (h : s.Fresh) : State.Good P ⟨ready P s.heap, s.live⟩ [] := by
  obtain ⟨hfreep, hareas, hlive⟩ := h
  have hbase : P.base < 2 ^ 32 :=
    lt_of_le_kernbase (((Nat.le_add_right _ 8).trans P.base_le).trans P.start_le)
  refine ⟨⟨⟨?_, ?_, pairwise_singleton _ _, nofun⟩, ?_, ?_, ?_, ?_⟩, ?_⟩
  · refine isChain_pair.2 ?_
    rw [ready, if_pos hfreep]
    exact ptr_setSize.trans (ptr_setPtr hbase)
  · rw [ready, if_pos hfreep]
    exact fun b hb => mem_singleton.1 hb ▸ size_setSize (by decide)
  · rw [ready, if_pos hfreep]
    exact mem_cons_self
  · rw [State.blocks, hlive]
    exact nofun
  · rw [ready, if_pos hfreep]
    exact hareas ▸ trivial
  · rw [ready, if_pos hfreep, State.blocks, hlive]
    exact fun x => by rw [hareas]; rfl
  · rw [hlive]
    exact nofun

/-- A later call leaves it alone. -/
theorem State.Good.good_ready (hg : s.Good P bs) : State.Good P ⟨ready P s.heap, s.live⟩ bs := by
  rw [ready, if_neg hg.1.freep_ne_zero]
  exact hg

theorem good_ready (h : s.Fresh ∨ ∃ bs, s.Good P bs) : ∃ bs,
    State.Good P ⟨ready P s.heap, s.live⟩ bs := by
  obtain h | ⟨bs, hg⟩ := h
  · exact ⟨[], h.good_ready⟩
  · exact ⟨bs, hg.good_ready⟩

theorem units_pos (n : Nat) : 0 < units n := Nat.succ_pos _

theorem units_room (h : Fits n) : n + 8 ≤ 8 * units n := by
  rw [units, Nat.mod_eq_of_lt h.1]
  omega

/-- A block that `malloc` has taken, with room for what was asked for. -/
theorem good_taken (hg : s.Good P bs)
    (h : Tiled P heap bs' (c :: s.blocks)) (hn : n + 8 ≤ 8 * c.units) :
    State.Good P ⟨heap, (c.addr + 8, n) :: s.live⟩ bs' := by
  have hsize : size heap.mem c.addr = c.units := (h.live c mem_cons_self).1
  have hmem : ∀ r ∈ s.live, block s.heap.mem r ∈ c :: s.blocks :=
    fun r hr => mem_cons_of_mem _ (mem_map_of_mem hr)
  refine ⟨?_, forall_mem_cons.2 ⟨⟨Nat.le_add_left _ _, ?_⟩, fun r hr => ?_⟩⟩
  · have hblock : block heap.mem (c.addr + 8, n) = c := by
      rw [block, Nat.add_sub_cancel, hsize]
    rw [State.blocks, map_cons, hblock, map_block_eq h hmem]
    exact h
  · rw [Nat.add_sub_cancel, hsize]
    exact hn
  · have := (h.live _ (hmem r hr)).1
    have hkeep : size heap.mem (r.1 - 8) = size s.heap.mem (r.1 - 8) := this
    rw [hkeep]
    exact hg.2 r hr

/-- `malloc` returns. -/
theorem malloc_good (h : s.Fresh ∨ ∃ bs, s.Good P bs) (hn : Fits n) :
    ∃ p heap bs', malloc P n s.heap = .ok (p, heap) ∧
      State.Good P ⟨heap, if p = 0 then s.live else (p, n) :: s.live⟩ bs' ∧
      (p ≠ 0 → n + 8 ≤ 8 * size heap.mem (p - 8)) := by
  obtain ⟨bs, hg⟩ := good_ready h
  obtain ⟨p, heap, bs', hloop, hp⟩ :=
    hg.1.search_spec Stop.loops (units_pos n) (hg.1.morecore_spec hn.2)
  refine ⟨p, heap, bs', hloop, ?_⟩
  obtain ⟨rfl, htiled⟩ | ⟨c, rfl, hunits, htiled⟩ := hp
  · rw [if_pos rfl]
    exact ⟨good_of_tiled hg htiled rfl fun _ => id, fun hne => absurd rfl hne⟩
  · have hgood := good_taken hg htiled (by rw [hunits]; exact units_room hn)
    rw [if_neg (Nat.succ_ne_zero _)]
    exact ⟨hgood, fun _ => (hgood.2 _ mem_cons_self).2⟩

/-- `free` returns. -/
theorem free_good (hg : s.Good P bs) (hp : p ∈ s.live.map Prod.fst) :
    ∃ heap bs', free p s.heap = .ok heap ∧ State.Good P ⟨heap, s.live.eraseP (·.1 == p)⟩ bs' := by
  obtain ⟨r, hr, rfl⟩ := mem_map.1 hp
  obtain ⟨r', l1, l2, -, hr', hl, herase⟩ := exists_of_eraseP (p := (·.1 == r.1))
    hr (beq_self_eq_true _)
  have hr' : r'.1 = r.1 := beq_iff_eq.1 hr'
  have h8 : 8 ≤ r.1 := (hg.2 r hr).1
  have hblocks : s.blocks = l1.map (block s.heap.mem) ++ block s.heap.mem r' ::
      l2.map (block s.heap.mem) := by
    rw [State.blocks, hl, map_append, map_cons]
  have haddr : (block s.heap.mem r').addr + 8 = r.1 := by
    rw [block, hr']
    exact Nat.sub_add_cancel h8
  have htiled := hg.1
  rw [hblocks] at htiled
  obtain ⟨heap, bs', hfree, htiled', -⟩ := htiled.free_spec
  rw [haddr] at hfree
  refine ⟨heap, bs', hfree, ?_⟩
  rw [herase]
  refine good_of_tiled hg htiled' map_append.symm fun a ha => ?_
  rw [hl]
  exact ((sublist_cons_self r' l2).append_left l1).subset ha

/-- A byte of the program is in no header. -/
theorem State.Owns.not_header (hx : s.Owns P x) (hg : s.Good P bs) :
    ∀ b ∈ (P.node :: bs) ++ s.blocks, ¬ (b.addr ≤ x ∧ x < b.addr + 8) := by
  have hin : ∀ b ∈ bs ++ s.blocks, b.InHeap P :=
    forall_mem_append.2 ⟨hg.1.list.heap, fun b hb => (hg.1.live b hb).2⟩
  intro b hb
  obtain rfl | hb := mem_cons.1 hb
  · obtain ⟨r, hr, hle, -⟩ | ⟨-, hbase⟩ := hx
    · have hstart := (hin _ (mem_append_right _ (mem_map_of_mem hr))).start
      have hstart : P.start ≤ r.1 - 8 := hstart
      have := P.base_le
      have hnode : P.node.addr = P.base := rfl
      rw [hnode]
      omega
    · exact hbase
  have hb : b ∈ bs ++ s.blocks := hb
  rintro ⟨hle, hlt⟩
  have hhas : b.extent.Has x := ⟨hle, hlt.trans_le (hin b hb).header_le⟩
  obtain ⟨r, hr, hrle, hrlt⟩ | ⟨hareas, -⟩ := hx
  · -- the byte is in one block only, behind its header
    obtain ⟨h8, hroom⟩ := hg.2 r hr
    have hrhas : (block s.heap.mem r).extent.Has x := by
      have hfin : (block s.heap.mem r).fin = r.1 - 8 + 8 * size s.heap.mem (r.1 - 8) := rfl
      refine ⟨?_, ?_⟩
      · exact (Nat.sub_le _ _).trans hrle
      · show x < (block s.heap.mem r).fin
        omega
    have heq := Extent.eq_of_has hg.1.cover_le_one (mem_map_of_mem hb)
      (mem_map_of_mem (mem_append_right _ (mem_map_of_mem hr))) hhas hrhas
    have haddr : b.addr = r.1 - 8 := congrArg Extent.lo heq
    omega
  · have hpos := Extent.cover_pos.2 ⟨_, mem_map_of_mem hb, hhas⟩
    rw [hg.1.tiles] at hpos
    obtain ⟨e, he, hex⟩ := Extent.cover_pos.1 hpos
    obtain ⟨r, hr, rfl⟩ := mem_map.1 he
    exact hareas r hr hex

/-- A write of the program. -/
theorem store_good (hg : s.Good P bs) (hx : s.Owns P x) :
    State.Good P { s with heap := { s.heap with mem := update s.heap.mem x v } } bs := by
  have hheader : ∀ b ∈ (P.node :: bs) ++ s.blocks,
      ptr (update s.heap.mem x v) b.addr = ptr s.heap.mem b.addr ∧
        size (update s.heap.mem x v) b.addr = size s.heap.mem b.addr := by
    intro b hb
    have hnot := hx.not_header hg b hb
    refine header_congr fun y hle hlt => update_of_ne ?_ _ _
    rintro rfl
    exact hnot ⟨hle, hlt⟩
  obtain ⟨hlist, hlive⟩ := forall_mem_append.1 hheader
  have htiled : Tiled P { s.heap with mem := update s.heap.mem x v } bs s.blocks := by
    refine ⟨⟨hg.1.list.linked.congr fun r hr => ?_, fun b hb => ?_, hg.1.list.sorted,
      hg.1.list.heap⟩,
      hg.1.freep, fun b hb => ?_, hg.1.areas, hg.1.tiles⟩
    · obtain ⟨b, hb, rfl⟩ := mem_map.1 hr
      exact (hlist b hb).1
    · exact (hlist b hb).2.trans (hg.1.list.sizes b hb)
    · exact ⟨(hlive b hb).2.trans (hg.1.live b hb).1, (hg.1.live b hb).2⟩
  exact good_of_tiled hg htiled rfl fun _ => id

/-- What holds in every state of a run. -/
theorem reach_good (h : ((system P).restrict Action.Fits).Reach s) : s.Fresh ∨ ∃ bs,
    s.Good P bs := by
  refine h.invariant (I := fun s => s.Fresh ∨ ∃ bs, s.Good P bs) (fun s hs => Or.inl hs)
    fun s a s' hs hstep => ?_
  obtain ⟨hfits, hstep⟩ := hstep
  have hstep : next P s a = some s' := hstep
  cases a with
  | malloc n =>
    obtain ⟨p, heap, bs, hmalloc, hgood, -⟩ := malloc_good hs hfits
    rw [next, hmalloc] at hstep
    exact Or.inr ⟨bs, Option.some.inj hstep ▸ hgood⟩
  | free p =>
    rw [next] at hstep
    split_ifs at hstep with hp
    obtain ⟨-, -, hlive⟩ | ⟨bs, hg⟩ := hs
    · rw [hlive] at hp
      cases hp
    · obtain ⟨heap, bs', hfree, hgood⟩ := free_good hg hp
      rw [hfree] at hstep
      exact Or.inr ⟨bs', Option.some.inj hstep ▸ hgood⟩
  | store x v =>
    rw [next] at hstep
    split_ifs at hstep with hx
    cases hstep
    obtain hs | ⟨bs, hg⟩ := hs
    · exact Or.inl hs
    · exact Or.inr ⟨bs, store_good hg hx⟩

/-! ## What the allocator promises -/

/-- `bs` are the free blocks, and they and the blocks of the program are as they should be. -/
structure Sound (P : Process) (s : State) (bs : List Block) : Prop where
  /-- The list from `freep` is a circle, unless there is none yet. -/
  circular : s.heap.freep = 0 ∧ bs = [] ∨
    Linked s.heap.mem (P.base :: bs.map Block.addr ++ [P.base]) ∧
      s.heap.freep ∈ P.base :: bs.map Block.addr
  /-- It is in address order; the wrap is from the last block to `base`. -/
  ordered : (P.base :: bs.map Block.addr).Pairwise (· < ·)
  sizes : ∀ b ∈ bs, size s.heap.mem b.addr = b.units
  disjoint : ((bs ++ s.blocks).map Block.extent).Pairwise fun e f => ∀ x, ¬ (e.Has x ∧ f.Has x)
  obtained : ∀ b ∈ bs ++ s.blocks, ∀ x, b.extent.Has x → ∃ r ∈ s.heap.areas, (area r).Has x
  merged : ∀ b ∈ bs, ∀ c ∈ bs, b.fin ≠ c.addr
  total : Extent.total ((bs ++ s.blocks).map Block.extent) = Extent.total (s.heap.areas.map area)
  room : ∀ r ∈ s.live, r.2 + 8 ≤ 8 * size s.heap.mem (r.1 - 8)

/-- A fresh heap is sound. -/
theorem State.Fresh.sound (h : s.Fresh) : Sound P s [] := by
  obtain ⟨hfreep, hareas, hlive⟩ := h
  have hblocks : s.blocks = [] := by rw [State.blocks, hlive]; rfl
  refine ⟨Or.inl ⟨hfreep, rfl⟩, pairwise_singleton _ _, nofun, ?_, ?_, nofun, ?_, ?_⟩
  · rw [hblocks]
    exact .nil
  · rw [hblocks]
    exact nofun
  · rw [hblocks, hareas]
    rfl
  · rw [hlive]
    exact nofun

/-- Free blocks do not meet. -/
theorem FreeList.merged (h : FreeList P m bs) : ∀ b ∈ bs, ∀ c ∈ bs, b.fin ≠ c.addr := by
  have hsymm : Std.Symm fun b c : Block => b.fin ≠ c.addr ∧ c.fin ≠ b.addr := ⟨fun _ _ h => h.symm⟩
  have hall := List.Pairwise.forall_of_forall (l := bs)
    (R := fun b c => b.fin ≠ c.addr ∧ c.fin ≠ b.addr) (fun b hb => ?_)
    ((pairwise_cons.1 h.sorted).2.imp fun {b c} hbc => ?_)
  · exact fun b hb c hc => (hall hb hc).1
  · have := (h.heap b hb).header_le
    omega
  · have := hbc.gap
    have := b.addr_le_fin
    have := c.addr_le_fin
    omega

/-- So is a good one. -/
theorem State.Good.sound (h : s.Good P bs) : Sound P s bs := by
  obtain ⟨h, hroom⟩ := h
  refine ⟨Or.inr ⟨h.list.linked, h.freep⟩, ?_, fun b hb => h.list.sizes b (mem_cons_of_mem _ hb),
    Extent.pairwise_disjoint h.cover_le_one, fun b hb x hx => ?_, h.list.merged,
    Extent.total_eq h.tiles, fun r hr => (hroom r hr).2⟩
  · exact pairwise_map.2 (h.list.sorted.imp fun hb => hb.addr_lt)
  · have hpos := Extent.cover_pos.2 ⟨_, mem_map_of_mem hb, hx⟩
    rw [h.tiles] at hpos
    obtain ⟨e, he, hex⟩ := Extent.cover_pos.1 hpos
    obtain ⟨r, hr, rfl⟩ := mem_map.1 he
    exact ⟨r, hr, hex⟩

/-- In every run of `malloc` and `free` the list is a circle in address order, free blocks and
blocks of the program are disjoint, lie in what `sbrk` has returned and make all of it up, free
blocks that meet are one, and each pointer has room for what was asked for; and each call
returns. -/
theorem heap_sound (h : ((system P).restrict Action.Fits).Reach s) : (∃ bs, Sound P s bs) ∧
      (∀ n, Fits n → ∃ p heap, malloc P n s.heap = .ok (p, heap) ∧
        (p ≠ 0 → n + 8 ≤ 8 * size heap.mem (p - 8))) ∧
      ∀ p ∈ s.live.map Prod.fst, ∃ heap, free p s.heap = .ok heap := by
  have hgood := reach_good h
  refine ⟨?_, fun n hn => ?_, fun p hp => ?_⟩
  · obtain hs | ⟨bs, hg⟩ := hgood
    · exact ⟨[], hs.sound⟩
    · exact ⟨bs, hg.sound⟩
  · obtain ⟨p, heap, -, hmalloc, -, hroom⟩ := malloc_good hgood hn
    exact ⟨p, heap, hmalloc, hroom⟩
  · obtain ⟨-, -, hlive⟩ | ⟨bs, hg⟩ := hgood
    · rw [hlive] at hp
      cases hp
    · obtain ⟨heap, -, hfree, -⟩ := free_good hg hp
      exact ⟨heap, hfree⟩

end

/-- A process whose heap starts at the second page. -/
def Process.small : Process where
  base := 2048
  start := 4096
  base_pos := by decide
  base_le := by decide
  start_le := by decide
  gaps := fun _ => some 0

/-- Before the first call. -/
def State.zero : State := ⟨⟨fun _ => 0, 0, [], 0⟩, []⟩

/-- Two blocks are taken, the program writes into the second, and the first is freed. -/
theorem heap_sound_two : ∃ s, s.live = [(36816, 20)] ∧ (∃ bs, Sound .small s bs) ∧
    (∀ n, Fits n → ∃ p heap, malloc .small n s.heap = .ok (p, heap) ∧
      (p ≠ 0 → n + 8 ≤ 8 * size heap.mem (p - 8))) ∧
    ∀ p ∈ s.live.map Prod.fst, ∃ heap, free p s.heap = .ok heap := by
  obtain ⟨s, hreach, hlive⟩ := (system .small).exists_reach Action.Fits (next .small) .zero
    [.malloc 10, .malloc 20, .store 36820 7, .free 36848] (Q := fun s => s.live = [(36816, 20)])
    rfl ⟨rfl, rfl, rfl⟩ (by decide +kernel)
  exact ⟨s, hlive, heap_sound hreach⟩

end Msboss.Malloc
