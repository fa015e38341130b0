import Msboss.Vm.Tables

/-!
# The regions of a process in a new image

`exec` builds a new image of free frames and takes the old one apart. It leaves the regions counted
as they were and the tables of the process filled, so that every slot that has a name says that a
region is mapped where the new image has something else, or nothing (`exec_regions`). A later
`shm_get` of such a name returns that address; of any other name it maps the region anew, and
returns an address of it unless there is no memory for a page table.
-/

namespace Msboss.Vm

open Function Memory PageDir

/-! ## The property -/

/-- The address is mapped to the region of that name. -/
def Leads (m : Memory) (P : Proc) (name : List UInt8) (v : Nat) : Prop :=
  ∃ j, strncmp (m.shm_arr j).name name 16 = true ∧ P.pgdir.Maps v (m.shm_arr j).shmPhys

/-- How many slots of the process were about the region `j` and are out of use now. -/
def dropped (m : Memory) (P P' : Proc) (j : Slot) : Nat :=
  (Finset.univ.filter fun i => P.shm_name i ≠ DNE ∧ P'.shm_name i = DNE ∧
    strncmp (m.shm_arr j).name (P.shm_name i) 16 = true).card

/-- Every slot is out of use, its region no longer counted for it, or says where the region is. -/
structure Carried (m : Memory) (P : Proc) (m' : Memory) (P' : Proc) : Prop where
  slots : ∀ i, P'.shm_name i = DNE ∨ Leads m' P' (P'.shm_name i) (P'.shm_vir i)
  counts : ∀ j, (m'.shm_arr j).numAccess = (m.shm_arr j).numAccess - dropped m P P' j

/-- No frame that `shm_arr` has the address of is free. -/
def Memory.Apart (m : Memory) : Prop := ∀ i, ∀ f ∈ m.freelist, (m.shm_arr i).shmPhys ≠ f * PGSIZE

/-- So it is in all states that careful calls lead to. -/
theorem Ledger.apart {s : State} (hl : Ledger s) : s.mem.Apart := by
  intro i f hf hi
  rcases Nat.eq_zero_or_pos f with rfl | hpos
  · have h0 := hl.zero
    have hfree := List.count_pos_iff.2 hf
    simp only [State.kernel] at h0
    omega
  · exact hl.not_region_of_free f hf ⟨hpos, i, hi⟩

/-! ## `exec` -/

/-- What a successful `exec` does to the regions: nothing, and it maps none. -/
structure Replaced (m : Memory) (P : Proc) (m' : Memory) (P' : Proc) : Prop where
  names : P'.shm_name = P.shm_name
  virs : P'.shm_vir = P.shm_vir
  shm_arr : m'.shm_arr = m.shm_arr
  size : P'.sz < KERNBASE
  unmapped : ∀ v i, ¬ P'.pgdir.Maps v (m.shm_arr i).shmPhys

section
variable {m m' m'' : Memory} {P P' P'' : Proc} {name : List UInt8}

/-- A frame that is mapped is counted. -/
theorem PageDir.Maps.user_pos {d : PageDir} (h : d.Maps v pa) :
    ∃ f, pa = f * PGSIZE ∧ 0 < d.user f := by
  obtain ⟨hv, hp, haddr⟩ := maps_iff.1 h
  refine ⟨(d.entry (v / PGSIZE)).frame, haddr.symm, ?_⟩
  have hle : (d.entry (v / PGSIZE)).count (d.entry (v / PGSIZE)).frame ≤ d.user _ :=
    Finset.single_le_sum (f := fun vp => (d.entry vp).count (d.entry (v / PGSIZE)).frame)
      (fun _ _ => Nat.zero_le _) (Finset.mem_range.2 (div_lt_UPAGES hv))
  rw [Pte.count, if_pos ⟨hp, rfl⟩] at hle
  exact hle

/-- What `exec` does to the regions. -/
theorem exec_replaced {file : Option (List UInt8)} (hap : m.Apart)
    (h : m.exec P file argv = .ok (true, m', P')) : Replaced m P m' P' := by
  rcases exec_cases h with ⟨hb, -⟩ | ⟨-, m1, d, sz, htotal, hs1, -, hsz, hfree, rfl⟩
  · cases hb
  refine ⟨rfl, rfl, ((freevm_spec hfree).same rfl).trans hs1, hsz, fun v i hmaps => ?_⟩
  -- what the new image maps was free
  obtain ⟨f, hphys, hpos⟩ := hmaps.user_pos
  have := htotal f
  exact hap i f (List.count_pos_iff.1 (by simp only at hpos; omega)) hphys

/-- The slots after `exec`. -/
theorem Replaced.carried_iff (h : Replaced m P m' P') :
    Carried m P m' P' ↔ ∀ i, P.shm_name i = DNE := by
  refine ⟨fun hc i => ?_, fun hall => ⟨fun i => .inl ?_, fun j => ?_⟩⟩
  · rcases hc.slots i with hi | ⟨j, -, hmaps⟩
    · rw [← h.names]
      exact hi
    · rw [h.shm_arr] at hmaps
      exact absurd hmaps (h.unmapped _ j)
  · rw [h.names]
    exact hall i
  · have hzero : dropped m P P' j = 0 := by
      rw [dropped, Finset.card_eq_zero, Finset.filter_eq_empty_iff]
      rintro i - ⟨hi, -⟩
      exact hi (hall i)
    rw [hzero, h.shm_arr]
    simp

/-! ## A later `shm_get` -/

/-- `mappages` on one page needs memory for a page table, or a page table. -/
theorem mappages_room (hva : va % PGSIZE = 0)
    (hlt : va < 2 ^ 32) (h : m.mappages d va PGSIZE pa w u = .ok (c, m', d')) :
    c = true ↔ (d.pte va).isSome = true ∨ m.freelist ≠ [] := by
  cases c with
  | false =>
    obtain ⟨hfree, hnone⟩ := mappages_false hva hlt h
    simp [hfree, hnone]
  | true =>
    refine iff_of_true rfl ?_
    by_contra hnot
    obtain ⟨hnone, hfree⟩ := not_or.1 hnot
    have hpde : d.pde (PDX va) = none := by simpa [pte] using hnone
    rw [mappages_one hva hlt] at h
    simp [mapLoop, walkpgdir, hpde, kalloc, not_not.1 hfree] at h

/-- A page that is mapped for a region leads to it, and one that is not mapped nowhere. -/
theorem leads_mapped (hva : va % PGSIZE = 0)
    (hlt : va < KERNBASE) (hphys : (m''.shm_arr j).shmPhys % PGSIZE = 0)
    (h : m.mappages d va PGSIZE (m''.shm_arr j).shmPhys true true = .ok (c, m', P''.pgdir))
    (hj : strncmp (m''.shm_arr j).name name 16 = true) : Leads m'' P'' name va ↔ c = true := by
  cases c with
  | true => exact iff_of_true ⟨j, hj, maps_mappages hva hlt hphys h⟩ rfl
  | false =>
    refine iff_of_false ?_ nofun
    rintro ⟨k, -, hmaps⟩
    have hlt' : va < 2 ^ 32 := hlt.trans (by decide)
    obtain ⟨d1, hW, -, hf⟩ := mappages_page hva hlt' h
    rw [maps_iff, (hf rfl).1, hW.entry, entry_div, (mappages_false hva hlt' h).2]
      at hmaps
    exact absurd hmaps.2.1 (by decide)

/-- A `shm_get` after `exec` returns an address of the region exactly if the process did not have
the name before, and there is memory for a page table if one is needed. -/
theorem Replaced.leads_iff (h : Replaced m P m' P') (ht : m.Tidy)
    (hr : refused name length = false) (hv : v ≠ 0)
    (hget : m'.sys_shm_get P' name length junk = .ok (v, m'', P'')) :
    Leads m'' P'' name v ↔ P.procSHM_nameFind name = none ∧
      P'.Room m' (if m'.shm_find name = none then 1 else 0) := by
  have hfind0 : P'.procSHM_nameFind name = P.procSHM_nameFind name := by
    rw [Proc.procSHM_nameFind, h.names]
    rfl
  have hplaced (i : Slot) (hi : m'.shm_find name = some i) :
      ∃ f, 0 < f ∧ (m'.shm_arr i).shmPhys = f * PGSIZE := by
    have := named_of_shm_find hr hi
    rw [h.shm_arr] at this ⊢
    exact ht.placed i this
  have h0 (i : Slot) (hi : m'.shm_find name = some i) : (m'.shm_arr i).shmPhys ≠ 0 := by
    obtain ⟨f, hf, hphys⟩ := hplaced i hi
    rw [hphys]
    exact (Nat.mul_pos hf (by decide)).ne'
  unfold sys_shm_get at hget
  rw [hr] at hget
  rw [← hfind0]
  cases shm_get_cases h.size h0 hget with
  | known hi =>
    refine iff_of_false ?_ ?_
    · rintro ⟨j, -, hmaps⟩
      rw [h.shm_arr] at hmaps
      exact h.unmapped _ j hmaps
    · rw [hi]
      exact fun hn => by cases hn.1
  | failed => exact absurd rfl hv
  | starved => exact absurd rfl hv
  | @created ref i f m1 m2 c d hname href hfind hlt hk hmap hi =>
    have halt := (PGROUNDUP_lt hlt).trans hlt
    have hroom := mappages_room (PGROUNDUP_mod _) (halt.trans (by decide)) hmap
    have hentry := enrol_apply m2 i i (strncpy name 16) (f * PGSIZE)
    rw [if_pos rfl] at hentry
    have hphys : ((m2.enrol i (strncpy name 16) (f * PGSIZE)).shm_arr i).shmPhys = f * PGSIZE := by
      rw [hentry]
    rw [leads_mapped (j := i) (PGROUNDUP_mod _) halt (by rw [hphys]; exact Nat.mul_mod_left ..)
      (by rw [hphys]; exact hmap)
        (by rw [hentry, strncmp, strncpy, List.take_take]; exact beq_self_eq_true _),
      hroom, if_pos hfind, Proc.Room, (kalloc_some hk).1, List.length_cons,
      Nat.lt_add_left_iff_pos, List.length_pos_iff]
    exact (and_iff_right hname).symm
  | @attached ref i m2 c d hname href hfind hlt hmap =>
    have halt := (PGROUNDUP_lt hlt).trans hlt
    have hroom := mappages_room (PGROUNDUP_mod _) (halt.trans (by decide)) hmap
    obtain ⟨d1, hW, -, -⟩ := mappages_page (PGROUNDUP_mod _) (halt.trans (by decide)) hmap
    obtain ⟨f, -, hphys⟩ := hplaced i hfind
    have hsame : SameRegions m' (m2.addAccess i 1) :=
      SameRegions.trans (.of_eq hW.shm_arr) (sameRegions_addAccess m2 i 1)
    rw [← (hsame i).2] at hphys hmap
    rw [leads_mapped (j := i) (PGROUNDUP_mod _) halt (by rw [hphys]; exact Nat.mul_mod_left ..) hmap
      (by rw [(hsame i).1, strncmp, shm_find_some hfind]; exact beq_self_eq_true _),
      hroom, if_neg (by rw [hfind]; exact fun h => by cases h), Proc.Room, List.length_pos_iff]
    exact (and_iff_right hname).symm

/-- After a successful `exec` the slots are right exactly if there were none, and a `shm_get`
returns an address of the region exactly if the process did not have the name before and there is
memory for a page table if one is needed. -/
theorem exec_regions {file : Option (List UInt8)} {argv : List (List UInt8)} (ht : m.Tidy)
    (hap : m.Apart) (h : m.exec P file argv = .ok (true, m', P')) :
    (Carried m P m' P' ↔ ∀ i, P.shm_name i = DNE) ∧
      ∀ {name : List UInt8} {length : Int} {junk v : Nat} {m'' : Memory} {P'' : Proc},
        refused name length = false → v ≠ 0 →
        m'.sys_shm_get P' name length junk = .ok (v, m'', P'') →
        (Leads m'' P'' name v ↔ P.procSHM_nameFind name = none ∧
          P'.Room m' (if m'.shm_find name = none then 1 else 0)) := by
  have hrep := exec_replaced hap h
  refine ⟨hrep.carried_iff, ?_⟩
  intro name length junk v m'' P'' hr hv hget
  exact hrep.leads_iff ht hr hv hget

end

/-! ## A program without segments -/

/-- `kfree` accepts all that `freevm` gives it. -/
structure PageDir.Freeable (d : PageDir) : Prop where
  dir : Usable d.frame
  tables : ∀ {i t}, d.pde i = some t → Usable t.frame
  pages : ∀ {a e}, a < KERNBASE → d.pte a = some e → e.p = true → Usable e.frame

section
variable {m m' : Memory} {P : Proc} {d : PageDir} {acc : Int}

/-- Clearing an entry keeps it so. -/
theorem PageDir.Freeable.clear (h : d.Freeable) (a : Nat) : (d.setPte a .zero).Freeable := by
  unfold setPte
  split
  · exact h
  next t hd =>
  refine ⟨h.dir, fun {i t'} hi => ?_, fun {b e} hb he hp => ?_⟩
  · simp only [update_apply] at hi
    split at hi
    · cases hi
      exact h.tables (t := t) hd
    · exact h.tables hi
  · simp only [pte, update_apply] at he
    split at he
    · next hpdx =>
      simp only [Option.map_some, Option.some.injEq, update_apply] at he
      split at he
      · rw [← he] at hp
        cases hp
      · exact h.pages hb (by rw [pte, hpdx, hd, Option.map_some, he]) hp
    · exact h.pages hb he hp

/-- The loop of `deallocuvm` returns. -/
theorem deallocLoop_freeable (acc : Int) (hold : oldsz ≤ KERNBASE) (h : d.Freeable) :
    ∃ m' d', deallocLoop oldsz acc n m d a = .ok (m', d') ∧ d'.Freeable := by
  induction n generalizing m d a with
  | zero => exact ⟨m, d, rfl, h⟩
  | succ n ih =>
    simp only [deallocLoop]
    split
    swap
    · exact ⟨m, d, rfl, h⟩
    next ha =>
    split
    · exact ih h
    next e he =>
    split
    swap
    · exact ih h
    next hp =>
    have husable := h.pages (ha.trans_le hold) he hp
    split
    · next h0 =>
      have : e.frame = 0 := (Nat.mul_eq_zero.1 h0).resolve_right (by decide)
      rw [this] at husable
      exact absurd husable not_usable_zero
    split
    · exact ih h
    · obtain ⟨m1, hk⟩ := kfree_usable husable m
      obtain ⟨m', d', hl, hd'⟩ := ih (m := m1) (a := a + PGSIZE) (h.clear a)
      exact ⟨m', d', bind_eq_ok.2 ⟨m1, hk, hl⟩, hd'⟩

/-- The loop of `freevm` returns. -/
theorem freeTables_freeable (h : d.Freeable) (is : List (Fin 1024)) :
    ∃ m', freeTables d is m = .ok m' := by
  induction is generalizing m with
  | nil => exact ⟨m, rfl⟩
  | cons i is ih =>
    simp only [freeTables]
    split
    · exact ih
    · next t ht =>
      obtain ⟨m1, hk⟩ := kfree_usable (h.tables ht) m
      obtain ⟨m', hl⟩ := ih (m := m1)
      exact ⟨m', bind_eq_ok.2 ⟨m1, hk, hl⟩⟩

/-- `freevm` returns. -/
theorem freevm_freeable (acc : Int) (h : d.Freeable) : ∃ m', m.freevm d acc = .ok m' := by
  obtain ⟨m1, d1, hl, hd1⟩ := deallocLoop_freeable acc (m := m)
    (n := KERNBASE / PGSIZE + 1) (a := PGROUNDUP 0) le_rfl h
  obtain ⟨m2, ht⟩ := freeTables_freeable (m := m1) hd1 (List.finRange 1024)
  obtain ⟨m3, hk⟩ := kfree_usable hd1.dir m2
  refine ⟨m3, bind_eq_ok.2 ⟨(0, m1, d1), ?_, bind_eq_ok.2 ⟨m2, ht, hk⟩⟩⟩
  unfold deallocuvm
  rw [if_neg (by decide)]
  exact bind_eq_ok.2 ⟨(m1, d1), hl, rfl⟩

/-- An ELF header that announces no program headers. -/
def bareElf : List UInt8 := [0x7f, 0x45, 0x4c, 0x46] ++ List.replicate 48 0

/-- The stack of a program without segments and arguments. -/
theorem execStack_bare (cur : PageDir)
    (hfree : m.freelist = f :: g :: k :: fs) (h0 : d.pde 0 = none) :
    ∃ m' d', execStack cur m d 0 [] = .ok (some (2 * PGSIZE), m', d') := by
  have hk1 : m.kalloc = (some f, { m with freelist := g :: k :: fs }) := by
    simp only [kalloc, hfree]
  obtain ⟨d1, hmap1, hempty⟩ := mappages_first
    (m := fill { m with freelist := g :: k :: fs } f 0) true true (f * PGSIZE) h0 rfl
  have hpage : d1.pte (1 * PGSIZE) = some .zero := hempty 1 le_rfl (by decide)
  let m1 : Memory :=
    { fill { m with freelist := g :: k :: fs } f 0 with freelist := k :: fs }
  let m2 : Memory := fill { m1 with freelist := fs } k 0
  let e : Pte := { frame := k * PGSIZE / PGSIZE, p := true, w := true, u := true }
  let d2 : PageDir := d1.setPte (1 * PGSIZE) e
  have hmap2 : m2.mappages d1 (1 * PGSIZE) PGSIZE (k * PGSIZE) true true = .ok (true, m2, d2) :=
    mappages_empty (by decide) (by decide) hpage
  have halloc : m.allocuvm d 0 (2 * PGSIZE) = .ok (2 * PGSIZE, m2, d2) := by
    unfold allocuvm
    rw [if_neg (by decide), if_neg (by decide)]
    change allocLoop 0 (2 * PGSIZE) 2 m d 0 = _
    simp only [allocLoop, hk1]
    refine bind_eq_ok.2 ⟨_, hmap1, ?_⟩
    exact bind_eq_ok.2 ⟨_, hmap2, rfl⟩
  have hsome : (d1.pte (0 * PGSIZE)).isSome = true := by
    obtain ⟨t, ht, -⟩ := Option.map_eq_some_iff.1 hpage
    rw [pte, Option.isSome_map]
    exact Option.isSome_of_eq_some (show d1.pde 0 = some t from ht)
  obtain ⟨e0, he0⟩ := Option.isSome_iff_exists.1 hsome
  have he1 : d2.pte (0 * PGSIZE) = some e0 :=
    (pte_setPte_ne (by decide) (by decide) (by decide) _).trans he0
  let d3 : PageDir := d2.setPte (0 * PGSIZE) { e0 with u := false }
  have hclear : clearpteu d2 0 = .ok d3 := by
    unfold clearpteu
    rw [show d2.pte 0 = some e0 from he1]
    rfl
  have hstack : d3.pte (1 * PGSIZE) = some e :=
    (pte_setPte_ne (by decide) (by decide) (by decide) _).trans (pte_setPte_self hpage)
  have hka : m2.uva2ka cur d3 (1 * PGSIZE) = .ok (some (k * PGSIZE / PGSIZE)) := by
    unfold uva2ka
    rw [hstack]
    rfl
  -- the pointers to the arguments, and the null pointer that ends them
  let ustack : List Nat := [0xffffffff, 0, 2 * PGSIZE - 4, 0]
  have hout : m2.copyout cur d3 (2 * PGSIZE - 16) (ustack.flatMap (Bytes.leBytes 4)) =
      .ok (true, m2.write (k * PGSIZE / PGSIZE) (PGSIZE - 16) (ustack.flatMap (Bytes.leBytes 4))) :=
    bind_eq_ok.2 ⟨_, hka, rfl⟩
  refine ⟨m2.write (k * PGSIZE / PGSIZE) (PGSIZE - 16) (ustack.flatMap (Bytes.leBytes 4)), d3, ?_⟩
  unfold execStack
  refine bind_eq_ok.2 ⟨_, halloc, ?_⟩
  refine bind_eq_ok.2 ⟨_, hclear, ?_⟩
  refine bind_eq_ok.2 ⟨_, rfl, ?_⟩
  exact bind_eq_ok.2 ⟨_, hout, rfl⟩

/-- `exec` of a file without segments succeeds. -/
theorem exec_bare (hP : P.pgdir.Freeable) (hlen : 1028 ≤ m.freelist.length) :
    ∃ m' P', m.exec P (some bareElf) [] = .ok (true, m', P') := by
  have htables : KTABLES = 64 := rfl
  obtain ⟨m1, d, hk, hl, h512⟩ := setupkvm_room (m := m) (by omega)
  obtain ⟨f, fs, hf⟩ := List.exists_cons_of_length_pos (l := m1.freelist) (by omega)
  rw [hf, List.length_cons] at hl
  obtain ⟨g, gs, hg⟩ := List.exists_cons_of_length_pos (l := fs) (by omega)
  rw [hg, List.length_cons] at hl
  obtain ⟨k, ks, hks⟩ := List.exists_cons_of_length_pos (l := gs) (by omega)
  rw [hg, hks] at hf
  obtain ⟨m2, d2, hstack⟩ := execStack_bare P.pgdir hf (h512 0 (by decide))
  obtain ⟨m3, hfree⟩ := freevm_freeable (m := m2) 0 hP
  refine ⟨m3, { P with pgdir := d2, sz := 2 * PGSIZE }, ?_⟩
  unfold exec
  dsimp only
  rw [if_neg (by decide)]
  refine bind_eq_ok.2 ⟨_, hk, ?_⟩
  refine bind_eq_ok.2 ⟨(some (2 * PGSIZE), m2, d2), ?_, bind_eq_ok.2 ⟨m3, hfree, rfl⟩⟩
  unfold execImage
  exact hstack

end

namespace Sharer

/-- A process of two pages, the second one of a region. -/
def proc : Proc where
  sz := 2 * PGSIZE
  pgdir :=
    { frame := 900
      pde := update (fun _ => none) 0 (some
        { frame := 901
          pte := update (update (fun _ => .zero)
            0 { frame := 1000, p := true, w := true, u := true })
            1 { frame := 1001, p := true, w := true, u := true } }) }
  kstack := 902
  parent := none
  zombie := false
  shm_name := update (fun _ => DNE) 0 [97]
  shm_vir := update (fun _ => 0) 0 PGSIZE
  shm_phys := update (fun _ => 0) 0 (1001 * PGSIZE)

/-- The memory with that region. -/
def mem : Memory where
  freelist := frames
  page _ _ := 0
  shm_arr := update shm_init 0 { name := [97], numAccess := 1, shmPhys := 1001 * PGSIZE }
  used := 1
  oom := false

theorem freeable : proc.pgdir.Freeable where
  dir := show Usable 900 from ⟨by decide, by decide⟩
  tables {i t} ht := by
    simp only [proc, update_apply] at ht
    split at ht
    · cases ht
      exact ⟨by decide, by decide⟩
    · cases ht
  pages {a e} _ he hp := by
    simp only [pte, proc, update_apply] at he
    split at he
    · simp only [Option.map_some, Option.some.injEq] at he
      subst he
      rcases eq_or_ne (PTX a) 1 with h1 | h1
      · rw [h1, update_self]
        exact ⟨by decide, by decide⟩
      rcases eq_or_ne (PTX a) 0 with h0 | h0
      · rw [h0, update_of_ne (by decide), update_self]
        exact ⟨by decide, by decide⟩
      · rw [update_of_ne h1, update_of_ne h0] at hp
        cases hp
    · cases he

theorem shm_arr_apply (i : Slot) : mem.shm_arr i =
    if i = 0 then { name := [97], numAccess := 1, shmPhys := 1001 * PGSIZE }
    else { name := DNE, numAccess := 0, shmPhys := 0 } :=
  update_apply ..

theorem apart : mem.Apart := by
  intro i f hf hphys
  have hge := (List.mem_range'_1.1 hf).1
  rw [shm_arr_apply] at hphys
  split at hphys
  · rw [← mul_PGSIZE_inj hphys] at hge
    exact absurd hge (by decide)
  · exact (Nat.mul_pos (Nat.lt_of_lt_of_le (by decide) hge) (by decide)).ne hphys

theorem tidy : mem.Tidy where
  unused i hi := by
    rw [shm_arr_apply] at hi ⊢
    split at hi
    · exact absurd (show ([97] : List UInt8) ≠ DNE by decide) hi
    · next hi0 =>
      rw [if_neg hi0]
      exact ⟨rfl, rfl⟩
  placed i hi := by
    rw [shm_arr_apply] at hi ⊢
    split at hi
    · next h0 =>
      rw [if_pos h0]
      exact ⟨1001, by decide, rfl⟩
    · exact absurd rfl hi
  distinct i j hij h0 := by
    rw [shm_arr_apply] at hij h0
    rw [shm_arr_apply] at hij
    split at hij
    · split at hij
      · next hi hj => rw [hi, hj]
      · exact absurd hij (by decide)
    · next hi => exact absurd (if_neg hi ▸ rfl) h0
  used := by decide +kernel

/-- `exec_regions` for a process that has given up its region. -/
theorem exec_regions_none : ∃ m' P',
    mem.exec { proc with shm_name := fun _ => DNE } (some bareElf) [] = .ok (true, m', P') ∧
      Carried mem { proc with shm_name := fun _ => DNE } m' P' := by
  obtain ⟨m', P', h⟩ := exec_bare (m := mem) (P := { proc with shm_name := fun _ => DNE }) freeable
    (by rw [show mem.freelist.length = 4096 from List.length_range']; decide)
  exact ⟨m', P', h, (exec_regions tidy apart h).1.2 fun _ => rfl⟩

/-- The process has its region, runs another program, and is told that it still has it. -/
theorem exec_keeps_slots : proc.SlotAgrees mem 0 ∧ ∃ m' P',
    mem.exec proc (some bareElf) [] = .ok (true, m', P') ∧ ¬ Carried mem proc m' P' ∧
      m'.sys_shm_get P' [97] 1 0 = .ok (PGSIZE, m', P') ∧ ¬ Leads m' P' [97] PGSIZE := by
  refine ⟨⟨0, rfl, rfl, by decide, _, rfl, rfl, rfl⟩, ?_⟩
  obtain ⟨m', P', h⟩ := exec_bare (m := mem) (P := proc) freeable
    (by rw [show mem.freelist.length = 4096 from List.length_range']; decide)
  have hrep := exec_replaced apart h
  refine ⟨m', P', h, fun hc => ?_, ?_, ?_⟩
  · exact absurd (hrep.carried_iff.1 hc 0) (by decide)
  · have hfind : P'.procSHM_nameFind [97] = some 0 := by
      rw [Proc.procSHM_nameFind, hrep.names]
      decide +kernel
    unfold sys_shm_get shm_get
    rw [show refused [97] 1 = false from rfl, hfind, hrep.virs]
    rfl
  · rintro ⟨j, -, hmaps⟩
    rw [hrep.shm_arr] at hmaps
    exact hrep.unmapped _ j hmaps

end Sharer

end Msboss.Vm
