import Msboss.Vm.Shrink

/-!
# What a copy takes from the free list

`copyuvm` takes frames one by one: a page directory, page tables for the kernel's mappings
(`setupkvm_length`, `setupkvm_short`), and then, page by page, one for the copy and one for the page
table where the last is full.

`PageDir.total` is the account for single frames: on the free list, in the directory, or mapped by
it. What is moved between these is still there; `freevm` puts all of it back on the free list, as
long as no page is of a shared region (`freevm_total`).
-/

namespace Msboss.Vm

open Memory PageDir List

/-! ## `freevm` -/

/-- The uses of a frame, by the free list and by one directory. -/
def Memory.total (m : Memory) (d : PageDir) (f : Frame) : Nat :=
  m.freelist.count f + d.tables f + d.user f

/-- No user page of the directory is of a region. -/
def Memory.Unshared (m : Memory) (d : PageDir) : Prop :=
  ∀ vp < UPAGES, (d.entry vp).p = true → ¬ m.Region (d.entry vp).frame

section
variable {m m' : Memory} {d d' : PageDir} {acc : Int}

/-- A page that is freed is counted as free. -/
theorem kfree_total (ha : a < KERNBASE) (he : d.pte a = some e)
    (hp : e.p = true) (h : m.kfree e.addr = .ok m') (f : Frame) :
    m'.total (d.setPte a .zero) f = m.total d f := by
  have hfr : e.addr / PGSIZE = e.frame := Nat.mul_div_cancel _ (by decide)
  have hclear := PageDir.user_clear ha he hp f
  rw [total, total, (kfree_ok h).1, hfr, count_cons, PageDir.tables_setPte]
  simp only [beq_iff_eq]
  omega

/-- `deallocuvm` loses no frame: what it does not free stays mapped. -/
theorem deallocLoop_total (hsz : oldsz ≤ KERNBASE)
    (h : deallocLoop oldsz acc n m d a = .ok (m', d')) (f : Frame) :
    m'.total d' f = m.total d f := by
  replace h := deallocs_of_ok h
  induction h with
  | last | past => rfl
  | skip _ _ _ ih | absent _ _ _ _ ih | shared _ _ _ _ _ _ ih => exact ih
  | freed hlt he hp _ _ hk _ ih => rw [ih, kfree_total (hlt.trans_le hsz) he hp hk]

/-- `freevm` puts all frames of a directory on the free list, if no page is of a region. -/
theorem freevm_total (hun : m.Unshared d) (h : m.freevm d acc = .ok m') (f : Frame) :
    m'.freelist.count f = m.total d f := by
  obtain ⟨m1, d1, hl, -, -, -, hcount⟩ := freevm_parts h
  have hU := deallocLoop_unmapped le_rfl (Nat.zero_mod _) (.inl (Nat.zero_mod _)) (by decide)
    (fun vp hvp _ _ => hun vp hvp) hl
  have huser : d1.user f = 0 := by
    refine Finset.sum_eq_zero fun vp hvp => ?_
    have hvp := Finset.mem_range.1 hvp
    refine Pte.count_of_not_present (hU.gone vp hvp (Nat.zero_le _) ?_) f
    simp only [UPAGES, KERNBASE, PGSIZE] at *
    omega
  rw [hcount f, ← deallocLoop_total le_rfl hl f, total, huser, Nat.add_zero]

end

/-! ## `copyuvm` -/

/-- The page tables for the first `k` user pages. -/
def tablesFor (k : Nat) : Nat := (k + (NPTENTRIES - 1)) / NPTENTRIES

/-- The frames that copies of the first `k` user pages take, with their page tables. -/
def framesFor (k : Nat) : Nat := k + tablesFor k

/-- A page more, and a page table if it is the first of one. -/
theorem framesFor_succ (k : Nat) :
    framesFor (k + 1) = framesFor k + 1 + if k % NPTENTRIES = 0 then 1 else 0 := by
  rcases eq_or_ne (k % NPTENTRIES) 0 with h | h
  · rw [if_pos h]
    simp only [framesFor, tablesFor, NPTENTRIES] at *
    omega
  · rw [if_neg h]
    simp only [framesFor, tablesFor, NPTENTRIES] at *
    omega

/-- More pages need more frames. -/
theorem framesFor_strictMono : StrictMono framesFor :=
  strictMono_nat_of_lt_succ fun k => by rw [framesFor_succ]; omega

/-- The user half has the page tables for the first `k` pages, and no others. -/
def PageDir.HasTables (d : PageDir) (k : Nat) : Prop :=
  ∀ vp < UPAGES, (d.pte (vp * PGSIZE)).isSome = true ↔ vp / NPTENTRIES < tablesFor k

/-- The page is of an entry of `shm_arr`. -/
def Memory.Shared (m : Memory) (e : Pte) : Prop := ∃ i, (m.shm_arr i).shmPhys = e.addr

instance (m : Memory) (e : Pte) : Decidable (m.Shared e) :=
  inferInstanceAs (Decidable (∃ i, (m.shm_arr i).shmPhys = e.addr))

/-- All accesses that are counted. -/
def Memory.accesses (m : Memory) : Int := ∑ i, (m.shm_arr i).numAccess

/-- Where the loop of `copyuvm` is before page `k`, after copies only. -/
structure Copying (m : Memory) (d : PageDir) (k : Nat) : Prop where
  tables : d.HasTables k
  free : ∀ f ∈ m.freelist, ¬ m.Region f
  unshared : m.Unshared d

/-- There is a page among the `n` from page `k` on at which the free list is used up, exactly, and
all pages up to this one are private. -/
def Memory.Stops (m : Memory) (pgdir : PageDir) (k n : Nat) : Prop :=
  ∃ j, k ≤ j ∧ j < k + n ∧ (∀ i, k ≤ i → i ≤ j → ¬ m.Shared (pgdir.entry i)) ∧
    m.freelist.length + framesFor k = framesFor j

section
variable {m m1 m2 m' : Memory} {pgdir d d2 d' : PageDir} {k n : Nat} {w u b : Bool}

theorem page_lt (hk : k < UPAGES) : k * PGSIZE < KERNBASE := by
  simp only [UPAGES, KERNBASE, PGSIZE] at *
  omega

/-- Pages that share a page table. -/
theorem PDX_eq_iff (hvp : vp < UPAGES) (hk : k < UPAGES) :
    PDX (vp * PGSIZE) = PDX (k * PGSIZE) ↔ vp / NPTENTRIES = k / NPTENTRIES := by
  rw [PageDir.PDX_page, PageDir.PDX_page, Fin.ext_iff, Fin.val_ofNat, Fin.val_ofNat]
  simp only [UPAGES, KERNBASE, PGSIZE, NPTENTRIES] at *
  omega

/-- The page tables after `mappages`. -/
theorem mappages_tables (hva : va % PGSIZE = 0) (hlt : va < 2 ^ 32)
    (h : m.mappages d va PGSIZE pa w u = .ok (true, m', d')) :
    (m.freelist.length = m'.freelist.length + if (d.pte va).isSome then 0 else 1) ∧
      ∀ c, (d'.pte c).isSome = true ↔ (d.pte c).isSome = true ∨ PDX c = PDX va := by
  have hsome (d : PageDir) (c : Nat) : (d.pte c).isSome = (d.pde (PDX c)).isSome := by
    rw [pte, Option.isSome_map]
  rw [mappages_one hva hlt] at h
  simp only [mapLoop] at h
  split at h
  · cases h
  next m1 d1 hw =>
  split at h
  · cases h
  cases h
  refine ⟨?_, fun c => ?_⟩
  · unfold walkpgdir at hw
    rw [hsome]
    split at hw
    · next ht =>
      cases hw
      rw [ht]
      rfl
    next hn =>
    split at hw
    · cases hw
    · next hk =>
      cases hw
      rw [hn, (kalloc_some hk).1]
      rfl
  · have hT := walkpgdir_takes hw
    rw [pte_setPte_isSome, hsome, hsome]
    exact ⟨hT.new _, fun h => h.elim (hT.old _) fun h => hT.all rfl _ h⟩

/-- The next page needs a page table if it is the first of one. -/
theorem PageDir.HasTables.missing (h : d.HasTables k) (hk : k < UPAGES) :
    (d.pte (k * PGSIZE)).isSome = true ↔ k % NPTENTRIES ≠ 0 := by
  rw [h k hk]
  simp only [tablesFor, NPTENTRIES]
  omega

/-- The page tables and the free list after the next page. -/
theorem PageDir.HasTables.mapped (h : d.HasTables k) (hk : k < UPAGES)
    (hmap : m.mappages d (k * PGSIZE) PGSIZE pa w u = .ok (true, m', d')) : d'.HasTables (k + 1) ∧
      m'.freelist.length + tablesFor (k + 1) = m.freelist.length + tablesFor k := by
  obtain ⟨hlen, htab⟩ := mappages_tables (Nat.mul_mod_left ..) ((page_lt hk).trans (by decide)) hmap
  have hmiss := h.missing hk
  refine ⟨fun vp hvp => ?_, ?_⟩
  · rw [htab, h vp hvp, PDX_eq_iff hvp hk]
    simp only [tablesFor, NPTENTRIES]
    omega
  · rw [hlen]
    split
    · next hy =>
      have := hmiss.1 hy
      simp only [tablesFor, NPTENTRIES] at *
      omega
    · next hy =>
      have := not_not.1 (mt hmiss.2 hy)
      simp only [tablesFor, NPTENTRIES] at *
      omega

/-- One copy. -/
theorem Copying.page (hC : Copying m d k) (hk : k < UPAGES) (hka : m.kalloc = (some f, m1))
    (hmap : (m1.copyFrame f g).mappages d (k * PGSIZE) PGSIZE (f * PGSIZE) w u =
      .ok (true, m2, d2)) : Copying m2 d2 (k + 1) ∧ m2.shm_arr = m.shm_arr ∧
      m2.freelist.length + framesFor (k + 1) = m.freelist.length + framesFor k ∧
      ∀ x, m2.total d2 x = m.total d x := by
  have hva : k * PGSIZE % PGSIZE = 0 := Nat.mul_mod_left ..
  have hlt := page_lt hk
  have hlt' : k * PGSIZE < 2 ^ 32 := hlt.trans (by decide)
  have hfr : f * PGSIZE / PGSIZE = f := Nat.mul_div_cancel _ (by decide)
  obtain ⟨hfl, hm⟩ := kalloc_some hka
  obtain ⟨hM, hs⟩ := moves_alloc (n := m1.copyFrame f g) hva hlt hka rfl rfl rfl hmap
  obtain ⟨htab, hlen⟩ := hC.tables.mapped hk hmap
  refine ⟨⟨htab, fun x hx => ?_, fun vp hvp hp => ?_⟩, hs, ?_, fun x => ?_⟩
  · rw [hM.regions.region]
    refine hC.free x ?_
    rw [hfl]
    exact .tail _ (mappages_free hva hlt' hmap hx)
  · rw [hM.regions.region]
    rw [mappages_entry hva hlt hmap hvp] at hp ⊢
    split at hp
    · next heq =>
      rw [if_pos heq]
      simp only [hfr]
      exact hC.free f (by rw [hfl]; exact .head _)
    · next hne =>
      rw [if_neg hne]
      exact hC.unshared vp hvp hp
  · have hlen : m2.freelist.length + _ = m1.freelist.length + _ := hlen
    rw [framesFor, framesFor, hfl, length_cons]
    omega
  · obtain ⟨h1, h2⟩ := mappages_user hva hlt hmap x
    have h1 : m2.freelist.count x + d2.tables x = m1.freelist.count x + d.tables x := h1
    rw [hfr] at h2
    simp only [total, hfl, count_cons, beq_iff_eq, true_and] at h2 ⊢
    omega

/-- A copy for which there is no page table is lost. -/
theorem copy_lost (hk : k < UPAGES) (hka : m.kalloc = (some f, m1))
    (hmap : (m1.copyFrame f g).mappages d (k * PGSIZE) PGSIZE (f * PGSIZE) w u =
      .ok (false, m', d')) : m'.total d' f < m.total d f := by
  obtain ⟨h1, h2⟩ := mappages_user (Nat.mul_mod_left ..) (page_lt hk) hmap f
  have h1 : m'.freelist.count f + d'.tables f = m1.freelist.count f + d.tables f := h1
  simp only [total, (kalloc_some hka).1, count_cons_self, Bool.false_eq_true, false_and,
    if_false] at h2 ⊢
  omega

/-- The sum of the counts after one has changed. -/
theorem accesses_addAccess (m : Memory) (i : Slot) (c : Int) :
    (m.addAccess i c).accesses = m.accesses + c := by
  have hsum : ∀ j, ((m.addAccess i c).shm_arr j).numAccess =
      (m.shm_arr j).numAccess + if j = i then c else 0 := fun j => by
    rw [addAccess_apply]
    split <;> simp
  simp only [accesses, hsum, Finset.sum_add_distrib, Finset.sum_ite_eq', Finset.mem_univ,
    if_true]

/-- `mappages` counts nothing. -/
theorem mappages_accesses (hva : va % PGSIZE = 0) (hlt : va < 2 ^ 32)
    (h : m.mappages d va PGSIZE pa w u = .ok (b, m', d')) : m'.accesses = m.accesses := by
  obtain ⟨d1, hW, -⟩ := mappages_page hva hlt h
  rw [accesses, hW.shm_arr]
  rfl

/-- The loop of `copyuvm` only adds accesses. -/
theorem copyLoop_accesses (hk : k + n ≤ UPAGES)
    (h : copyLoop pgdir n m d (k * PGSIZE) = .ok (b, m', d')) : m.accesses ≤ m'.accesses := by
  induction n generalizing m d k with
  | zero =>
    cases h
    exact le_rfl
  | succ n ih =>
    obtain ⟨e, -, -, ⟨-, hka, -, -⟩ | ⟨m1, pa, c, m2, d2, hpage, hmap, h⟩⟩ := copyLoop_succ h
    · obtain ⟨-, rfl⟩ := kalloc_none hka
      exact le_rfl
    have hstep : m.accesses ≤ m2.accesses := by
      rw [mappages_accesses (Nat.mul_mod_left ..) ((page_lt (by omega)).trans (by decide)) hmap]
      cases hpage with
      | share =>
        rw [accesses_addAccess]
        omega
      | copy _ hka =>
        rw [(kalloc_some hka).2]
        exact le_rfl
    cases c with
    | false =>
      cases h
      exact hstep
    | true =>
      rw [← Nat.succ_mul] at h
      exact hstep.trans (ih (by omega) h)

/-- After a page of a region, there is one more access in the end. -/
theorem copyLoop_shared (hk : k + (n + 1) ≤ UPAGES) (hsh : m.Shared (pgdir.entry k))
    (h : copyLoop pgdir (n + 1) m d (k * PGSIZE) = .ok (b, m', d')) : m.accesses < m'.accesses := by
  obtain ⟨e, he, -, hround⟩ := copyLoop_succ h
  obtain ⟨i, hi⟩ := hsh
  rw [entry_of_page he] at hi
  rcases hround with ⟨hno, -⟩ | ⟨m1, pa, c, m2, d2, hpage, hmap, h⟩
  · exact absurd hi (hno i)
  cases hpage with
  | copy hno => exact absurd hi (hno i)
  | share =>
    have hstep : m2.accesses = m.accesses + 1 := by
      rw [mappages_accesses (Nat.mul_mod_left ..) ((page_lt (by omega)).trans (by decide)) hmap,
        accesses_addAccess]
    cases c with
    | false =>
      cases h
      omega
    | true =>
      rw [← Nat.succ_mul] at h
      have := copyLoop_accesses (by omega) h
      omega

/-- The first page is private. -/
theorem Memory.Stops.not_shared (h : m.Stops pgdir k n) : ¬ m.Shared (pgdir.entry k) := by
  obtain ⟨j, hkj, -, hpriv, -⟩ := h
  exact hpriv k le_rfl hkj

/-- The copy of a private page on the way to the page at which the loop stops. -/
theorem stops_succ (hlen : m2.freelist.length + framesFor (k + 1) = m.freelist.length + framesFor k)
    (hs : m2.shm_arr = m.shm_arr) (hpos : m.freelist ≠ []) (hpriv : ¬ m.Shared (pgdir.entry k)) :
    m.Stops pgdir k (n + 1) ↔ m2.Stops pgdir (k + 1) n := by
  have hshared (e : Pte) : m2.Shared e ↔ m.Shared e := by simp only [Memory.Shared, hs]
  have hne : 0 < m.freelist.length := length_pos_iff.2 hpos
  constructor
  · rintro ⟨j, hkj, hjn, hall, hj⟩
    have hj' : k ≠ j := by
      rintro rfl
      omega
    exact ⟨j, by omega, by omega, fun i h1 h2 => by rw [hshared]; exact hall i (by omega) h2,
      hlen.trans hj⟩
  · rintro ⟨j, hkj, hjn, hall, hj⟩
    refine ⟨j, by omega, by omega, fun i h1 h2 => ?_, hlen.symm.trans hj⟩
    rcases Nat.eq_or_lt_of_le h1 with rfl | h3
    · exact hpriv
    · rw [← hshared]
      exact hall i h3 h2

/-- A failed loop of `copyuvm`: it stops where all is still in place, or something has changed for
good. -/
theorem copyLoop_failed (hk : k + n ≤ UPAGES) (hC : Copying m d k)
    (h : copyLoop pgdir n m d (k * PGSIZE) = .ok (false, m', d')) :
    m.Stops pgdir k n ∧ m'.Unshared d' ∧ m'.shm_arr = m.shm_arr ∧
        (∀ f, m'.total d' f = m.total d f) ∨
      ¬ m.Stops pgdir k n ∧ (m.accesses < m'.accesses ∨ ∃ f, m'.total d' f < m.total d f) := by
  induction n generalizing m d k with
  | zero => cases h
  | succ n ih =>
    by_cases hsh : m.Shared (pgdir.entry k)
    · exact .inr ⟨fun hst => hst.not_shared hsh, .inl (copyLoop_shared hk hsh h)⟩
    obtain ⟨e, he, -, ⟨-, hka, -, rfl⟩ | ⟨m1, pa, c, m2, d2, hpage, hmap, h⟩⟩ := copyLoop_succ h
    · -- no frame for the copy
      obtain ⟨hnil, rfl⟩ := kalloc_none hka
      refine .inl ⟨⟨k, le_rfl, by omega, fun i h1 h2 => ?_, ?_⟩, hC.unshared, rfl, fun _ => rfl⟩
      · rw [Nat.le_antisymm h2 h1]
        exact hsh
      · rw [hnil, length_nil, Nat.zero_add]
    cases hpage with
    | @share i hi =>
      rw [entry_of_page he] at hsh
      exact absurd ⟨i, hi⟩ hsh
    | @copy f m1 hno hka =>
    have hne : m.freelist ≠ [] := by
      rw [(kalloc_some hka).1]
      exact cons_ne_nil _ _
    cases c with
    | true =>
      rw [← Nat.succ_mul] at h
      obtain ⟨hC2, hs, hlen, htot⟩ := hC.page (by omega) hka hmap
      have hacc : m2.accesses = m.accesses := by rw [accesses, hs, accesses]
      rw [stops_succ hlen hs hne hsh, ← hs, ← hacc]
      simp only [← htot]
      exact ih (by omega) hC2 h
    | false =>
      -- a frame for the copy, and none for its page table
      cases h
      refine .inr ⟨?_, .inr ⟨f, copy_lost (by omega) hka hmap⟩⟩
      rintro ⟨j, hkj, -, -, hj⟩
      obtain ⟨hnil, hnone⟩ := mappages_false (Nat.mul_mod_left ..)
        ((page_lt (by omega)).trans (by decide)) hmap
      have hnil : m1.freelist = [] := hnil
      have hmod : k % NPTENTRIES = 0 := by
        have := mt (hC.tables.missing (by omega)).2
        rw [hnone] at this
        exact not_not.1 (this fun h => by cases h)
      have hsucc := framesFor_succ k
      rw [if_pos hmod] at hsucc
      rw [(kalloc_some hka).1, hnil, length_singleton] at hj
      rcases Nat.eq_or_lt_of_le hkj with rfl | hlt
      · omega
      · have := framesFor_strictMono.monotone (Nat.succ_le_of_lt hlt)
        rw [Nat.succ_eq_add_one] at this
        omega

/-- The first `n` pages can be copied up to one of them, with what is left after `setupkvm`. -/
def Memory.CopyStops (m : Memory) (pgdir : PageDir) (n : Nat) : Prop :=
  m.freelist = [] ∨ ∃ j < n, (∀ i ≤ j, ¬ m.Shared (pgdir.entry i)) ∧
    m.freelist.length = 1 + KTABLES + framesFor j

/-- There are no user page tables at first. -/
theorem hasTables_zero (h : ∀ i, (d.pde i).isSome = true ↔ i ∈ kernelTables) : d.HasTables 0 := by
  intro vp hvp
  rw [pte, Option.isSome_map, h, PageDir.PDX_page]
  simp only [kernelTables, Set.mem_ofPred_eq, Fin.val_ofNat, tablesFor, UPAGES, KERNBASE, PGSIZE,
    NPTENTRIES] at *
  omega

/-- A failed `copyuvm` either leaves the free list and the regions as they were, or not. -/
theorem copyuvm_failed (hsz : sz < KERNBASE) (hfree : ∀ f ∈ m.freelist, ¬ m.Region f)
    (h : m.copyuvm pgdir sz = .ok (none, m')) :
    m.CopyStops pgdir ((sz + (PGSIZE - 1)) / PGSIZE) ∧ m'.shm_arr = m.shm_arr ∧
        (∀ f, m'.freelist.count f = m.freelist.count f) ∨
      ¬ m.CopyStops pgdir ((sz + (PGSIZE - 1)) / PGSIZE) ∧
        (m'.shm_arr ≠ m.shm_arr ∨ ∃ f, m'.freelist.count f < m.freelist.count f) := by
  unfold copyuvm at h
  obtain ⟨⟨r, m1⟩, hkvm, h⟩ := bind_eq_ok.1 h
  cases r with
  | none =>
    cases h
    obtain ⟨hlen, hnil⟩ := setupkvm_short hkvm
    cases hfl : m.freelist with
    | nil =>
      refine .inl ⟨.inl hfl, (setupkvm_none hkvm).1, fun f => ?_⟩
      rw [hnil]
    | cons f fs =>
      refine .inr ⟨?_, .inr ⟨f, ?_⟩⟩
      · rintro (h0 | ⟨j, -, -, hj⟩)
        · rw [hfl] at h0
          cases h0
        · omega
      · rw [hnil, count_cons_self]
        exact Nat.succ_pos _
  | some d0 =>
    obtain ⟨⟨b, m2, d2⟩, hl, h⟩ := bind_eq_ok.1 h
    cases b with
    | true => cases h
    | false =>
      obtain ⟨m3, hfv, h⟩ := bind_eq_ok.1 h
      cases h
      obtain ⟨hs, -, -, -, htab, hzero⟩ := setupkvm_some hkvm
      obtain ⟨hlen, hpde⟩ := setupkvm_length hkvm
      have hregion {f : Frame} : m1.Region f ↔ m.Region f := (SameRegions.of_eq hs).region
      have htot (f : Frame) : m1.total d0 f = m.freelist.count f := by
        rw [total, htab, user_eq_zero hzero, Nat.add_zero]
      have hC : Copying m1 d0 0 := by
        refine ⟨hasTables_zero hpde, fun f hf => ?_, fun vp hvp hp => ?_⟩
        · rw [hregion]
          refine hfree f (count_pos_iff.1 ?_)
          have := count_pos_iff.2 hf
          have := htab f
          omega
        · rw [hzero vp hvp] at hp
          cases hp
      have hpages : 0 + (sz + (PGSIZE - 1)) / PGSIZE ≤ UPAGES := by
        simp only [UPAGES, KERNBASE, PGSIZE] at *
        omega
      have hstops : m.CopyStops pgdir ((sz + (PGSIZE - 1)) / PGSIZE) ↔
          m1.Stops pgdir 0 ((sz + (PGSIZE - 1)) / PGSIZE) := by
        have h0 : framesFor 0 = 0 := rfl
        have hne : m.freelist ≠ [] := fun h0 => by rw [h0] at hlen; cases hlen
        simp only [Memory.CopyStops, Memory.Stops, Memory.Shared, hs, hne, false_or, Nat.zero_le,
          true_and, Nat.zero_add, forall_const, h0, Nat.add_zero]
        refine exists_congr fun j => and_congr_right fun _ => and_congr_right fun _ => ?_
        omega
      have hfreed := freevm_spec hfv
      rw [hstops, hfreed.same rfl]
      refine (copyLoop_failed hpages hC (by rw [Nat.zero_mul]; exact hl)).imp ?_ ?_
      · rintro ⟨hst, hun, hs2, htot2⟩
        refine ⟨hst, hs2.trans hs, fun f => ?_⟩
        rw [freevm_total hun hfv, htot2, htot]
      · rintro ⟨hst, hacc | ⟨f, hf⟩⟩
        · refine ⟨hst, .inl fun heq => ?_⟩
          rw [accesses, accesses, heq, hs] at hacc
          exact lt_irrefl _ hacc
        · refine ⟨hst, .inr ⟨f, ?_⟩⟩
          rw [← htot]
          exact (hfreed.total f).trans_lt hf

end

end Msboss.Vm
