import Msboss.Vm.Moves

/-!
# Counting the accesses to shared regions

`freevm` takes the pages of a directory apart and `copyuvm` makes a copy of them; both change the
access counts in `shm_arr` by a search for the address of each page. The lemmas here say by how
much: `freevm` by its argument for every page that maps the region, `copyuvm` by one for every page
that the copy shares (`Granted`).
-/

namespace Msboss.Vm

open Memory PageDir Finset

/-- No two entries of `shm_arr` in use have the same frame. -/
def Memory.Distinct (m : Memory) : Prop :=
  ∀ i j, (m.shm_arr i).shmPhys = (m.shm_arr j).shmPhys → (m.shm_arr i).shmPhys ≠ 0 → i = j

theorem SameRegions.distinct (h : SameRegions m m') (hd : m.Distinct) :
    m'.Distinct := fun i j hij h0 => by
  rw [(h i).2, (h j).2] at hij
  rw [(h i).2] at h0
  exact hd i j hij h0

/-- The access that a search by address counts is one to the region that has the address. -/
theorem Memory.Distinct.numAccess_addAccess {m : Memory} (hd : m.Distinct) {i j : Slot}
    {f g : Frame} {c : Int} (hi : (m.shm_arr i).shmPhys = f * PGSIZE)
    (hj : (m.shm_arr j).shmPhys = g * PGSIZE) (hg : 0 < g) :
    ((m.addAccess i c).shm_arr j).numAccess =
      (m.shm_arr j).numAccess + c * (if f = g then 1 else 0 : ℕ) := by
  have hiff : j = i ↔ f = g := by
    constructor
    · rintro rfl
      exact Nat.eq_of_mul_eq_mul_right (by decide) (hi.symm.trans hj)
    · rintro rfl
      exact hd j i (hj.trans hi.symm) (by rw [hj]; exact (Nat.mul_pos hg (by decide)).ne')
  rw [addAccess_apply]
  by_cases h : j = i
  · rw [if_pos h, if_pos (hiff.1 h)]; simp
  · rw [if_neg h, if_neg (mt hiff.2 h)]; simp

/-! ## `freevm` -/

section
variable {m m' : Memory} {d d' : PageDir} {acc : Int}

/-- The next page has the same page table, unless a new one begins. -/
theorem pte_isSome_next (ha : a % PGSIZE = 0) (hs : (d.pte a).isSome = true)
    (h : (a + PGSIZE) % (NPTENTRIES * PGSIZE) ≠ 0) : (d.pte (a + PGSIZE)).isSome = true := by
  have : PDX (a + PGSIZE) = PDX a := by
    simp only [PDX, Fin.ext_iff, Fin.val_ofNat, PGSIZE, NPTENTRIES] at *
    omega
  simpa [pte, this] using hs

/-- Where a page table is missing, all of its pages are. -/
theorem entry_of_missing (ha : a % (NPTENTRIES * PGSIZE) = 0) (hn : d.pte a = none)
    (h1 : a / PGSIZE ≤ vp) (h2 : vp < a / PGSIZE + NPTENTRIES) : d.entry vp = .zero := by
  have hpd : PDX (vp * PGSIZE) = PDX a := by
    rw [PageDir.PDX_page]
    simp only [PDX, Fin.ext_iff, Fin.val_ofNat, PGSIZE, NPTENTRIES] at *
    omega
  have : d.pde (PDX a) = none := by simpa [pte] using hn
  simp [entry, pte, hpd, this]

/-- The loop of `deallocuvm` on the whole user half counts every page. Where it meets a missing
page table it is at the first page of that table, so what it skips maps nothing. -/
theorem deallocLoop_access (hd : m.Distinct) (ha : a % PGSIZE = 0)
    (hal : a % (NPTENTRIES * PGSIZE) = 0 ∨ (d.pte a).isSome = true) (hn : UPAGES ≤ a / PGSIZE + n)
    (h : deallocLoop KERNBASE acc n m d a = .ok (m', d')) {j : Slot} {g : Frame} (hg : 0 < g)
    (hj : (m.shm_arr j).shmPhys = g * PGSIZE) :
    (m'.shm_arr j).numAccess = (m.shm_arr j).numAccess +
      acc * (∑ vp ∈ Finset.Ico (a / PGSIZE) UPAGES, (d.entry vp).count g : ℕ) := by
  have hnext (a : Nat) : (a + PGSIZE) / PGSIZE = a / PGSIZE + 1 := by simp [PGSIZE]
  have hsum {a : Nat} {d : PageDir} {e : Pte} (hlt : a < KERNBASE) (he : d.pte a = some e) :
      ∑ vp ∈ Finset.Ico (a / PGSIZE) UPAGES, (d.entry vp).count g =
        e.count g + ∑ vp ∈ Finset.Ico ((a + PGSIZE) / PGSIZE) UPAGES, (d.entry vp).count g := by
    rw [sum_eq_sum_Ico_succ_bot (div_lt_UPAGES hlt), entry_of_pte he, ← hnext]
  have hal' {a : Nat} {d : PageDir} (ha : a % PGSIZE = 0) (hs : (d.pte a).isSome = true) :=
    or_iff_not_imp_left.2 (pte_isSome_next ha hs)
  replace h := deallocs_of_ok h
  induction h with
  | last =>
    rw [Finset.Ico_eq_empty (by omega)]
    simp
  | past hge =>
    have := Nat.div_le_div_right (c := PGSIZE) hge
    rw [Finset.Ico_eq_empty (by simp only [UPAGES]; omega)]
    simp
  | @skip a n m d hlt hnone _ ih =>
    have hal : a % (NPTENTRIES * PGSIZE) = 0 := by simpa [hnone] using hal
    have hdiv : (a + NPTENTRIES * PGSIZE) / PGSIZE = a / PGSIZE + NPTENTRIES := by
      simp only [NPTENTRIES, PGSIZE]; omega
    rw [ih hd (by simp [ha]) (.inl (by simp [hal])) (by rw [hdiv]; simp only [NPTENTRIES]; omega) hj,
      hdiv]
    have hle : a / PGSIZE + NPTENTRIES ≤ UPAGES := by
      simp only [UPAGES, KERNBASE, PGSIZE, NPTENTRIES] at *; omega
    rw [← sum_Ico_consecutive _ (Nat.le_add_right _ NPTENTRIES) hle,
      sum_eq_zero (s := Finset.Ico (a / PGSIZE) _), zero_add]
    intro vp hvp
    have := mem_Ico.1 hvp
    rw [entry_of_missing hal hnone this.1 this.2]
    rfl
  | absent hlt he hp _ ih =>
    rw [ih hd (by simp [ha]) (hal' ha (by rw [he]; rfl)) (by rw [hnext]; omega) hj, hsum hlt he,
      Pte.count_of_not_present hp, Nat.zero_add]
  | @shared a e n d m i hlt he hp _ hi _ ih =>
    have hR := sameRegions_addAccess m i acc
    rw [ih (hR.distinct hd) (by simp [ha]) (hal' ha (by rw [he]; rfl)) (by rw [hnext]; omega)
      ((hR j).2.trans hj), hd.numAccess_addAccess hi hj hg, hsum hlt he]
    simp only [Pte.count, hp, true_and]
    push_cast
    ring
  | freed hlt he _ _ hnone hk _ ih =>
    obtain ⟨-, hshm, -, -⟩ := kfree_ok hk
    have hsome := Option.isSome_of_eq_some he
    rw [ih (SameRegions.of_eq hshm |>.distinct hd) (by simp [ha])
      (hal' ha (by rw [pte_setPte_isSome]; exact hsome)) (by rw [hnext]; omega)
      (by rw [hshm]; exact hj), hshm, hsum hlt he, Pte.count, if_neg, Nat.zero_add]
    · rw [sum_congr rfl fun vp hvp => ?_]
      obtain ⟨hlo, hhi⟩ := mem_Ico.1 hvp
      rw [hnext] at hlo
      rw [entry_setPte (hlt.trans (by decide)) (hhi.trans_le (by decide)) hsome,
        if_neg (Nat.lt_of_succ_le hlo).ne']
    · rintro ⟨-, rfl⟩
      exact hnone j hj

/-- Freeing the page tables puts them on the free list. -/
theorem freeTables_count : ∀ {is : List (Fin 1024)} {m m' : Memory}, freeTables d is m = .ok m' →
    m'.shm_arr = m.shm_arr ∧ m'.used = m.used ∧ m'.oom = m.oom ∧ ∀ f, m'.freelist.count f =
      m.freelist.count f +
        (is.map fun i => (d.pde i).elim 0 fun t => if t.frame = f then 1 else 0).sum
  | [], m, m', h => by
    cases h
    exact ⟨rfl, rfl, rfl, fun _ => rfl⟩
  | i :: is, m, m', h => by
    simp only [freeTables] at h
    split at h
    · next hn =>
      obtain ⟨h1, h2, h3, h4⟩ := freeTables_count h
      exact ⟨h1, h2, h3, fun f => by simp [h4 f, hn]⟩
    next t ht =>
    obtain ⟨m1, hk, h⟩ := bind_eq_ok.1 h
    obtain ⟨hf, hs, hu, ho⟩ := kfree_ok hk
    obtain ⟨h1, h2, h3, h4⟩ := freeTables_count h
    refine ⟨h1.trans hs, h2.trans hu, h3.trans ho, fun f => ?_⟩
    have hfr : t.frame * PGSIZE / PGSIZE = t.frame := Nat.mul_div_cancel _ (by decide)
    rw [h4 f, hf, hfr, List.count_cons]
    simp only [List.map_cons, List.sum_cons, ht, Option.elim_some, beq_iff_eq]
    omega

/-- What `freevm` does. -/
structure Freed (m : Memory) (d : PageDir) (acc : Int) (m' : Memory) : Prop where
  total : ∀ f, m'.freelist.count f ≤ m.freelist.count f + d.tables f + d.user f
  keep : ∀ f, m.Region f → m'.freelist.count f ≤ m.freelist.count f + d.tables f
  used : m'.used = m.used
  oom : m'.oom = m.oom
  regions : SameRegions m m'
  same : acc = 0 → m'.shm_arr = m.shm_arr
  unused : ∀ i, (m.shm_arr i).shmPhys = 0 → m'.shm_arr i = m.shm_arr i
  access : m.Distinct → ∀ {i : Slot} {f : Frame}, 0 < f → (m.shm_arr i).shmPhys = f * PGSIZE →
    (m'.shm_arr i).numAccess = (m.shm_arr i).numAccess + acc * (d.user f : ℕ)

/-- `freevm` frees the user pages, and then the page tables and the directory. -/
theorem freevm_parts (h : m.freevm d acc = .ok m') :
    ∃ m1 d1, deallocLoop KERNBASE acc (KERNBASE / PGSIZE + 1) m d 0 = .ok (m1, d1) ∧
      m'.shm_arr = m1.shm_arr ∧ m'.used = m1.used ∧ m'.oom = m1.oom ∧
      ∀ f, m'.freelist.count f = m1.freelist.count f + d1.tables f := by
  unfold freevm at h
  obtain ⟨⟨sz, m1, d1⟩, hd, h⟩ := bind_eq_ok.1 h
  obtain ⟨m2, ht, hk⟩ := bind_eq_ok.1 h
  rw [deallocuvm, if_neg (by decide)] at hd
  obtain ⟨⟨m1', d1'⟩, hl, he⟩ := bind_eq_ok.1 hd
  cases he
  obtain ⟨hs2, hu2, ho2, hc2⟩ := freeTables_count ht
  obtain ⟨hf, hs, hu, ho⟩ := kfree_ok hk
  refine ⟨m1, d1, hl, hs.trans hs2, hu.trans hu2, ho.trans ho2, fun f => ?_⟩
  have hfr : d1.frame * PGSIZE / PGSIZE = d1.frame := Nat.mul_div_cancel _ (by decide)
  rw [hf, hfr, List.count_cons, hc2 f, tables, Fin.sum_univ_def]
  simp only [beq_iff_eq]
  omega

/-- What `freevm` does. -/
theorem freevm_spec (h : m.freevm d acc = .ok m') : Freed m d acc m' := by
  obtain ⟨m1, d1, hl, hs', hu', ho', hcount⟩ := freevm_parts h
  obtain ⟨hM, ho, hz, hu⟩ := deallocLoop_moves le_rfl hl
  refine ⟨fun f => ?_, fun f hr => ?_, ?_, ?_, ?_, fun h0 => ?_, fun i hi => ?_,
    fun hdis i f hpos hi => ?_⟩
  · have := hM.total f
    have := hcount f
    omega
  · rw [hcount f]
    exact hM.keep f hr
  · rw [hu', hM.used]
  · rw [ho', ho]
  · exact hM.regions.trans (.of_eq hs')
  · rw [hs', hz h0]
  · rw [hs', hu i hi]
  · rw [hs', deallocLoop_access hdis (by decide) (.inl (by decide)) (by decide) hl hpos hi]
    simp only [user, range_eq_Ico]
    rfl

end

/-! ## `copyuvm` -/

/-- A copy, or part of one: `g f` more accesses to the region at the frame `f` are counted. If the
copy went well (`b`), as many pages map it. -/
structure Granted (m : Memory) (d : PageDir) (m' : Memory) (d' : PageDir) (g : Frame → ℕ)
    (b : Bool) : Prop where
  off : ∀ f, ¬ m.Region f → g f = 0
  total : ∀ f, m'.freelist.count f + d'.tables f + d'.user f ≤
    m.freelist.count f + d.tables f + d.user f + g f
  keep : ∀ f, m.Region f → m'.freelist.count f + d'.tables f ≤ m.freelist.count f + d.tables f
  held : b = true → ∀ f, m.Region f → d.user f + g f ≤ d'.user f
  used : m'.used = m.used
  regions : SameRegions m m'
  unused : ∀ i, (m.shm_arr i).shmPhys = 0 → m'.shm_arr i = m.shm_arr i
  access : m.Distinct → ∀ {i : Slot} {f : Frame}, 0 < f → (m.shm_arr i).shmPhys = f * PGSIZE →
    (m'.shm_arr i).numAccess = (m.shm_arr i).numAccess + (g f : ℕ)

section
variable {m m' m'' : Memory} {d d' d'' : PageDir} {g k : Frame → ℕ} {b : Bool}

/-- A move that counts no access. -/
theorem Moves.granted (h : Moves m d m' d') (hs : m'.shm_arr = m.shm_arr) :
    Granted m d m' d' 0 b where
  off _ _ := rfl
  total f := by simpa using h.total f
  keep := h.keep
  held _ f hf := by simpa using h.held f hf
  used := h.used
  regions := h.regions
  unused i _ := by rw [hs]
  access _ i f _ _ := by simp [hs]

theorem Granted.trans (h : Granted m d m' d' g true) (h' : Granted m' d' m'' d'' k b) :
    Granted m d m'' d'' (g + k) b where
  off f hf := by simp [h.off f hf, h'.off f (mt h.regions.region.1 hf)]
  total f := by
    have h1 := h.total f
    have h2 := h'.total f
    simp only [Pi.add_apply]
    omega
  keep f hf := (h'.keep f (h.regions.region.2 hf)).trans (h.keep f hf)
  held hb f hf := by
    have h1 := h.held rfl f hf
    have h2 := h'.held hb f (h.regions.region.2 hf)
    simp only [Pi.add_apply]
    omega
  used := h'.used.trans h.used
  regions := h.regions.trans h'.regions
  unused i hi := (h'.unused i ((h.regions i).2.trans hi)).trans (h.unused i hi)
  access hd i f hf hi := by
    rw [h'.access (h.regions.distinct hd) hf ((h.regions i).2.trans hi), h.access hd hf hi]
    simp only [Pi.add_apply, Nat.cast_add]
    ring

/-- A page of a region is shared, or at least counted. -/
theorem granted_share {i : Slot} {f : Frame} {a : Nat} {w u : Bool} (hf : 0 < f)
    (hi : (m.shm_arr i).shmPhys = f * PGSIZE) (ha : a % PGSIZE = 0) (hlt : a < KERNBASE)
    (h : (m.addAccess i 1).mappages d a PGSIZE (f * PGSIZE) w u = .ok (b, m', d')) :
    Granted m d m' d' (Pi.single f 1) b := by
  obtain ⟨d1, hW, -, -⟩ := mappages_page ha (hlt.trans (by decide)) h
  have hfr : f * PGSIZE / PGSIZE = f := Nat.mul_div_cancel _ (by decide)
  have hcount (x : Frame) := mappages_user ha hlt h x
  have hfl : (m.addAccess i 1).freelist = m.freelist := rfl
  rw [hfr, hfl] at hcount
  have hsingle (x : Frame) : (Pi.single f 1 : Frame → ℕ) x = if f = x then 1 else 0 := by
    rw [Pi.single_apply]; simp only [eq_comm]
  refine ⟨fun x hx => ?_, fun x => ?_, fun x _ => (hcount x).1.le, fun hb x _ => ?_, hW.used,
    (sameRegions_addAccess m i 1).trans (.of_eq hW.shm_arr), fun j hj => ?_,
    fun hd j x hx hj => ?_⟩
  · rw [hsingle, if_neg]
    rintro rfl
    exact hx ⟨hf, i, hi⟩
  · obtain ⟨h1, h2⟩ := hcount x
    rw [hsingle]
    split at h2
    · next h => rw [if_pos h.2]; omega
    · omega
  · rw [(hcount x).2, hsingle]
    simp [hb]
  · rw [hW.shm_arr, addAccess_apply, if_neg]
    rintro rfl
    exact (Nat.mul_pos hf (by decide)).ne' (hi.symm.trans hj)
  · rw [hW.shm_arr, hd.numAccess_addAccess hi hj hx, hsingle, one_mul]

/-- What the loop of `copyuvm` maps for the entry `e`, and the memory in which it does: the frame of
a region, with one more access, or a copy in a new frame. -/
inductive CopyPage (m : Memory) (e : Pte) : Memory → Nat → Prop
  | share {i : Slot} : (m.shm_arr i).shmPhys = e.addr → CopyPage m e (m.addAccess i 1) e.addr
  | copy {f : Frame} {m1 : Memory} : (∀ i, (m.shm_arr i).shmPhys ≠ e.addr) →
      m.kalloc = (some f, m1) → CopyPage m e (m1.copyFrame f e.frame) (f * PGSIZE)

/-- A round of the loop of `copyuvm` finds no frame for a copy, or maps a page. -/
theorem copyLoop_succ (h : copyLoop pgdir (n + 1) m d a = .ok (b, m', d')) :
    ∃ e, pgdir.pte a = some e ∧ e.p = true ∧
      ((∀ i, (m.shm_arr i).shmPhys ≠ e.addr) ∧ m.kalloc = (none, m') ∧ b = false ∧ d' = d ∨
      ∃ m1 pa c m2 d2, CopyPage m e m1 pa ∧ m1.mappages d a PGSIZE pa e.w e.u = .ok (c, m2, d2) ∧
        cond c (copyLoop pgdir n m2 d2 (a + PGSIZE)) (.ok (false, m2, d2)) = .ok (b, m', d')) := by
  simp only [copyLoop] at h
  split at h
  · cases h
  next e he =>
  split at h
  swap
  · cases h
  next hp =>
  refine ⟨e, he, hp, ?_⟩
  split at h
  · next hfind =>
    obtain ⟨i, hi, rfl⟩ := shm_arr_findPA_some hfind
    obtain ⟨⟨c, m2, d2⟩, hmap, h⟩ := bind_eq_ok.1 h
    refine .inr ⟨_, _, c, m2, d2, .share hi, hmap, ?_⟩
    cases c <;> exact h
  next hfind =>
  have hno := shm_arr_findPA_none hfind
  split at h
  · next hk =>
    cases h
    exact .inl ⟨hno, hk, rfl, rfl⟩
  · next hk =>
    obtain ⟨⟨c, m2, d2⟩, hmap, h⟩ := bind_eq_ok.1 h
    refine .inr ⟨_, _, c, m2, d2, .copy hno hk, hmap, ?_⟩
    cases c <;> exact h

/-- A `copyuvm` that succeeds has gone through all pages. -/
theorem copyuvm_eq_some (h : m.copyuvm pgdir sz = .ok (some d, m')) : ∃ m1 d0,
    m.setupkvm = .ok (some d0, m1) ∧
      copyLoop pgdir ((sz + (PGSIZE - 1)) / PGSIZE) m1 d0 0 = .ok (true, m', d) := by
  unfold copyuvm at h
  obtain ⟨⟨r, m1⟩, hk, h⟩ := bind_eq_ok.1 h
  cases r with
  | none => cases h
  | some d0 =>
    obtain ⟨⟨b, m2, d2⟩, hl, h⟩ := bind_eq_ok.1 h
    cases b with
    | false =>
      obtain ⟨m3, -, h⟩ := bind_eq_ok.1 h
      cases h
    | true =>
      cases h
      exact ⟨m1, d0, hk, hl⟩

/-- What the loop of `copyuvm` does. -/
theorem copyLoop_granted
    (h0 : ∀ vp < UPAGES, (pgdir.entry vp).p = true → 0 < (pgdir.entry vp).frame) :
    ∀ {n : Nat} {m m' : Memory} {d d' : PageDir} {i : Nat}, i % PGSIZE = 0 →
      i + n * PGSIZE ≤ KERNBASE → copyLoop pgdir n m d i = .ok (b, m', d') →
      ∃ g, Granted m d m' d' g b
  | 0, m, m', d, d', i, _, _, h => by
    cases h
    exact ⟨0, (Moves.refl _ _).granted rfl⟩
  | n + 1, m, m', d, d', i, hi, hn, h => by
    have hlt : i < KERNBASE := by simp only [PGSIZE] at hn; omega
    obtain ⟨e, he, hp, ⟨-, hk, rfl, rfl⟩ | ⟨m1, pa, c, m2, d2, hpage, hmap, h⟩⟩ := copyLoop_succ h
    · obtain ⟨-, rfl⟩ := kalloc_none hk
      exact ⟨0, Moves.granted ⟨fun _ => le_rfl, fun _ _ => le_rfl, fun _ _ => le_rfl, rfl,
        .refl _⟩ rfl⟩
    have hpos : 0 < e.frame := by
      have := h0 (i / PGSIZE) (by simp only [UPAGES, KERNBASE, PGSIZE] at *; omega)
      rw [entry_of_pte he] at this
      exact this hp
    obtain ⟨g, hg⟩ : ∃ g, Granted m d m2 d2 g c := by
      cases hpage with
      | share hj => exact ⟨_, granted_share hpos hj hi hlt hmap⟩
      | @copy f m1 _ hk =>
        obtain ⟨hM, hs⟩ := moves_alloc (n := m1.copyFrame f e.frame) hi hlt hk rfl rfl rfl hmap
        exact ⟨0, hM.granted hs⟩
    cases c with
    | false =>
      cases h
      exact ⟨g, hg⟩
    | true =>
      obtain ⟨g', hg'⟩ := copyLoop_granted h0 (by simp [hi]) (by rw [Nat.succ_mul] at hn; omega) h
      exact ⟨_, hg.trans hg'⟩

/-- The pages below `sz` are user pages. -/
theorem pages_le (h : sz ≤ KERNBASE) : 0 + (sz + (PGSIZE - 1)) / PGSIZE * PGSIZE ≤ KERNBASE := by
  simp only [KERNBASE, PGSIZE] at *; omega

/-- A directory with an empty user half maps nothing there. -/
theorem user_eq_zero (h : ∀ vp < UPAGES, d.entry vp = .zero) (f : Frame) : d.user f = 0 :=
  sum_eq_zero fun vp hvp => by rw [h vp (mem_range.1 hvp)]; rfl

/-- What `copyuvm` makes. -/
structure Copied (m : Memory) (m' : Memory) (d : PageDir) (g : Frame → ℕ) : Prop where
  off : ∀ f, ¬ m.Region f → g f = 0
  total : ∀ f, m'.freelist.count f + d.tables f + d.user f ≤ m.freelist.count f + g f
  keep : ∀ f, m.Region f → m'.freelist.count f + d.tables f ≤ m.freelist.count f
  held : ∀ f, m.Region f → g f ≤ d.user f
  used : m'.used = m.used
  regions : SameRegions m m'
  unused : ∀ i, (m.shm_arr i).shmPhys = 0 → m'.shm_arr i = m.shm_arr i
  access : m.Distinct → ∀ {i : Slot} {f : Frame}, 0 < f → (m.shm_arr i).shmPhys = f * PGSIZE →
    (m'.shm_arr i).numAccess = (m.shm_arr i).numAccess + (g f : ℕ)

/-- What a successful `copyuvm` does. -/
theorem copyuvm_some (h0 : ∀ vp < UPAGES, (pgdir.entry vp).p = true → 0 < (pgdir.entry vp).frame)
    (hsz : sz ≤ KERNBASE) (h : m.copyuvm pgdir sz = .ok (some d, m')) : ∃ g, Copied m m' d g := by
  obtain ⟨m1, d0, hk, hl⟩ := copyuvm_eq_some h
  obtain ⟨hs, hu, -, -, ht, hz⟩ := setupkvm_some hk
  obtain ⟨g, hg⟩ := copyLoop_granted h0 (by decide) (pages_le hsz) hl
  have hR : SameRegions m m1 := .of_eq hs
  have hz' := user_eq_zero hz
  refine ⟨g, fun f hf => hg.off f (mt hR.region.1 hf), fun f => ?_, fun f hf => ?_,
    fun f hf => ?_, hg.used.trans hu, hR.trans hg.regions, fun i hi => ?_,
    fun hd i f hf hi => ?_⟩
  · have h1 := hg.total f
    have h2 := ht f
    have h3 := hz' f
    omega
  · have h1 := hg.keep f (hR.region.2 hf)
    have h2 := ht f
    omega
  · have h1 := hg.held rfl f (hR.region.2 hf)
    omega
  · rw [hg.unused i (by rw [hs]; exact hi), hs]
  · rw [hg.access (hR.distinct hd) hf (by rw [hs]; exact hi), hs]

/-- A failed `copyuvm` may lose frames and count accesses that nobody has. -/
theorem copyuvm_none (h0 : ∀ vp < UPAGES, (pgdir.entry vp).p = true → 0 < (pgdir.entry vp).frame)
    (hsz : sz ≤ KERNBASE) (h : m.copyuvm pgdir sz = .ok (none, m')) :
    (∀ f, m'.freelist.count f ≤ m.freelist.count f) ∧ m'.used = m.used ∧ SameRegions m m' ∧
      (∀ i, (m.shm_arr i).shmPhys = 0 → m'.shm_arr i = m.shm_arr i) ∧
      (m.Distinct → ∀ {i : Slot} {f : Frame}, 0 < f → (m.shm_arr i).shmPhys = f * PGSIZE →
        (m.shm_arr i).numAccess ≤ (m'.shm_arr i).numAccess) := by
  unfold copyuvm at h
  obtain ⟨⟨r, m1⟩, hk, h⟩ := bind_eq_ok.1 h
  cases r with
  | none =>
    cases h
    obtain ⟨hs, hu, -, hf⟩ := setupkvm_none hk
    exact ⟨hf, hu, .of_eq hs, fun i _ => by rw [hs], fun _ i f _ _ => by rw [hs]⟩
  | some d0 =>
    obtain ⟨⟨b, m2, d2⟩, hl, h⟩ := bind_eq_ok.1 h
    cases b with
    | true => cases h
    | false =>
      obtain ⟨m3, hfree, h⟩ := bind_eq_ok.1 h
      cases h
      obtain ⟨hs, hu, -, -, ht, hz⟩ := setupkvm_some hk
      obtain ⟨g, hg⟩ := copyLoop_granted h0 (by decide) (pages_le hsz) hl
      have hF := freevm_spec hfree
      have hR : SameRegions m m1 := .of_eq hs
      have hz' := user_eq_zero hz
      refine ⟨fun f => ?_, ?_, ?_, fun i hi => ?_, fun hd i f hf hi => ?_⟩
      · have h2 := ht f
        by_cases hr : m1.Region f
        · have h1 := hg.keep f hr
          have h3 := hF.keep f (hg.regions.region.2 hr)
          omega
        have h1 := hg.total f
        have h3 := hF.total f
        have h4 := hg.off f hr
        have h5 := hz' f
        omega
      · rw [hF.used, hg.used, hu]
      · exact hR.trans (hg.regions.trans hF.regions)
      · rw [hF.same rfl, hg.unused i (by rw [hs]; exact hi), hs]
      · rw [hF.same rfl, hg.access (hR.distinct hd) hf (by rw [hs]; exact hi), hs]
        omega

end

end Msboss.Vm
