import Msboss.Vm.Image

/-!
# Giving one page back

`shm_rem` should take one page out of the process and close the gap. It does so in two of the four
cases it distinguishes, and in one of these only by accident (`shm_rem_iff`).

If others use the region, the page goes as it should when it is the last one. A page above it is
mapped in its place and stays mapped where it was, and with two pages above it the second of these
panics (`remap`). If nobody else uses the region, the test that guards the removal reads the word at
the user address 0 in place of the page-table entry, since it follows a null pointer; and only a
page that ends where the process ends is removed at all.
-/

namespace Msboss.Vm

open Function Memory PageDir

/-! ## The process before and after -/

/-- How many pages the process has. -/
def Proc.pages (P : Proc) : Nat := PGROUNDUP P.sz / PGSIZE

/-- No frame is mapped twice. -/
def PageDir.Once (d : PageDir) : Prop :=
  ∀ vp < UPAGES, ∀ vq < UPAGES, (d.entry vp).p = true → (d.entry vq).p = true →
    (d.entry vp).frame = (d.entry vq).frame → vp = vq

/-- The pages of the process are mapped, and no others; every slot says where its region is. -/
structure Laid (m : Memory) (P : Proc) : Prop where
  size : P.sz < KERNBASE
  mapped : ∀ vp < UPAGES, ((P.pgdir.entry vp).p = true ↔ vp < P.pages)
  once : P.pgdir.Once
  slots : ∀ k, P.shm_name k ≠ DNE → Leads m P (P.shm_name k) (P.shm_vir k)
  own : ∀ k l, P.shm_name k ≠ DNE → P.shm_name l ≠ DNE →
    P.shm_vir k / PGSIZE = P.shm_vir l / PGSIZE → k = l

/-- The process has the region `i`, under that name, in slot `r`. -/
structure Holding (m : Memory) (P : Proc) (name : List UInt8) (i r : Slot) : Prop where
  find : m.shm_find name = some i
  slot : P.procSHM_nameFind name = some r
  named : P.shm_name r ≠ DNE
  aligned : P.shm_vir r % PGSIZE = 0
  maps : P.pgdir.Maps (P.shm_vir r) (m.shm_arr i).shmPhys
  access : 1 ≤ (m.shm_arr i).numAccess
  usable : Usable ((m.shm_arr i).shmPhys / PGSIZE)

/-- The page of slot `r` is out of the process, and those above it are one page lower. -/
structure Removed (m : Memory) (P : Proc) (i r : Slot) (m' : Memory) (P' : Proc) : Prop where
  sz : P'.sz + PGSIZE = P.sz
  below : ∀ vp < P.shm_vir r / PGSIZE, P'.pgdir.entry vp = P.pgdir.entry vp
  above : ∀ vp, P.shm_vir r / PGSIZE ≤ vp → vp + 1 < P.pages →
    (P'.pgdir.entry vp).p = true ∧ (P'.pgdir.entry vp).frame = (P.pgdir.entry (vp + 1)).frame
  once : P'.pgdir.Once
  top : ∀ vp < UPAGES, P'.pages ≤ vp → (P'.pgdir.entry vp).p = false
  slot : P'.shm_name r = DNE
  others : ∀ k ≠ r, P.shm_name k ≠ DNE →
    P'.shm_name k = P.shm_name k ∧ Leads m' P' (P'.shm_name k) (P'.shm_vir k)
  freed : (m.shm_arr i).numAccess = 1 →
    (m.shm_arr i).shmPhys / PGSIZE ∈ m'.freelist ∧ (m'.shm_arr i).name = DNE
  kept : (m.shm_arr i).numAccess ≠ 1 →
    (m'.shm_arr i).numAccess = (m.shm_arr i).numAccess - 1 ∧
      (m'.shm_arr i).shmPhys = (m.shm_arr i).shmPhys ∧ m'.freelist = m.freelist

/-- When that is what happens: others use the region and no page is above; or nobody else does, the
page ends where the process ends, and the word at the user address 0 is odd. -/
def Removable (m : Memory) (P : Proc) (i r : Slot) : Prop :=
  1 < (m.shm_arr i).numAccess ∧ P.LastPage r ∨
    (m.shm_arr i).numAccess = 1 ∧ P.shm_vir r + PGSIZE = P.sz ∧
      ∃ e, m.nullPte P.pgdir = .ok e ∧ e.p = true

section
variable {m m' : Memory} {P P' : Proc} {name : List UInt8} {i r : Slot}

/-! ## Pages -/

/-- The entry of a present page is there. -/
theorem PageDir.pte_of_present {d : PageDir} (h : (d.entry vp).p = true) :
    d.pte (vp * PGSIZE) = some (d.entry vp) := by
  unfold entry at h ⊢
  cases he : d.pte (vp * PGSIZE) with
  | none => rw [he] at h; cases h
  | some e => rfl

theorem page_le (v n : Nat) : v * PGSIZE ≤ (v + n) * PGSIZE :=
  Nat.mul_le_mul_right _ (Nat.le_add_right v n)

theorem page_lt_two_pow (h : v * PGSIZE < KERNBASE) : v < 2 ^ 20 := by
  simp only [PGSIZE, KERNBASE] at h
  omega

theorem page_back (h : (v + 1) * PGSIZE < KERNBASE) : v * PGSIZE < 2 ^ 32 ∧
    ((v + 1) * PGSIZE + (2 ^ 32 - PGSIZE)) % 2 ^ 32 = v * PGSIZE := by
  simp only [PGSIZE, KERNBASE] at *
  omega

theorem page_next (h : (v + 1) * PGSIZE < KERNBASE) :
    ((v + 1) * PGSIZE + PGSIZE) % 2 ^ 32 = (v + 2) * PGSIZE := by
  simp only [PGSIZE, KERNBASE] at *
  omega

/-- `mappages` on a page that is there. -/
theorem mappages_present (hva : va % PGSIZE = 0) (hlt : va < 2 ^ 32) (he : d.pte va = some e)
    (hp : e.p = true) : m.mappages d va PGSIZE pa w u = .error (.panic .remap) := by
  obtain ⟨t, ht, -⟩ := Option.map_eq_some_iff.1 he
  have hw : m.walkpgdir d va = (true, m, d) := by simp only [walkpgdir, ht]
  rw [mappages_one hva hlt]
  simp only [mapLoop, hw, he, Option.any_some, hp, if_true]

/-- The loop of `deallocshm` with a page to move, over pages that are all there: it moves one, or it
panics. -/
theorem remapLoop_middle {d d' : PageDir} (hn : 2 ≤ n) (hsz : sz < KERNBASE)
    (hv : (v + 1) * PGSIZE < sz) (hzero : d.pte (v * PGSIZE) = some .zero)
    (hpages : ∀ vp, v < vp → vp * PGSIZE < sz → (d.entry vp).p = true)
    (h : remapLoop sz n m d ((v + 1) * PGSIZE) = .ok (m', d')) : d' = d.setPte (v * PGSIZE)
      { frame := (d.entry (v + 1)).frame, p := true, w := true, u := true } := by
  obtain ⟨n, rfl⟩ := Nat.exists_eq_add_of_le' hn
  have hlt := hv.trans hsz
  have hp1 := hpages (v + 1) (Nat.lt_succ_self v) hv
  have he1 := pte_of_present hp1
  have hmap : m.mappages d (v * PGSIZE) PGSIZE (d.entry (v + 1)).addr true true = .ok (true, m,
      d.setPte (v * PGSIZE)
        { frame := (d.entry (v + 1)).frame, p := true, w := true, u := true }) := by
    rw [mappages_empty (Nat.mul_mod_left ..) (page_back hlt).1 hzero, Pte.addr,
      Nat.mul_div_cancel _ (by decide)]
  rw [remapLoop, if_pos hv, he1] at h
  obtain ⟨⟨a, e⟩, ha, h⟩ := bind_eq_ok.1 h
  cases ha
  obtain ⟨⟨b, m1, d1⟩, hm, h⟩ := bind_eq_ok.1 h
  rw [(page_back hlt).2, hmap] at hm
  cases hm
  rw [page_next hlt] at h
  dsimp only at h
  by_cases hmore : (v + 2) * PGSIZE < sz
  · -- the page to be mapped is still there
    have hp2 := hpages (v + 2) (by omega) hmore
    have hlt2 := hmore.trans hsz
    rw [remapLoop, if_pos hmore,
      pte_setPte_ne (by omega) (page_lt_two_pow ((page_le v 1).trans_lt hlt))
        (page_lt_two_pow hlt2),
      pte_of_present hp2] at h
    obtain ⟨⟨a, e⟩, ha, h⟩ := bind_eq_ok.1 h
    cases ha
    obtain ⟨⟨b, m2, d2⟩, hm, h⟩ := bind_eq_ok.1 h
    rw [(page_back (v := v + 1) hlt2).2, mappages_present (Nat.mul_mod_left ..) (page_back hlt2).1
      ((pte_setPte_ne (by omega) (page_lt_two_pow ((page_le v 1).trans_lt hlt))
        (page_lt_two_pow hlt)
        _).trans he1) hp1] at hm
    cases hm
  · rw [remapLoop_done hmore] at h
    cases h
    rfl

/-! ## The pages of a process -/

theorem Proc.pages_le (h : P.sz < KERNBASE) : P.pages ≤ UPAGES := by
  simp only [Proc.pages, PGROUNDUP, UPAGES, KERNBASE, PGSIZE] at *
  omega

/-- Which pages are below `sz`. -/
theorem Proc.lt_pages (h : P.sz < KERNBASE) : vp < P.pages ↔ vp * PGSIZE < P.sz := by
  simp only [Proc.pages, PGROUNDUP, KERNBASE, PGSIZE] at *
  omega

/-- The page of the region, with its number. -/
theorem Holding.page (h : Holding m P name i r) (hl : Laid m P) :
    P.shm_vir r = P.shm_vir r / PGSIZE * PGSIZE ∧ P.shm_vir r / PGSIZE < P.pages := by
  obtain ⟨hlt, hp, -⟩ := maps_iff.1 h.maps
  exact ⟨(Nat.div_mul_cancel (Nat.dvd_of_mod_eq_zero h.aligned)).symm,
    (hl.mapped _ (div_lt_UPAGES hlt)).1 hp⟩

/-- The page of the region has an entry. -/
theorem Holding.pte (h : Holding m P name i r) : (P.pgdir.pte (P.shm_vir r)).isSome = true := by
  obtain ⟨-, e, he, -⟩ := h.maps
  rw [he]
  rfl

/-- `LastPage` in pages. -/
theorem Holding.lastPage_iff (h : Holding m P name i r) (hl : Laid m P) (hpg : PGSIZE ≤ P.sz) :
    P.LastPage r ↔ P.shm_vir r / PGSIZE + 1 = P.pages := by
  obtain ⟨hv, hlt⟩ := h.page hl
  have hsz := hl.size
  have hk := h.maps.1
  rw [Proc.lt_pages hsz] at hlt
  simp only [Proc.LastPage, Proc.pages, PGROUNDUP, KERNBASE, PGSIZE] at *
  omega

/-- The page of the region is cleared. -/
theorem without_entry (h : Holding m P name i r) (hvp : vp < UPAGES) :
    (P.without r sz).pgdir.entry vp =
      if vp = P.shm_vir r / PGSIZE then .zero else P.pgdir.entry vp :=
  entry_setPte (h.maps.1.trans (by decide)) (hvp.trans (by decide)) h.pte

/-- The page is the last one and is given up. -/
theorem removed_without (hl : Laid m P) (h : Holding m P name i r) (hpg : PGSIZE ≤ P.sz)
    (hlast : P.shm_vir r / PGSIZE + 1 = P.pages) (hkeep : ∀ j ≠ i, m'.shm_arr j = m.shm_arr j)
    (hfreed : (m.shm_arr i).numAccess = 1 →
      (m.shm_arr i).shmPhys / PGSIZE ∈ m'.freelist ∧ (m'.shm_arr i).name = DNE)
    (hkept : (m.shm_arr i).numAccess ≠ 1 → (m'.shm_arr i).numAccess = (m.shm_arr i).numAccess - 1 ∧
        (m'.shm_arr i).shmPhys = (m.shm_arr i).shmPhys ∧ m'.freelist = m.freelist) :
    Removed m P i r m' (P.without r (P.sz - PGSIZE)) where
  sz := Nat.sub_add_cancel hpg
  below vp hvp := by
    have hle := Proc.pages_le hl.size
    rw [without_entry h (by omega), if_neg (by omega)]
  above vp hge hlt := by omega
  once vp hvp vq hvq hp hq heq := by
    rw [without_entry h hvp] at hp heq
    rw [without_entry h hvq] at hq heq
    split at hp
    · cases hp
    split at hq
    · cases hq
    next h1 h2 =>
    rw [if_neg h1, if_neg h2] at heq
    exact hl.once vp hvp vq hvq hp hq heq
  top vp hvp hge := by
    rw [without_entry h hvp]
    split
    · rfl
    next hne =>
    have hpages : (P.without r (P.sz - PGSIZE)).pages + 1 = P.pages := by
      have hsz := hl.size
      simp only [Proc.pages, Proc.without, PGROUNDUP, KERNBASE, PGSIZE] at *
      omega
    rw [← Bool.not_eq_true, hl.mapped vp hvp]
    omega
  slot := update_self ..
  others k hk hname := by
    have hname' : (P.without r (P.sz - PGSIZE)).shm_name k = P.shm_name k :=
      update_of_ne hk ..
    have hvir' : (P.without r (P.sz - PGSIZE)).shm_vir k = P.shm_vir k := update_of_ne hk ..
    refine ⟨hname', ?_⟩
    rw [hname', hvir']
    obtain ⟨j, hj, hmaps⟩ := hl.slots k hname
    have hpage : P.shm_vir k / PGSIZE ≠ P.shm_vir r / PGSIZE := fun heq =>
      hk (hl.own k r hname h.named heq)
    obtain ⟨hlt, hp, haddr⟩ := maps_iff.1 hmaps
    obtain ⟨hlt0, hp0, haddr0⟩ := maps_iff.1 h.maps
    -- another page is of another region
    have hne : j ≠ i := by
      rintro rfl
      exact hpage (hl.once _ (div_lt_UPAGES hlt) _ (div_lt_UPAGES hlt0) hp hp0
        (mul_PGSIZE_inj (haddr.trans haddr0.symm)))
    refine ⟨j, by rw [hkeep j hne]; exact hj, ?_⟩
    rw [hkeep j hne, maps_iff, without_entry h (div_lt_UPAGES hlt), if_neg hpage]
    exact ⟨hlt, hp, haddr⟩
  freed := hfreed
  kept := hkept

/-! ## `shm_rem` -/

theorem szLess_toNat (P : Proc) : (((P.sz : Int) + -4096) % 2 ^ 32).toNat = P.szLess := by
  simp only [Proc.szLess, PGSIZE]
  omega

/-- `shm_alloc(-4096, r, _)` is `deallocshm`, with the size that it returns. -/
theorem shm_alloc_shrink : m.shm_alloc P (-4096) r shmMap junk = .ok (true, m', P') ↔ ∃ sz P1,
      m.deallocshm P P.sz P.szLess r shmMap = .ok (some sz, m', P1) ∧ P' = { P1 with sz } := by
  unfold shm_alloc
  simp only [show ¬ (-4096 : Int) > 0 by decide, if_false,
    show (-4096 : Int) < 0 by decide, if_true,
    szLess_toNat]
  constructor
  · intro h
    obtain ⟨⟨o, m1, P1⟩, hd, h⟩ := bind_eq_ok.1 h
    cases o with
    | none => cases h
    | some sz =>
      cases h
      exact ⟨sz, P1, hd, rfl⟩
  · rintro ⟨sz, P1, hd, rfl⟩
    exact bind_eq_ok.2 ⟨_, hd, rfl⟩

/-- `shm_rem` returns 1 where `deallocshm` does not fail. -/
theorem Holding.shm_rem_eq (h : Holding m P name i r) :
    m.shm_rem P name = .ok (1, m', P') ↔ ∃ sz m1 P1, m.deallocshm P P.sz P.szLess r
        (if 1 < (m.shm_arr i).numAccess then 0 else (m.shm_arr i).shmPhys) = .ok (some sz, m1, P1) ∧
      P' = { P1 with sz } ∧
      m' = if 1 < (m.shm_arr i).numAccess then m1.addAccess i (-1) else m1.retire i := by
  unfold shm_rem
  rw [h.find, h.slot]
  dsimp only
  by_cases hgt : (m.shm_arr i).numAccess > 1
  · simp only [if_pos hgt]
    constructor
    · intro hrem
      obtain ⟨⟨b, m1, P1⟩, ha, hrem⟩ := bind_eq_ok.1 hrem
      cases b with
      | false => cases hrem
      | true =>
        cases hrem
        obtain ⟨sz, P2, hd, rfl⟩ := shm_alloc_shrink.1 ha
        exact ⟨sz, m1, P2, hd, rfl, rfl⟩
    · rintro ⟨sz, m1, P1, hd, rfl, rfl⟩
      exact bind_eq_ok.2 ⟨_, shm_alloc_shrink.2 ⟨sz, P1, hd, rfl⟩, rfl⟩
  · simp only [if_neg hgt]
    constructor
    · intro hrem
      obtain ⟨⟨b, m1, P1⟩, ha, hrem⟩ := bind_eq_ok.1 hrem
      cases b with
      | false => cases hrem
      | true =>
        cases hrem
        obtain ⟨sz, P2, hd, rfl⟩ := shm_alloc_shrink.1 ha
        exact ⟨sz, m1, P2, hd, rfl, rfl⟩
    · rintro ⟨sz, m1, P1, hd, rfl, rfl⟩
      exact bind_eq_ok.2 ⟨_, shm_alloc_shrink.2 ⟨sz, P1, hd, rfl⟩, rfl⟩

/-- A page that is mapped one page lower as well is mapped twice. -/
theorem not_once_copied {d : PageDir} (hv : v + 1 < UPAGES)
    (hs : (d.pte (v * PGSIZE)).isSome = true) (hp : (d.entry (v + 1)).p = true) :
    ¬ (d.setPte (v * PGSIZE)
      { frame := (d.entry (v + 1)).frame, p := true, w := true, u := true }).Once := by
  intro honce
  have hlt : v * PGSIZE < 2 ^ 32 := by
    simp only [UPAGES, KERNBASE, PGSIZE] at *
    omega
  have hv' : v < UPAGES := (Nat.lt_succ_self v).trans hv
  have h1 := entry_setPte (d := d) hlt (hv'.trans (by decide)) hs
    (e := { frame := (d.entry (v + 1)).frame, p := true, w := true, u := true })
  have h2 := entry_setPte (d := d) hlt (hv.trans (by decide)) hs
    (e := { frame := (d.entry (v + 1)).frame, p := true, w := true, u := true })
  rw [Nat.mul_div_cancel _ (by decide), if_pos rfl] at h1
  rw [Nat.mul_div_cancel _ (by decide), if_neg (Nat.succ_ne_self v)] at h2
  have := honce v hv' (v + 1) hv (by rw [h1]) (by rw [h2]; exact hp) (by rw [h1, h2])
  omega

/-- With a page above it, the page that takes its place is mapped twice, if `mappages` does not
panic. -/
theorem not_once_middle {o : Option Nat} (hl : Laid m P) (h : Holding m P name i r)
    (hpg : PGSIZE ≤ P.sz) (hmid : ¬ P.LastPage r)
    (hd : m.deallocshm P P.sz P.szLess r 0 = .ok (o, m', P')) : ¬ P'.pgdir.Once := by
  obtain ⟨hv, hlt⟩ := h.page hl
  have hsz := hl.size
  have hless := szLess_eq hpg hsz
  have hlast := h.lastPage_iff hl hpg
  have hmore : (P.shm_vir r / PGSIZE + 1) * PGSIZE < P.sz := by
    rw [← Proc.lt_pages hsz]
    rw [hlast] at hmid
    omega
  have hle := Proc.pages_le hsz
  have hu : P.shm_vir r / PGSIZE + 1 < UPAGES := by
    rw [← Proc.lt_pages hsz] at hmore
    omega
  unfold deallocshm at hd
  rw [if_neg (by rw [hless]; simp only [PGSIZE] at *; omega),
    if_neg (by rw [← Option.not_isSome, h.pte]; decide)] at hd
  dsimp only at hd
  rw [if_pos rfl, if_neg (by rw [hless]; simp only [PGSIZE] at *; omega)] at hd
  obtain ⟨⟨m1, d⟩, hloop, hd⟩ := bind_eq_ok.1 hd
  cases hd
  have hstart : (P.shm_vir r + PGSIZE) % 2 ^ 32 = (P.shm_vir r / PGSIZE + 1) * PGSIZE := by
    have := h.maps.1
    simp only [KERNBASE, PGSIZE] at *
    omega
  have hcleared {vp : Nat} (hvp : vp < UPAGES) : (P.without r P.sz).pgdir.entry vp = _ :=
    without_entry h hvp
  have hpte : (P.pgdir.setPte (P.shm_vir r) .zero).pte (P.shm_vir r / PGSIZE * PGSIZE) =
    some .zero := by
    obtain ⟨e, he⟩ := Option.isSome_iff_exists.1 h.pte
    rw [pte_page]
    exact pte_setPte_self he
  rw [hstart] at hloop
  have hd' := remapLoop_middle (by decide) hsz hmore hpte (fun vp hgt hvp => ?_) hloop
  swap
  · rw [← Proc.lt_pages hsz] at hvp
    refine (congrArg Pte.p (hcleared (by omega))).trans ?_
    rw [if_neg (by omega)]
    exact (hl.mapped vp (by omega)).2 hvp
  rw [hd']
  refine not_once_copied hu (by rw [hpte]; rfl) ?_
  refine (congrArg Pte.p (hcleared hu)).trans ?_
  rw [if_neg (by omega)]
  exact (hl.mapped _ hu).2 ((Proc.lt_pages hsz).2 hmore)

/-- `deallocshm` of the last page, for a region that others use. -/
theorem deallocshm_shared (hl : Laid m P) (h : Holding m P name i r) (hlast : P.LastPage r) :
    m.deallocshm P P.sz P.szLess r 0 = .ok (some P.szLess, m, P.without r P.szLess) := by
  have hless := szLess_eq hlast.1 hl.size
  have hlt : ¬ P.szLess ≥ P.sz := by
    have := hlast.1
    simp only [hless, PGSIZE] at *
    omega
  unfold deallocshm
  rw [if_neg hlt, if_neg (by rw [← Option.not_isSome, h.pte]; decide)]
  dsimp only
  rw [if_pos rfl]
  split
  · rfl
  · rw [remapLoop_done hlast.2]
    rfl

/-- `deallocshm` for the last user of a region. -/
theorem deallocshm_sole (hpg : PGSIZE ≤ P.sz) (hl : Laid m P) (h : Holding m P name i r)
    (he : m.nullPte P.pgdir = .ok e) : m.deallocshm P P.sz P.szLess r (m.shm_arr i).shmPhys =
      if e.p = true ∧ P.shm_vir r = P.szLess then do
        let m ← m.kfree (m.shm_arr i).shmPhys
        .ok (some P.szLess, m, P.without r P.sz)
      else .ok (some P.szLess, m, P) := by
  have hless := szLess_eq hpg hl.size
  have hlt : ¬ P.szLess ≥ P.sz := by
    simp only [hless, PGSIZE] at *
    omega
  have hphys : (m.shm_arr i).shmPhys ≠ 0 := by
    intro h0
    have := h.usable
    rw [h0, Nat.zero_div] at this
    exact not_usable_zero this
  unfold deallocshm
  rw [if_neg hlt, if_neg (by rw [← Option.not_isSome, h.pte]; decide)]
  dsimp only
  rw [if_neg hphys, he]
  rfl

/-- The word at the user address 0 can be read. -/
theorem Laid.nullPte (hl : Laid m P) (hpg : PGSIZE ≤ P.sz) : ∃ e, m.nullPte P.pgdir = .ok e := by
  have hp : (P.pgdir.entry 0).p = true := by
    refine (hl.mapped 0 (by decide)).2 ((Proc.lt_pages hl.size).2 ?_)
    simp only [PGSIZE] at *
    omega
  have he := pte_of_present hp
  rw [Nat.zero_mul] at he
  unfold Memory.nullPte
  rw [he]
  dsimp only
  rw [if_pos hp]
  exact ⟨_, rfl⟩

/-- The region has other users. -/
theorem shm_rem_shared (hl : Laid m P) (h : Holding m P name i r) (hpg : PGSIZE ≤ P.sz)
    (hgt : 1 < (m.shm_arr i).numAccess) :
    (∃ m' P', m.shm_rem P name = .ok (1, m', P') ∧ Removed m P i r m' P') ↔ P.LastPage r := by
  constructor
  · rintro ⟨m', P', hrem, hrm⟩
    obtain ⟨sz, m1, P1, hd, rfl, -⟩ := h.shm_rem_eq.1 hrem
    rw [if_pos hgt] at hd
    by_contra hmid
    exact not_once_middle hl h hpg hmid hd hrm.once
  · intro hlast
    have hless := szLess_eq hpg hl.size
    have hd := deallocshm_shared hl h hlast
    have hkeep (j : Slot) (hj : j ≠ i) : (m.addAccess i (-1)).shm_arr j = m.shm_arr j := by
      rw [addAccess_apply, if_neg hj]
    have hentry := addAccess_apply m i i (-1)
    rw [if_pos rfl] at hentry
    refine ⟨m.addAccess i (-1), P.without r (P.sz - PGSIZE), h.shm_rem_eq.2
      ⟨P.sz - PGSIZE, m, P.without r P.szLess, ?_, rfl, (if_pos hgt).symm⟩, ?_⟩
    · rw [if_pos hgt, hd, hless]
    · refine removed_without hl h hpg ((h.lastPage_iff hl hpg).1 hlast)
        hkeep (fun h1 => ?_) fun _ => ?_
      · omega
      · rw [hentry]
        exact ⟨rfl, rfl, rfl⟩

/-- The region has no other user. -/
theorem shm_rem_sole (hl : Laid m P) (h : Holding m P name i r) (hpg : PGSIZE ≤ P.sz)
    (hone : (m.shm_arr i).numAccess = 1) :
    (∃ m' P', m.shm_rem P name = .ok (1, m', P') ∧ Removed m P i r m' P') ↔
      P.shm_vir r + PGSIZE = P.sz ∧ ∃ e, m.nullPte P.pgdir = .ok e ∧ e.p = true := by
  have hless := szLess_eq hpg hl.size
  have hnot : ¬ 1 < (m.shm_arr i).numAccess := by omega
  obtain ⟨e, he⟩ := hl.nullPte hpg
  have hsole := deallocshm_sole hpg hl h he
  have hsize : P.shm_vir r = P.szLess ↔ P.shm_vir r + PGSIZE = P.sz := by
    rw [hless]
    omega
  constructor
  · rintro ⟨m', P', hrem, hrm⟩
    obtain ⟨sz, m1, P1, hd, rfl, -⟩ := h.shm_rem_eq.1 hrem
    rw [if_neg hnot, hsole] at hd
    split at hd
    · next hcond => exact ⟨hsize.1 hcond.2, e, he, hcond.1⟩
    · simp only [Except.ok.injEq, Prod.mk.injEq] at hd
      obtain ⟨-, -, rfl⟩ := hd
      exact absurd hrm.slot h.named
  · rintro ⟨hend, e', he', hp⟩
    rw [he] at he'
    cases he'
    have hphys : (m.shm_arr i).shmPhys = (m.shm_arr i).shmPhys / PGSIZE * PGSIZE := by
      obtain ⟨-, e0, -, -, haddr⟩ := h.maps
      rw [← haddr, Pte.addr, Nat.mul_div_cancel _ (by decide)]
    obtain ⟨m1, hk⟩ := kfree_usable h.usable m
    rw [← hphys] at hk
    obtain ⟨hfree, hshm, -, -⟩ := kfree_ok hk
    have hkeep (j : Slot) (hj : j ≠ i) : (m1.retire i).shm_arr j = m.shm_arr j := by
      rw [retire_apply, if_neg hj, hshm]
    have hlast : P.LastPage r := by
      have := hl.size
      refine ⟨hpg, ?_⟩
      simp only [KERNBASE, PGSIZE] at *
      omega
    refine ⟨m1.retire i, P.without r (P.sz - PGSIZE), h.shm_rem_eq.2
      ⟨P.sz - PGSIZE, m1, P.without r P.sz, ?_, rfl, (if_neg hnot).symm⟩, ?_⟩
    · rw [if_neg hnot, hsole, if_pos ⟨hp, hsize.2 hend⟩, hless]
      exact bind_eq_ok.2 ⟨m1, hk, rfl⟩
    · refine removed_without hl h hpg ((h.lastPage_iff hl hpg).1 hlast) hkeep (fun _ => ?_)
        fun h1 => absurd hone h1
      refine ⟨?_, ?_⟩
      · show _ ∈ m1.freelist
        rw [hfree]
        exact .head _
      · rw [retire_apply, if_pos rfl]

/-- `shm_rem` takes one page out of the process exactly if no other page has to move and, for the
last user of a region, the word at the user address 0 happens to be odd. -/
theorem shm_rem_iff (hl : Laid m P) (h : Holding m P name i r) :
    (∃ m' P', m.shm_rem P name = .ok (1, m', P') ∧ Removed m P i r m' P') ↔ Removable m P i r := by
  by_cases hpg : PGSIZE ≤ P.sz
  · rcases h.access.lt_or_eq with hgt | hone
    · rw [shm_rem_shared hl h hpg hgt, Removable]
      exact ⟨fun hlast => .inl ⟨hgt, hlast⟩, fun hr => hr.elim (·.2) fun hr => absurd hr.1 hgt.ne'⟩
    · rw [shm_rem_sole hl h hpg hone.symm, Removable]
      exact ⟨fun hr => .inr ⟨hone.symm, hr⟩,
        fun hr => hr.elim (fun hr => absurd hone hr.1.ne) (·.2)⟩
  -- the new size wraps around, and nothing is given up
  have hwrap : P.szLess ≥ P.sz := by
    simp only [Proc.szLess, PGSIZE] at *
    omega
  refine iff_of_false ?_ ?_
  · rintro ⟨m', P', hrem, hrm⟩
    obtain ⟨sz, m1, P1, hd, rfl, -⟩ := h.shm_rem_eq.1 hrem
    unfold deallocshm at hd
    rw [if_pos hwrap] at hd
    cases hd
    exact absurd hrm.sz (by simp [PGSIZE])
  · rintro (⟨-, hlast⟩ | ⟨-, hend, -⟩)
    · exact hpg hlast.1
    · exact hpg (hend ▸ Nat.le_add_left _ _)

end

namespace Sharer

theorem entry_apply (hvp : vp < 2 ^ 20) : proc.pgdir.entry vp =
    if vp = 0 then { frame := 1000, p := true, w := true, u := true }
    else if vp = 1 then { frame := 1001, p := true, w := true, u := true }
    else .zero := by
  have hpage (vq : Nat) (hq : vq < 2 ^ 20) (h1 : PDX (vp * PGSIZE) = PDX (vq * PGSIZE))
      (h2 : PTX (vp * PGSIZE) = PTX (vq * PGSIZE)) : vp = vq := page_eq hvp hq h1 h2
  split
  · next h0 =>
    rw [h0]
    rfl
  next h0 =>
  split
  · next h1 =>
    rw [h1]
    rfl
  next h1 =>
  simp only [entry, pte, proc]
  rcases eq_or_ne (PDX (vp * PGSIZE)) 0 with hd | hd
  · have hne0 : PTX (vp * PGSIZE) ≠ 0 := fun ht => h0 (hpage 0 (by decide) hd ht)
    have hne1 : PTX (vp * PGSIZE) ≠ 1 := fun ht => h1 (hpage 1 (by decide) hd ht)
    rw [hd, update_self]
    simp only [Option.map_some, update_of_ne hne1, update_of_ne hne0]
    rfl
  · rw [update_of_ne hd]
    rfl

/-- The pages that are mapped. -/
theorem present (hvp : vp < UPAGES) (hp : (proc.pgdir.entry vp).p = true) :
    vp = 0 ∧ (proc.pgdir.entry vp).frame = 1000 ∨ vp = 1 ∧ (proc.pgdir.entry vp).frame = 1001 := by
  rw [entry_apply (hvp.trans (by decide))] at hp ⊢
  split at hp
  · next h0 =>
    rw [if_pos h0]
    exact .inl ⟨h0, rfl⟩
  next h0 =>
  split at hp
  · next h1 =>
    rw [if_neg h0, if_pos h1]
    exact .inr ⟨h1, rfl⟩
  · cases hp

theorem eq_zero_of_named (hk : proc.shm_name k ≠ DNE) : k = 0 := by
  by_contra hne
  simp only [proc, update_of_ne hne, ne_eq, not_true_eq_false] at hk

theorem laid (c : Int) : Laid (mem.addAccess 0 c) proc where
  size := by decide
  mapped vp hvp := by
    have hpages : proc.pages = 2 := rfl
    rw [hpages]
    refine ⟨fun hp => ?_, fun hlt => ?_⟩
    · rcases present hvp hp with ⟨h, -⟩ | ⟨h, -⟩ <;> omega
    · rw [entry_apply (hvp.trans (by decide))]
      split
      · rfl
      · rw [if_pos (by omega)]
  once vp hvp vq hvq hp hq heq := by
    rcases present hvp hp with ⟨h, hf⟩ | ⟨h, hf⟩
      <;> rcases present hvq hq with ⟨h', hf'⟩ | ⟨h', hf'⟩ <;>
      rw [hf, hf'] at heq <;> first | exact h.trans h'.symm | cases heq
  slots k hk := by
    rw [eq_zero_of_named hk]
    exact ⟨0, rfl, by decide, _, rfl, rfl, rfl⟩
  own k l hk hl _ := (eq_zero_of_named hk).trans (eq_zero_of_named hl).symm

theorem addAccess_name (c : Int) (j : Slot) :
    ((mem.addAccess 0 c).shm_arr j).name = (mem.shm_arr j).name ∧
      ((mem.addAccess 0 c).shm_arr j).shmPhys = (mem.shm_arr j).shmPhys :=
  sameRegions_addAccess mem 0 c j

theorem holding (hc : 0 ≤ c) : Holding (mem.addAccess 0 c) proc [97] 0 0 := by
  have hphys := (addAccess_name c 0).2
  have hacc : ((mem.addAccess 0 c).shm_arr 0).numAccess =
    1 + c := by rw [addAccess_apply, if_pos rfl]; rfl
  refine ⟨?_, by decide +kernel, by decide, by decide, ?_, ?_, ?_⟩
  · have hfind : mem.shm_find [97] = some 0 := by decide +kernel
    simp only [shm_find, addAccess_name]
    exact hfind
  · rw [hphys]
    exact ⟨by decide, _, rfl, rfl, rfl⟩
  · rw [hacc]
    omega
  · rw [hphys]
    exact show Usable 1001 from ⟨by decide, by decide⟩

/-- `shm_rem_iff` for the last page of a process, of a region that another process uses too. -/
theorem shm_rem_iff_shared : ∃ m' P', (mem.addAccess 0 1).shm_rem proc [97] = .ok (1, m', P') ∧
    Removed (mem.addAccess 0 1) proc 0 0 m' P' :=
  (shm_rem_iff (laid 1) (holding (by decide))).2 (.inl ⟨by decide, by decide⟩)

/-- Its only user keeps the page and the slot, while the entry in `shm_arr` is given up. -/
theorem shm_rem_keeps : Laid (mem.addAccess 0 0) proc ∧ Holding (mem.addAccess 0 0) proc [97] 0 0 ∧
    ∃ m' P', (mem.addAccess 0 0).shm_rem proc [97] = .ok (1, m', P') ∧ P'.shm_name 0 = [97] ∧
      P'.pgdir.Maps PGSIZE (1001 * PGSIZE) ∧ (m'.shm_arr 0).name = DNE ∧
      ¬ Removed (mem.addAccess 0 0) proc 0 0 m' P' := by
  have hrun : (match (mem.addAccess 0 0).shm_rem proc [97] with
      | .ok (r, m', P') => decide (r = 1 ∧ P'.shm_name 0 = [97] ∧ (m'.shm_arr 0).name = DNE ∧
          P'.pgdir.pte PGSIZE = some { frame := 1001, p := true, w := true, u := true })
      | .error _ => false) = true := by decide +kernel
  refine ⟨laid 0, holding le_rfl, ?_⟩
  split at hrun
  · next r m' P' heq =>
    obtain ⟨rfl, hname, hentry, hpage⟩ := of_decide_eq_true hrun
    refine ⟨m', P', heq, hname, ?_, hentry, fun hrm => ?_⟩
    · exact ⟨by decide, _, hpage, rfl, rfl⟩
    · rw [hrm.slot] at hname
      cases hname
  · cases hrun

end Sharer

end Msboss.Vm
