import Msboss.Vm.Attach

/-!
# Regions come and go

`shm_get` and `shm_rem` keep the ledger (`Ledger.got`, `Ledger.gave`). A region begins with a frame
from the free list, which nobody else uses, and ends when its count says that one page at most maps
its frame.
-/

namespace Msboss.Vm

open Function PageDir Finset

/-! ## Names -/

section
variable {m : Memory} {P : Proc} {name : List UInt8} {i : Slot}

/-- What `shm_find` finds has the name. -/
theorem shm_find_some (h : m.shm_find name = some i) :
    (m.shm_arr i).name.take 16 = name.take 16 := by
  have := List.find?_some h
  simpa [strncmp] using this

/-- The reserved name is refused. -/
theorem take_ne_of_not_refused (h : refused name length = false) : name.take 16 ≠ DNE := by
  intro hn
  have h4 : name.take 4 = DNE := by
    have := congrArg (List.take 4) hn
    rwa [List.take_take] at this
  have : strncmp name DNE 4 = true := by rw [strncmp, h4]; rfl
  simp [refused, this] at h

/-- So an entry that is found is in use. -/
theorem named_of_shm_find (hr : refused name length = false)
    (h : m.shm_find name = some i) : (m.shm_arr i).Named := fun hn => by
  have := shm_find_some h
  rw [hn] at this
  exact take_ne_of_not_refused hr this.symm

theorem eq_DNE_of_take (h : l.take 16 = DNE) : l = DNE := by
  have hlen := congrArg List.length h
  rw [List.length_take] at hlen
  have h3 : DNE.length = 3 := rfl
  rw [List.take_of_length_le (by omega)] at h
  exact h

/-- `shm_findFree` finds an entry not in use. -/
theorem not_named_of_findFree (h : m.shm_findFree = some i) : ¬ (m.shm_arr i).Named :=
  not_not.2 (eq_DNE_of_take (shm_find_some h))

end

/-! ## Entries of `shm_arr` -/

section
variable {m : Memory} {i j : Slot} {name : List UInt8} {f g : Frame}

/-- The table after an entry is made. -/
theorem enrol_apply (m : Memory) (i j : Slot) (name : List UInt8) (phys : Nat) :
    (m.enrol i name phys).shm_arr j =
      if j = i then { name, numAccess := (m.shm_arr i).numAccess + 1, shmPhys := phys }
      else m.shm_arr j :=
  update_apply ..

/-- The table after an entry is cleared. -/
theorem retire_apply (m : Memory) (i j : Slot) : (m.retire i).shm_arr j =
      if j = i then { name := DNE, numAccess := 0, shmPhys := 0 } else m.shm_arr j :=
  update_apply ..

theorem mul_PGSIZE_inj (h : f * PGSIZE = g * PGSIZE) : f = g :=
  Nat.eq_of_mul_eq_mul_right (by decide) h

/-- A new region is one more region. -/
theorem region_enrol (ht : m.Tidy) (hi : ¬ (m.shm_arr i).Named) (hf : 0 < f) :
    (m.enrol i n (f * PGSIZE)).Region g ↔ m.Region g ∨ g = f := by
  constructor
  · rintro ⟨hg, j, hj⟩
    rw [enrol_apply] at hj
    split at hj
    · exact .inr (mul_PGSIZE_inj hj).symm
    · exact .inl ⟨hg, j, hj⟩
  · rintro (⟨hg, j, hj⟩ | rfl)
    · refine ⟨hg, j, ?_⟩
      rw [enrol_apply, if_neg]
      · exact hj
      · rintro rfl
        exact hi (ht.named_of_region hg hj)
    · exact ⟨hf, i, by rw [enrol_apply, if_pos rfl]⟩

/-- The new entry is in use, with those that were. -/
theorem named_enrol (hn : name ≠ DNE) (j : Slot) :
    ((m.enrol i name phys).shm_arr j).Named ↔ j = i ∨ (m.shm_arr j).Named := by
  rw [enrol_apply]
  split
  · next h => exact ⟨fun _ => .inl h, fun _ => hn⟩
  · next h => exact ⟨.inr, fun h' => h'.resolve_left h⟩

/-- `used` counts the new entry. -/
theorem used_enrol (hu : m.used = (univ.filter fun i => (m.shm_arr i).Named).card)
    (hi : ¬ (m.shm_arr i).Named) (hn : name ≠ DNE) : (m.enrol i name phys).used =
      (univ.filter fun j => ((m.enrol i name phys).shm_arr j).Named).card := by
  simp only [named_enrol hn, filter_or, filter_eq', mem_univ, if_true]
  rw [← insert_eq, card_insert_of_notMem (by simpa using hi)]
  have hu' : (m.enrol i name phys).used = m.used + 1 := rfl
  rw [hu', hu]
  push_cast
  rfl

/-- A new entry keeps the table tidy. -/
theorem tidy_enrol (ht : m.Tidy) (hi : ¬ (m.shm_arr i).Named) (hf : 0 < f) (hr : ¬ m.Region f)
    (hn : name ≠ DNE) : (m.enrol i name (f * PGSIZE)).Tidy := by
  refine ⟨fun j hj => ?_, fun j hj => ?_, fun j k hjk h0 => ?_, used_enrol ht.used hi hn⟩
  · rw [named_enrol hn, not_or] at hj
    rw [enrol_apply, if_neg hj.1]
    exact ht.unused j hj.2
  · rw [enrol_apply]
    split
    · exact ⟨f, hf, rfl⟩
    · next h => exact ht.placed j (((named_enrol hn j).1 hj).resolve_left h)
  · rw [enrol_apply] at hjk h0
    rw [enrol_apply] at hjk
    split at hjk
    · next hj =>
      split at hjk
      · next hk => rw [hj, hk]
      · exact absurd ⟨hf, k, hjk.symm⟩ hr
    next hj =>
    rw [if_neg hj] at h0
    split at hjk
    · exact absurd ⟨hf, j, hjk⟩ hr
    · exact ht.distinct j k hjk h0

/-- A name that was not found is entered. -/
theorem names_enrol (h : m.NamesDiffer) (hnone : m.shm_find name = none)
    (hn : strncpy name 16 ≠ DNE) : (m.enrol i (strncpy name 16) phys).NamesDiffer := by
  have hnew (j : Slot) : (m.shm_arr j).name.take 16 ≠ name.take 16 := by
    simpa [strncmp] using List.find?_eq_none.1 hnone j (List.mem_finRange j)
  have htake : (strncpy name 16).take 16 = name.take 16 := by simp [strncpy]
  intro j k hj hk hcmp
  rw [named_enrol hn] at hj hk
  simp only [enrol_apply, strncmp, beq_iff_eq] at hcmp
  split at hcmp
  · next hji =>
    split at hcmp
    · next hki => rw [hji, hki]
    · exact absurd (hcmp.symm.trans htake) (hnew k)
  next hji =>
  split at hcmp
  · exact absurd (hcmp.trans htake) (hnew j)
  · next hki =>
    exact h j k (hj.resolve_left hji) (hk.resolve_left hki) (by simpa [strncmp] using hcmp)

/-- A region less. -/
theorem region_retire (hd : m.Distinct) (hf : 0 < f) (hi : (m.shm_arr i).shmPhys = f * PGSIZE) :
    (m.retire i).Region g ↔ m.Region g ∧ g ≠ f := by
  constructor
  · rintro ⟨hg, j, hj⟩
    rw [retire_apply] at hj
    split at hj
    · exact absurd hj.symm (Nat.mul_pos hg (by decide)).ne'
    · next h =>
      refine ⟨⟨hg, j, hj⟩, ?_⟩
      rintro rfl
      exact h (hd j i (hj.trans hi.symm) (by rw [hj]; exact (Nat.mul_pos hg (by decide)).ne'))
  · rintro ⟨⟨hg, j, hj⟩, hne⟩
    refine ⟨hg, j, ?_⟩
    rw [retire_apply, if_neg]
    · exact hj
    · rintro rfl
      exact hne (mul_PGSIZE_inj (hj.symm.trans hi))

/-- The others are still in use. -/
theorem named_retire (j : Slot) : ((m.retire i).shm_arr j).Named ↔ (m.shm_arr j).Named ∧ j ≠ i := by
  rw [retire_apply]
  split
  · next h => exact ⟨fun hn => absurd rfl hn, fun h' => absurd h h'.2⟩
  · next h => exact ⟨fun hn => ⟨hn, h⟩, And.left⟩

/-- `used` no longer counts the entry. -/
theorem used_retire (hu : m.used = (univ.filter fun i => (m.shm_arr i).Named).card)
    (hi : (m.shm_arr i).Named) :
    (m.retire i).used = (univ.filter fun j => ((m.retire i).shm_arr j).Named).card := by
  have hmem : i ∈ univ.filter fun j => (m.shm_arr j).Named := by simpa using hi
  have hset : (univ.filter fun j => ((m.retire i).shm_arr j).Named) =
      (univ.filter fun j => (m.shm_arr j).Named).erase i := by
    ext j
    simp only [named_retire, mem_filter, mem_univ, true_and, mem_erase]
    exact and_comm
  have hpos := card_pos.2 ⟨i, hmem⟩
  have hu' : (m.retire i).used = m.used - 1 := rfl
  rw [hset, card_erase_of_mem hmem, hu', hu]
  omega

/-- Clearing an entry keeps the table tidy. -/
theorem tidy_retire (ht : m.Tidy) (hi : (m.shm_arr i).Named) : (m.retire i).Tidy := by
  refine ⟨fun j hj => ?_, fun j hj => ?_, fun j k hjk h0 => ?_, used_retire ht.used hi⟩
  · rw [named_retire] at hj
    rw [retire_apply]
    split
    · exact ⟨rfl, rfl⟩
    · next h => exact ht.unused j fun hn => hj ⟨hn, h⟩
  · rw [retire_apply, if_neg ((named_retire j).1 hj).2]
    exact ht.placed j ((named_retire j).1 hj).1
  · rw [retire_apply] at hjk h0
    rw [retire_apply] at hjk
    split at hjk
    · next hj => rw [if_pos hj] at h0; exact absurd rfl h0
    next hj =>
    rw [if_neg hj] at h0
    split at hjk
    · exact absurd hjk h0
    · exact ht.distinct j k hjk h0

/-- And the names distinct. -/
theorem names_retire (h : m.NamesDiffer) : (m.retire i).NamesDiffer := by
  intro j k hj hk hcmp
  obtain ⟨hj, hji⟩ := (named_retire j).1 hj
  obtain ⟨hk, hki⟩ := (named_retire k).1 hk
  rw [retire_apply, retire_apply, if_neg hji, if_neg hki] at hcmp
  exact h j k hj hk hcmp

end

/-! ## The ledger -/

section
variable {s : State} {p : Pid} {P P' : Proc} {m' : Memory} {name : List UInt8} {junk : Nat}

/-- The sizes of the processes after one has changed. -/
theorem size_set (hl : Ledger s) (hsz : P'.sz < KERNBASE)
    (hQ : (s.set m' p (some P')).proc q = some Q) : Q.sz < KERNBASE := by
  rcases eq_or_ne q p with rfl | hq
  · simp only [State.set, update_self] at hQ
    cases hQ
    exact hsz
  · simp only [State.set, update_of_ne hq] at hQ
    exact hl.size hQ

/-- A region begins: its frame was on the free list, and the new page is all that maps it. -/
theorem Ledger.enrol (hl : Ledger s) (hP : s.proc p = some P)
    {m2 : Memory} (hi : ¬ (s.mem.shm_arr i).Named) (hn : strncpy name 16 ≠ DNE)
    (hnone : s.mem.shm_find name = none)
    (hfree : 0 < s.mem.freelist.count f) (hs : m2.shm_arr = s.mem.shm_arr)
    (hu : m2.used = s.mem.used) (hk : P'.kstack = P.kstack)
    (htables : ∀ g, m2.freelist.count g + P'.pgdir.tables g + (if f = g then 1 else 0) =
      s.mem.freelist.count g + P.pgdir.tables g)
    (huser : ∀ g, P'.pgdir.user g = P.pgdir.user g + if c = true ∧ f = g then 1 else 0)
    (hsz : P'.sz < KERNBASE) :
    Ledger (s.set (m2.enrol i (strncpy name 16) (f * PGSIZE)) p (some P')) := by
  have hR2 : SameRegions s.mem m2 := .of_eq hs
  have ht2 : m2.Tidy := hl.tidy.same hR2 hu fun i _ => by rw [hs]
  have hi2 : ¬ (m2.shm_arr i).Named := by rwa [hs]
  have hle : s.mem.freelist.count f ≤ s.kernel f :=
    (Nat.le_add_right _ _).trans (s.own_le_kernel hP f)
  have hnr : ¬ s.mem.Region f := fun h => by
    have := hl.shared f h
    omega
  have hf : 0 < f := by
    rcases Nat.eq_zero_or_pos f with rfl | h
    · have := hl.zero
      omega
    · exact h
  have honce := hl.once f hnr
  have hregion (g : Frame) := region_enrol (n := strncpy name 16) (g := g) ht2 hi2 hf
  simp only [hR2.region] at hregion
  have hkernel (g : Frame) := s.kernel_set (m2.enrol i (strncpy name 16) (f * PGSIZE)) p (some P') g
  have hmapped (g : Frame) := s.mapped_set (m2.enrol i (strncpy name 16) (f * PGSIZE)) p (some P') g
  simp only [slot_of_eq hP, slot_some, Proc.own, hk] at hkernel hmapped
  have hfl : (m2.enrol i (strncpy name 16) (f * PGSIZE)).freelist = m2.freelist := rfl
  rw [hfl] at hkernel
  have hother (g : Frame) (hg : g ≠ f) :
      (s.set (m2.enrol i (strncpy name 16) (f * PGSIZE)) p (some P')).kernel g = s.kernel g ∧
        (s.set (m2.enrol i (strncpy name 16) (f * PGSIZE)) p (some P')).mapped g = s.mapped g := by
    have h1 := hkernel g
    have h2 := hmapped g
    have h3 := htables g
    have h4 := huser g
    rw [if_neg hg.symm] at h3
    rw [if_neg fun h => hg h.2.symm] at h4
    omega
  have hnone2 : m2.shm_find name = none := by rwa [Memory.shm_find, hs]
  refine ⟨tidy_enrol ht2 hi2 hf (mt hR2.region.1 hnr) hn,
    names_enrol (hl.names.same hR2) hnone2 hn, fun g hg => ?_, fun g hg => ?_, ?_,
    fun {j g} hg hj => ?_, size_set hl hsz⟩
  · have hg := mt (hregion g).2 hg
    rw [not_or] at hg
    rw [(hother g hg.2).1, (hother g hg.2).2]
    exact hl.once g hg.1
  · by_cases hgf : g = f
    · subst hgf
      have h1 := hkernel g
      have h3 := htables g
      rw [if_pos rfl] at h3
      omega
    · rw [(hother g hgf).1]
      exact hl.shared g (((hregion g).1 hg).resolve_right hgf)
  · rw [(hother 0 hf.ne).1, (hother 0 hf.ne).2]
    exact hl.zero
  · have hmem : (s.set (m2.enrol i (strncpy name 16) (f * PGSIZE)) p (some P')).mem =
      m2.enrol i (strncpy name 16) (f * PGSIZE) := rfl
    rw [hmem] at hj ⊢
    rw [enrol_apply] at hj ⊢
    by_cases hji : j = i
    · rw [if_pos hji] at hj
      have hgf : g = f := (mul_PGSIZE_inj hj).symm
      subst hgf
      have h2 := hmapped g
      have h4 := huser g
      have h5 := (ht2.unused i hi2).2
      rw [if_pos hji, h5]
      simp only
      split at h4 <;> omega
    · rw [if_neg hji] at hj ⊢
      rw [hs] at hj ⊢
      have hgf : g ≠ f := by
        rintro rfl
        exact hnr ⟨hf, j, hj⟩
      rw [(hother g hgf).2]
      exact hl.access hg hj

/-- A region ends, when one access at most is counted: its frame then has one use at most. -/
theorem Ledger.retire (hl : Ledger s) (hP : s.proc p = some P) {i : Slot} {f : Frame}
    {m1 : Memory} (hf : 0 < f) (hi : (s.mem.shm_arr i).shmPhys = f * PGSIZE)
    (hle : (s.mem.shm_arr i).numAccess ≤ 1) (hs : m1.shm_arr = s.mem.shm_arr)
    (hu : m1.used = s.mem.used) (hk : P'.kstack = P.kstack)
    (hother : ∀ g ≠ f, m1.freelist.count g + P'.pgdir.tables g =
      s.mem.freelist.count g + P.pgdir.tables g ∧ P'.pgdir.user g = P.pgdir.user g)
    (htotal : m1.freelist.count f + P'.pgdir.tables f + P'.pgdir.user f ≤
      s.mem.freelist.count f + P.pgdir.tables f + P.pgdir.user f)
    (hsz : P'.sz < KERNBASE) : Ledger (s.set (m1.retire i) p (some P')) := by
  have hR1 : SameRegions s.mem m1 := .of_eq hs
  have ht1 : m1.Tidy := hl.tidy.same hR1 hu fun i _ => by rw [hs]
  have hi1 : (m1.shm_arr i).shmPhys = f * PGSIZE := by rw [hs]; exact hi
  have hregion (g : Frame) := region_retire (g := g) ht1.distinct hf hi1
  simp only [hR1.region] at hregion
  have hkernel (g : Frame) := s.kernel_set (m1.retire i) p (some P') g
  have hmapped (g : Frame) := s.mapped_set (m1.retire i) p (some P') g
  simp only [slot_of_eq hP, slot_some, Proc.own, hk] at hkernel hmapped
  have hfl : (m1.retire i).freelist = m1.freelist := rfl
  rw [hfl] at hkernel
  have hsame (g : Frame) (hg : g ≠ f) :
      (s.set (m1.retire i) p (some P')).kernel g = s.kernel g ∧
        (s.set (m1.retire i) p (some P')).mapped g = s.mapped g := by
    have h1 := hkernel g
    have h2 := hmapped g
    have h3 := hother g hg
    omega
  refine ⟨tidy_retire ht1 (ht1.named_of_region hf hi1), names_retire (hl.names.same hR1),
    fun g hg => ?_, fun g hg => ?_, ?_,
    fun {j g} hg hj => ?_, size_set hl hsz⟩
  · by_cases hgf : g = f
    · subst hgf
      have h1 := hkernel g
      have h2 := hmapped g
      have h3 := hl.shared g ⟨hf, i, hi⟩
      have h4 := hl.access hf hi
      omega
    · rw [(hsame g hgf).1, (hsame g hgf).2]
      exact hl.once g fun hr => hg ((hregion g).2 ⟨hr, hgf⟩)
  · have hg := (hregion g).1 hg
    rw [(hsame g hg.2).1]
    exact hl.shared g hg.1
  · rw [(hsame 0 hf.ne).1, (hsame 0 hf.ne).2]
    exact hl.zero
  · have hmem : (s.set (m1.retire i) p (some P')).mem = m1.retire i := rfl
    rw [hmem] at hj ⊢
    rw [retire_apply] at hj ⊢
    by_cases hji : j = i
    · rw [if_pos hji] at hj
      exact absurd hj.symm (Nat.mul_pos hg (by decide)).ne'
    rw [if_neg hji] at hj ⊢
    have hgf : g ≠ f := by
      rintro rfl
      exact hji (ht1.distinct j i (hj.trans hi1.symm)
        (by rw [hj]; exact (Nat.mul_pos hg (by decide)).ne'))
    rw [(hsame g hgf).2, hs]
    rw [hs] at hj
    exact hl.access hg hj

/-- The region found under a name that is not refused has a frame. -/
theorem Ledger.found (hl : Ledger s) (hr : refused name length = false)
    (hi : s.mem.shm_find name = some i) : ∃ f, 0 < f ∧ (s.mem.shm_arr i).shmPhys = f * PGSIZE :=
  hl.tidy.placed i (named_of_shm_find hr hi)

/-- A region that is found has an address. -/
theorem Ledger.found_ne_zero (hl : Ledger s) (hr : refused name length = false)
    (i : Slot) (hi : s.mem.shm_find name = some i) : (s.mem.shm_arr i).shmPhys ≠ 0 := by
  obtain ⟨f, hf, hphys⟩ := hl.found hr hi
  rw [hphys]
  exact (Nat.mul_pos hf (by decide)).ne'

/-- Attaching to a region moves no frame and counts what it maps. -/
theorem shift_attach (hP : s.proc p = some P) (hk : P'.kstack = P.kstack) {i : Slot} {f : Frame}
    {c : Bool} {m2 : Memory} {a : Nat} (ht : s.mem.Tidy) (hf : 0 < f)
    (hi : (s.mem.shm_arr i).shmPhys = f * PGSIZE) (ha : a % PGSIZE = 0) (hlt : a < KERNBASE)
    (hmap : s.mem.mappages P.pgdir a PGSIZE (f * PGSIZE) true true = .ok (c, m2, P'.pgdir))
    (hsz : P'.sz < KERNBASE) : Shift s (s.set (m2.addAccess i 1) p (some P')) := by
  obtain ⟨d1, hW, -, -⟩ := mappages_page ha (hlt.trans (by decide)) hmap
  have hfr : f * PGSIZE / PGSIZE = f := Nat.mul_div_cancel _ (by decide)
  have hcount (g : Frame) := mappages_user ha hlt hmap g
  rw [hfr] at hcount
  have hfl : (m2.addAccess i 1).freelist = m2.freelist := rfl
  have hR2 : SameRegions s.mem m2 := .of_eq hW.shm_arr
  have hi2 : (m2.shm_arr i).shmPhys = f * PGSIZE := by rw [hW.shm_arr]; exact hi
  refine shift_set hP hk (fun g hg => ?_) (fun g _ => ?_) hW.used
    (hR2.trans (sameRegions_addAccess m2 i 1)) (fun j hj => ?_) (fun {j g} hg hj => ?_)
    fun _ => hsz
  · obtain ⟨h1, h2⟩ := hcount g
    have hne : ¬ (c = true ∧ f = g) := fun h => hg (h.2 ▸ ⟨hf, i, hi⟩)
    rw [if_neg hne] at h2
    rw [hfl]
    omega
  · rw [hfl, (hcount g).1]
  · rw [addAccess_apply, if_neg, hW.shm_arr]
    rintro rfl
    exact (Nat.mul_pos hf (by decide)).ne' (hi.symm.trans hj)
  · have h2 := (hcount g).2
    rw [(hR2.distinct ht.distinct).numAccess_addAccess hi2 (by rw [hW.shm_arr]; exact hj) hg,
      hW.shm_arr]
    by_cases hfg : f = g
    · rw [if_pos hfg]
      split at h2 <;> omega
    · rw [if_neg fun h => hfg h.2] at h2
      rw [if_neg hfg]
      omega

/-- Giving up a page maps nothing more. -/
theorem shift_clear (hP : s.proc p = some P) (hk : P'.kstack = P.kstack)
    (hs : (P.pgdir.pte a).isSome = true) (hd : P'.pgdir = P.pgdir.setPte a .zero)
    (hfl : m'.freelist = s.mem.freelist) (hu : m'.used = s.mem.used)
    (hshm : m'.shm_arr = s.mem.shm_arr) (hsz : P'.sz ≤ P.sz) : Shift s (s.set m' p (some P')) := by
  obtain ⟨e, he⟩ := Option.isSome_iff_exists.1 hs
  have hle (f : Frame) := user_clear_le he f
  have ht := tables_setPte P.pgdir a .zero
  rw [← hd] at hle ht
  refine shift_set hP hk (fun f _ => ?_) (fun f _ => ?_) hu (.of_eq hshm) (fun i _ => by rw [hshm])
    (fun {i f} _ _ => ?_) fun h => hsz.trans_lt h
  · rw [hfl, ht]
    exact Nat.add_le_add_left (hle f) _
  · rw [hfl, ht]
  · rw [hshm]
    have := hle f
    omega

/-- `shm_get` keeps the ledger, as long as there is memory or no page to move. -/
theorem Ledger.got (hl : Ledger s) (hP : s.proc p = some P) (hr : refused name length = false)
    (hlast : s.mem.shm_find name = none → s.mem.freelist = [] → P.LastPage 0)
    (h : Got s.mem P name junk va m' P') : Ledger (s.set m' p (some P')) := by
  have hsz := hl.size hP
  have hsame : Shift s (s.set s.mem p (some P)) :=
    shift_set hP rfl (fun _ _ => le_rfl) (fun _ _ => le_rfl) rfl (.refl _) (fun _ _ => rfl)
      (fun _ _ => le_rfl) id
  cases h with
  | known _ => exact hl.shift hsame
  | failed => exact hl.shift hsame
  | starved hfind hfree hd =>
    have hlp := hlast hfind hfree
    rcases deallocshm_lastPage (by simp only [PGSIZE]; omega) hsz hlp hd with
      ⟨-, rfl, rfl⟩ | ⟨-, rfl, hs, rfl⟩
    · exact hl.shift (shift_set hP rfl (fun _ _ => le_rfl) (fun _ _ => le_rfl) rfl (.refl _)
        (fun _ _ => rfl) (fun _ _ => le_rfl) id)
    · refine hl.shift (shift_clear hP (P.without_kstack 0 _) hs (P.without_pgdir 0 _) rfl rfl rfl
        (by rw [P.without_sz]; exact Nat.sub_le _ _))
  | @created ref i f m1 m2 c d hname href hfind hlt hk hmap hi =>
    have ha := PGROUNDUP_mod P.sz
    have halt := (PGROUNDUP_lt hlt).trans hlt
    obtain ⟨hfl, hm⟩ := kalloc_some hk
    obtain ⟨d1, hW, -, -⟩ := mappages_page ha (halt.trans (by decide)) hmap
    have hfr : f * PGSIZE / PGSIZE = f := Nat.mul_div_cancel _ (by decide)
    have hs : m2.shm_arr = s.mem.shm_arr := hW.shm_arr.trans (by rw [hm]; rfl)
    have hcount (g : Frame) := mappages_user ha halt hmap g
    rw [hfr] at hcount
    have hi' := not_named_of_findFree hi
    rw [hs] at hi'
    refine hl.enrol hP hi' (take_ne_of_not_refused hr) hfind (by rw [hfl]; simp) hs
      (hW.used.trans (by rw [hm]; rfl)) rfl (fun g => ?_) (fun g => (hcount g).2) hlt
    have h1 := (hcount g).1
    have h2 := kalloc_count hk g
    have h3 : (m1.fill f 0).freelist = m1.freelist := rfl
    have h4 : ((P.within ref d (f * PGSIZE)).setName ref (safestrcpy name 16)).pgdir = d := rfl
    rw [h3] at h1
    rw [h4]
    omega
  | @attached ref i m2 c d hname href hfind hlt hmap =>
    obtain ⟨f, hf, hphys⟩ := hl.found hr hfind
    have halt := (PGROUNDUP_lt hlt).trans hlt
    rw [hphys] at hmap
    refine hl.shift ?_
    exact shift_attach hP (by rfl) hl.tidy hf hphys (PGROUNDUP_mod _) halt hmap hlt

/-- The directory maps the page at the user address `va` to the address `pa`. -/
def PageDir.Maps (d : PageDir) (va pa : Nat) : Prop :=
  va < KERNBASE ∧ ∃ e, d.pte va = some e ∧ e.p = true ∧ e.addr = pa

/-- Clearing a page of a region. -/
theorem user_clear {d : PageDir} {a : Nat} {f : Frame} (h : d.Maps a (f * PGSIZE)) (g : Frame) :
    (d.setPte a .zero).user g + (if f = g then 1 else 0) = d.user g := by
  obtain ⟨ha, e, he, hp, haddr⟩ := h
  have hf : e.frame = f := mul_PGSIZE_inj haddr
  have := user_setPte (e := .zero) ha (by rw [he]; rfl) g
  rw [entry_of_pte he] at this
  simpa [Pte.count, hp, hf, Pte.zero] using this

/-- `shm_rem` of one access of several. -/
theorem shift_release (hP : s.proc p = some P) (ht : s.mem.Tidy) {i ref : Slot} {f : Frame}
    {sz : Nat} (hf : 0 < f) (hphys : (s.mem.shm_arr i).shmPhys = f * PGSIZE)
    (hmaps : P.pgdir.Maps (P.shm_vir ref) (f * PGSIZE)) (hsz : sz ≤ P.sz) :
    Shift s (s.set (s.mem.addAccess i (-1)) p (some (P.without ref sz))) := by
  have hcl (g : Frame) := user_clear hmaps g
  have htab := tables_setPte P.pgdir (P.shm_vir ref) .zero
  have hfl : (s.mem.addAccess i (-1)).freelist = s.mem.freelist := rfl
  refine shift_set hP (P.without_kstack ref _) (fun g _ => ?_) (fun g _ => ?_) rfl
    (sameRegions_addAccess _ _ _) (fun j hj => ?_) (fun {j g} hg hj => ?_)
    fun h => hsz.trans_lt h
  · have := hcl g
    rw [P.without_pgdir, htab, hfl]
    omega
  · rw [P.without_pgdir, htab, hfl]
  · rw [addAccess_apply, if_neg]
    rintro rfl
    exact (Nat.mul_pos hf (by decide)).ne' (hphys.symm.trans hj)
  · have := hcl g
    rw [ht.distinct.numAccess_addAccess hphys hj hg, P.without_pgdir]
    by_cases hfg : f = g
    · rw [if_pos hfg] at this ⊢
      omega
    · rw [if_neg hfg] at this ⊢
      omega

/-- `shm_rem` of the last access, with the frame freed. -/
theorem Ledger.free (hl : Ledger s) (hP : s.proc p = some P) {i ref : Slot} {f : Frame}
    {m1 : Memory} {sz : Nat} (hf : 0 < f) (hphys : (s.mem.shm_arr i).shmPhys = f * PGSIZE)
    (hmaps : P.pgdir.Maps (P.shm_vir ref) (f * PGSIZE))
    (hle : (s.mem.shm_arr i).numAccess ≤ 1) (hk : s.mem.kfree (f * PGSIZE) = .ok m1)
    (hsz : sz ≤ P.sz) : Ledger (s.set (m1.retire i) p (some (P.without ref sz))) := by
  have hcl (g : Frame) := user_clear hmaps g
  have htab := tables_setPte P.pgdir (P.shm_vir ref) .zero
  obtain ⟨hfl, hs, hu, -⟩ := kfree_ok hk
  rw [Nat.mul_div_cancel f (by decide)] at hfl
  refine hl.retire hP hf hphys hle hs hu (P.without_kstack ref _) (fun g hg => ?_) ?_
    (hsz.trans_lt (hl.size hP))
  · have := hcl g
    rw [if_neg hg.symm, Nat.add_zero] at this
    rw [hfl, List.count_cons_of_ne hg.symm, P.without_pgdir, htab]
    exact ⟨rfl, this⟩
  · have := hcl f
    rw [if_pos rfl] at this
    rw [hfl, List.count_cons_self, P.without_pgdir, htab]
    omega

/-- `shm_rem` keeps the ledger, as long as the page it clears is one of the region's. -/
theorem Ledger.gave (hl : Ledger s) (hP : s.proc p = some P) {length : Int}
    (hr : refused name length = false)
    (hmaps : ∀ i ref, s.mem.shm_find name = some i → P.procSHM_nameFind name = some ref →
      P.pgdir.Maps (P.shm_vir ref) (s.mem.shm_arr i).shmPhys)
    (h : Gave s.mem P name m' P') : Ledger (s.set m' p (some P')) := by
  cases h with
  | failed =>
    exact hl.shift (shift_set hP rfl (fun _ _ => le_rfl) (fun _ _ => le_rfl) rfl (.refl _)
      (fun _ _ => rfl) (fun _ _ => le_rfl) id)
  | @released i ref hfind hname hgt hs =>
    obtain ⟨f, hf, hphys⟩ := hl.found hr hfind
    have hm := hmaps i ref hfind hname
    rw [hphys] at hm
    exact hl.shift (shift_release hP hl.tidy hf hphys hm (Nat.sub_le _ _))
  | @freed i ref m1 sz hfind hname hle hk hsz =>
    obtain ⟨f, hf, hphys⟩ := hl.found hr hfind
    have hm := hmaps i ref hfind hname
    rw [hphys] at hm hk
    exact hl.free hP hf hphys hm hle hk hsz
  | @kept i sz hfind hle hsz =>
    obtain ⟨f, hf, hphys⟩ := hl.found hr hfind
    exact hl.retire hP hf hphys hle rfl rfl rfl (fun _ _ => ⟨rfl, rfl⟩) le_rfl
      (hsz.trans_lt (hl.size hP))

end

end Msboss.Vm
