import Msboss.Vm.Steps

/-!
# Taking and giving back shared pages

What `shm_get` and `shm_rem` can do, case by case (`Got`, `Gave`), and that they keep the ledger.
`shm_rem`, and `shm_get` when it finds no memory, go through `deallocshm`, which moves the pages
above the one it gives up down by one page and leaves the old ones mapped as well; the ledger is
kept as long as there are no such pages (`LastPage`), and as long as the page that `shm_rem` clears
is one of the region's (`Recorded`).
-/

namespace Msboss.Vm

open Memory

section
variable {m m' : Memory} {P P' : Proc} {ref : Slot} {junk : Nat}

/-! ## Giving a page up -/

/-- `deallocshm` for the slot has no page to move: none follows the one recorded. -/
def Proc.LastPage (P : Proc) (ref : Slot) : Prop :=
  PGSIZE ≤ P.sz ∧ ¬ (P.shm_vir ref + PGSIZE) % 2 ^ 32 < P.sz

instance (P : Proc) (ref : Slot) : Decidable (P.LastPage ref) := inferInstanceAs (Decidable (_ ∧ _))

theorem szLess_eq (h : PGSIZE ≤ P.sz) (hsz : P.sz < KERNBASE) : P.szLess = P.sz - PGSIZE := by
  simp only [Proc.szLess, KERNBASE, PGSIZE] at *; omega

/-- The loop of `deallocshm` ends at `sz`. -/
theorem remapLoop_done (h : ¬ a < sz) (n : Nat) (m : Memory) (d : PageDir) :
    remapLoop sz n m d a = .ok (m, d) := by
  cases n with
  | zero => rfl
  | succ n => rw [remapLoop, if_neg h]

/-- The process after it has given up the page of slot `ref`. -/
def Proc.without (P : Proc) (ref : Slot) (sz : Nat) : Proc :=
  { P.dropSlot ref with pgdir := P.pgdir.setPte (P.shm_vir ref) .zero, sz }

theorem Proc.without_kstack (P : Proc) (ref : Slot) (sz : Nat) :
    (P.without ref sz).kstack = P.kstack := rfl

theorem Proc.without_pgdir (P : Proc) (ref : Slot) (sz : Nat) :
    (P.without ref sz).pgdir = P.pgdir.setPte (P.shm_vir ref) .zero := rfl

theorem Proc.without_sz (P : Proc) (ref : Slot) (sz : Nat) : (P.without ref sz).sz = sz := rfl

/-- `deallocshm` of the last page, with no region to free. -/
theorem deallocshm_lastPage {r : Option Nat} (hlt : newsz < oldsz) (hsz : P.sz < KERNBASE)
    (hlast : P.LastPage ref) (h : m.deallocshm P oldsz newsz ref 0 = .ok (r, m', P')) :
    r = none ∧ m' = m ∧ P' = P ∨
      r = some newsz ∧ m' = m ∧ (P.pgdir.pte (P.shm_vir ref)).isSome = true ∧
        P' = P.without ref (P.sz - PGSIZE) := by
  unfold deallocshm at h
  rw [if_neg (Nat.not_le.2 hlt)] at h
  split at h
  · cases h
    exact .inl ⟨rfl, rfl, rfl⟩
  next hsome =>
  have hsome : (P.pgdir.pte (P.shm_vir ref)).isSome = true := by
    simpa [Option.isSome_iff_ne_none] using hsome
  simp only [szLess_eq hlast.1 hsz, if_true, remapLoop_done hlast.2] at h
  split at h
  · cases h
    exact .inr ⟨rfl, rfl, hsome, rfl⟩
  · cases h
    exact .inr ⟨rfl, rfl, hsome, rfl⟩

/-- `deallocshm` that is to free the region's frame. -/
theorem deallocshm_free {r : Option Nat} (hlt : newsz < oldsz)
    (h0 : shmMap ≠ 0) (h : m.deallocshm P oldsz newsz ref shmMap = .ok (r, m', P')) :
    r = none ∧ m' = m ∧ P' = P ∨ r = some newsz ∧ m' = m ∧ P' = P ∨
      r = some newsz ∧ m.kfree shmMap = .ok m' ∧ P' = P.without ref P.sz := by
  unfold deallocshm at h
  rw [if_neg (Nat.not_le.2 hlt)] at h
  split at h
  · cases h
    exact .inl ⟨rfl, rfl, rfl⟩
  simp only at h
  obtain ⟨e, -, h⟩ := bind_eq_ok.1 h
  split at h
  · obtain ⟨m1, hk, h⟩ := bind_eq_ok.1 h
    cases h
    exact .inr (.inr ⟨rfl, hk, rfl⟩)
  · cases h
    exact .inr (.inl ⟨rfl, rfl, rfl⟩)

/-! ## `shm_alloc` -/

/-- The process with a new page, recorded in slot `ref`. -/
def Proc.within (P : Proc) (ref : Slot) (d : PageDir) (phys : Nat) : Proc :=
  { P.setMap ref (PGROUNDUP P.sz) phys with pgdir := d, sz := P.sz + PGSIZE }

theorem grow_toNat (h : n < KERNBASE) : (((n : Int) + 4096) % 2 ^ 32).toNat = n + PGSIZE := by
  simp only [KERNBASE, PGSIZE] at *; omega

theorem shrink_toNat (h : n < KERNBASE) (h' : PGSIZE ≤ n) :
    (((n : Int) + -4096) % 2 ^ 32).toNat = n - PGSIZE := by
  simp only [KERNBASE, PGSIZE] at *; omega

/-- Below a page this wraps around. -/
theorem shrink_toNat_ge (h' : ¬ PGSIZE ≤ n) : n ≤ (((n : Int) + -4096) % 2 ^ 32).toNat := by
  simp only [PGSIZE] at *; omega

/-- The loop of `allocshm` makes one turn for one page. -/
theorem one_turn (h : n + PGSIZE < KERNBASE) :
    (n + PGSIZE - PGROUNDUP n + (PGSIZE - 1)) / PGSIZE = 1 := by
  simp only [PGROUNDUP, KERNBASE, PGSIZE] at *; omega

theorem PGROUNDUP_lt (h : n + PGSIZE < KERNBASE) : PGROUNDUP n < n + PGSIZE := by
  simp only [PGROUNDUP, KERNBASE, PGSIZE] at *; omega

/-- Where `allocshm` says the new page is. -/
theorem recorded_va (h : n + PGSIZE < KERNBASE) :
    (PGROUNDUP n + PGSIZE + (2 ^ 32 - (n + PGSIZE - n))) % 2 ^ 32 = PGROUNDUP n := by
  have := PGROUNDUP_lt h
  simp only [KERNBASE, PGSIZE] at *; omega

/-- `shm_alloc(4096, ref, 0)` takes a frame and a page for it, or fails. -/
theorem shm_alloc_new (hsz : P.sz < KERNBASE)
    (h : m.shm_alloc P 4096 ref 0 junk = .ok (b, m', P')) : b = false ∧ m' = m ∧ P' = P ∨
      b = false ∧ m.freelist = [] ∧
        (∃ r, { m with oom := true }.deallocshm P (P.sz + PGSIZE) P.sz 0 0 = .ok (r, m', P')) ∨
      b = true ∧ P.sz + PGSIZE < KERNBASE ∧ ∃ f m1 c d, m.kalloc = (some f, m1) ∧
        (m1.fill f 0).mappages P.pgdir (PGROUNDUP P.sz) PGSIZE (f * PGSIZE) true true =
          .ok (c, m', d) ∧ P' = P.within ref d (f * PGSIZE) := by
  unfold shm_alloc at h
  simp only [grow_toNat hsz, show (4096 : Int) > 0 by decide, if_true] at h
  obtain ⟨⟨sz, m1, P1⟩, ha, h⟩ := bind_eq_ok.1 h
  unfold allocshm at ha
  split at ha
  · cases ha
    cases h
    exact .inl ⟨rfl, rfl, rfl⟩
  next hlt =>
  have hlt := Nat.not_le.1 hlt
  rw [if_neg (by omega)] at ha
  simp only [one_turn hlt] at ha
  obtain ⟨⟨o, m2, P2, a⟩, hl, ha⟩ := bind_eq_ok.1 ha
  simp only [allocshmLoop, if_true] at hl
  split at hl
  · next m3 hk =>
    obtain ⟨hf, rfl⟩ := kalloc_none hk
    obtain ⟨⟨r, m4, P4⟩, hd, hl⟩ := bind_eq_ok.1 hl
    cases hl
    cases ha
    cases h
    exact .inr (.inl ⟨rfl, hf, r, hd⟩)
  · next f m3 hk =>
    obtain ⟨⟨c, m4, d⟩, hmap, hl⟩ := bind_eq_ok.1 hl
    cases hl
    cases ha
    cases h
    refine .inr (.inr ⟨rfl, hlt, f, m3, c, d, hk, hmap, ?_⟩)
    simp only [recorded_va hlt]
    rfl

/-- `shm_alloc(4096, ref, shmMap)` maps the region once more, or fails. What it records as the
frame is the junk. -/
theorem shm_alloc_attach (hsz : P.sz < KERNBASE) (h0 : shmMap ≠ 0)
    (h : m.shm_alloc P 4096 ref shmMap junk = .ok (b, m', P')) : b = false ∧ m' = m ∧ P' = P ∨
      b = true ∧ P.sz + PGSIZE < KERNBASE ∧ ∃ c d,
        m.mappages P.pgdir (PGROUNDUP P.sz) PGSIZE shmMap true true = .ok (c, m', d) ∧
        P' = P.within ref d junk := by
  unfold shm_alloc at h
  simp only [grow_toNat hsz, show (4096 : Int) > 0 by decide, if_true] at h
  obtain ⟨⟨sz, m1, P1⟩, ha, h⟩ := bind_eq_ok.1 h
  unfold allocshm at ha
  split at ha
  · cases ha
    cases h
    exact .inl ⟨rfl, rfl, rfl⟩
  next hlt =>
  have hlt := Nat.not_le.1 hlt
  rw [if_neg (by omega)] at ha
  simp only [one_turn hlt] at ha
  obtain ⟨⟨o, m2, P2, a⟩, hl, ha⟩ := bind_eq_ok.1 ha
  simp only [allocshmLoop, if_neg h0] at hl
  obtain ⟨⟨c, m4, d⟩, hmap, hl⟩ := bind_eq_ok.1 hl
  cases hl
  cases ha
  cases h
  refine .inr ⟨rfl, hlt, c, d, hmap, ?_⟩
  simp only [recorded_va hlt]
  rfl

/-! ## The cases of `shm_get` and `shm_rem` -/

/-- The entry `i` gets a name and a frame. -/
def Memory.enrol (m : Memory) (i : Slot) (name : List UInt8) (phys : Nat) : Memory :=
  { m.setShm i { name, numAccess := (m.shm_arr i).numAccess + 1, shmPhys := phys } with
    used := m.used + 1 }

/-- The entry `i` is out of use. -/
def Memory.retire (m : Memory) (i : Slot) : Memory :=
  { m.setShm i { name := safestrcpy DNE 16, numAccess := 0, shmPhys := 0 } with
    used := m.used - 1 }

/-- What `shm_get(name)` can do. -/
inductive Got (m : Memory) (P : Proc) (name : List UInt8) (junk : Nat) :
    Nat → Memory → Proc → Prop
  /-- The process has the region. -/
  | known {i : Slot} : P.procSHM_nameFind name = some i → Got m P name junk (P.shm_vir i) m P
  /-- No slot, no entry or no room. -/
  | failed : Got m P name junk 0 m P
  /-- No memory. -/
  | starved {r : Option Nat} {m' : Memory} {P' : Proc} : m.shm_find name = none →
      m.freelist = [] →
      { m with oom := true }.deallocshm P (P.sz + PGSIZE) P.sz 0 0 = .ok (r, m', P') →
      Got m P name junk 0 m' P'
  | created {ref i : Slot} {f : Frame} {m1 m2 : Memory} {c : Bool} {d : PageDir} :
      P.procSHM_nameFind name = none → P.procSHM_findFree = some ref → m.shm_find name = none →
      P.sz + PGSIZE < KERNBASE → m.kalloc = (some f, m1) →
      (m1.fill f 0).mappages P.pgdir (PGROUNDUP P.sz) PGSIZE (f * PGSIZE) true true =
        .ok (c, m2, d) →
      m2.shm_findFree = some i →
      Got m P name junk (PGROUNDUP P.sz) (m2.enrol i (strncpy name 16) (f * PGSIZE))
        ((P.within ref d (f * PGSIZE)).setName ref (safestrcpy name 16))
  | attached {ref i : Slot} {m2 : Memory} {c : Bool} {d : PageDir} :
      P.procSHM_nameFind name = none → P.procSHM_findFree = some ref → m.shm_find name = some i →
      P.sz + PGSIZE < KERNBASE →
      m.mappages P.pgdir (PGROUNDUP P.sz) PGSIZE (m.shm_arr i).shmPhys true true =
        .ok (c, m2, d) →
      Got m P name junk (PGROUNDUP P.sz) (m2.addAccess i 1)
        ((P.within ref d junk).setName ref (strncpy name 16))

/-- What `shm_get` does. -/
theorem shm_get_cases (hsz : P.sz < KERNBASE)
    (h0 : ∀ i, m.shm_find name = some i → (m.shm_arr i).shmPhys ≠ 0)
    (h : m.shm_get P name junk = .ok (va, m', P')) : Got m P name junk va m' P' := by
  unfold shm_get at h
  split at h
  · next i hi =>
    cases h
    exact .known hi
  next hname =>
  split at h
  · cases h
    exact .failed
  next ref href =>
  split at h
  · next hfind =>
    split at h
    · obtain ⟨⟨b, m1, P1⟩, ha, hres⟩ := bind_eq_ok.1 h
      clear h
      rcases shm_alloc_new hsz ha with ⟨rfl, rfl, rfl⟩ | ⟨rfl, hf, r, hd⟩ |
        ⟨rfl, hlt, f, m2, c, d, hk, hmap, rfl⟩
      · cases hres
        exact .failed
      · cases hres
        exact .starved hfind hf hd
      simp only at hres
      split at hres
      · cases hres
      next i hi =>
      simp only [Except.ok.injEq, Prod.mk.injEq] at hres
      obtain ⟨hva, hm, rfl⟩ := hres
      have hv : va = PGROUNDUP P.sz := hva.symm.trans (Function.update_self ..)
      have hp : m' = m1.enrol i (strncpy name 16) (f * PGSIZE) :=
        hm.symm.trans (congrArg (m1.enrol i _) (Function.update_self ..))
      rw [hv, hp]
      exact .created hname href hfind hlt hk hmap hi
    · cases h
      exact .failed
  · next i hfind =>
    obtain ⟨⟨b, m1, P1⟩, ha, hres⟩ := bind_eq_ok.1 h
    clear h
    rcases shm_alloc_attach hsz (h0 i hfind) ha with ⟨rfl, rfl, rfl⟩ | ⟨rfl, hlt, c, d, hmap, rfl⟩
    · cases hres
      exact .failed
    simp only [Except.ok.injEq, Prod.mk.injEq] at hres
    obtain ⟨hva, rfl, rfl⟩ := hres
    have hv : va = PGROUNDUP P.sz := hva.symm.trans (Function.update_self ..)
    rw [hv]
    exact .attached hname href hfind hlt hmap

/-- What `shm_rem(name)` can do when there is no page to move. -/
inductive Gave (m : Memory) (P : Proc) (name : List UInt8) : Memory → Proc → Prop
  | failed : Gave m P name m P
  | released {i ref : Slot} : m.shm_find name = some i → P.procSHM_nameFind name = some ref →
      (m.shm_arr i).numAccess > 1 → (P.pgdir.pte (P.shm_vir ref)).isSome = true →
      Gave m P name (m.addAccess i (-1)) (P.without ref (P.sz - PGSIZE))
  /-- The last access: the frame is freed. -/
  | freed {i ref : Slot} {m1 : Memory} {sz : Nat} : m.shm_find name = some i →
      P.procSHM_nameFind name = some ref → (m.shm_arr i).numAccess ≤ 1 →
      m.kfree (m.shm_arr i).shmPhys = .ok m1 → sz ≤ P.sz →
      Gave m P name (m1.retire i) (P.without ref sz)
  /-- The last access, but the frame stays mapped. -/
  | kept {i : Slot} {sz : Nat} : m.shm_find name = some i → (m.shm_arr i).numAccess ≤ 1 →
      sz ≤ P.sz → Gave m P name (m.retire i) { P with sz }

/-- What `shm_rem` does. -/
theorem shm_rem_cases (hsz : P.sz < KERNBASE)
    (h0 : ∀ i, m.shm_find name = some i → (m.shm_arr i).shmPhys ≠ 0)
    (hlast : ∀ i ref, m.shm_find name = some i → P.procSHM_nameFind name = some ref →
      (m.shm_arr i).numAccess > 1 → P.LastPage ref)
    (h : m.shm_rem P name = .ok (r, m', P')) : Gave m P name m' P' := by
  unfold shm_rem at h
  split at h
  · cases h
    exact .failed
  · cases h
    exact .failed
  next i ref hfind hname =>
  split at h
  · next hgt =>
    have hl := hlast i ref hfind hname hgt
    obtain ⟨⟨b, m1, P1⟩, ha, hend⟩ := bind_eq_ok.1 h
    clear h
    unfold shm_alloc at ha
    simp only [show ¬ (-4096 : Int) > 0 by decide, if_false, show (-4096 : Int) < 0 by decide,
      if_true, shrink_toNat hsz hl.1] at ha
    obtain ⟨⟨o, m2, P2⟩, hd, hres⟩ := bind_eq_ok.1 ha
    clear ha
    have hlt : P.sz - PGSIZE < P.sz := by
      have := hl.1
      simp only [PGSIZE] at *; omega
    rcases deallocshm_lastPage hlt hsz hl hd with ⟨rfl, rfl, rfl⟩ | ⟨rfl, rfl, hs, rfl⟩
    · cases hres
      cases hend
      exact .failed
    · cases hres
      cases hend
      exact .released hfind hname hgt hs
  · next hgt =>
    have hle := Int.not_lt.1 hgt
    obtain ⟨⟨b, m1, P1⟩, ha, hend⟩ := bind_eq_ok.1 h
    clear h
    unfold shm_alloc at ha
    simp only [show ¬ (-4096 : Int) > 0 by decide, if_false, show (-4096 : Int) < 0 by decide,
      if_true] at ha
    obtain ⟨⟨o, m2, P2⟩, hd, hres⟩ := bind_eq_ok.1 ha
    clear ha
    by_cases hpg : PGSIZE ≤ P.sz
    · rw [shrink_toNat hsz hpg] at hd
      have hlt : P.sz - PGSIZE < P.sz := by
        simp only [PGSIZE] at *; omega
      rcases deallocshm_free hlt (h0 i hfind) hd with ⟨rfl, rfl, rfl⟩ | ⟨rfl, rfl, rfl⟩ |
        ⟨rfl, hk, rfl⟩
      · cases hres
        cases hend
        exact .failed
      · cases hres
        cases hend
        exact .kept hfind hle hlt.le
      · cases hres
        cases hend
        exact .freed hfind hname hle hk hlt.le
    · unfold deallocshm at hd
      rw [if_pos (shrink_toNat_ge hpg)] at hd
      cases hd
      cases hres
      cases hend
      exact .kept hfind hle le_rfl

end

end Msboss.Vm
