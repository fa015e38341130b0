import Msboss.Mutex.ByName

/-!
# Names of mutexes are unique

`initmutex` looks for the name and for a free entry in one loop, and stops at whichever comes first.
After an entry before that of a name has been freed, the name is given to the free entry too
(`name_twice`). The names stay unique exactly as long as no name is looked for past a free entry
(`names_unique`).
-/

namespace Msboss.Mutex

open Function

/-- No two entries in use have the same name. -/
def NamesUnique (s : State) : Prop :=
  ∀ g g', (s.mxarray g).name ≠ 0 → (s.mxarray g).name = (s.mxarray g').name → g = g'

/-- The loop of `initmutex` comes to the entry of the name before a free one; or the name is null,
or the caller has no free handle, and no entry is named. -/
def State.NoHole (s : State) (p : Slot) (name : UInt32) : Prop :=
  name = 0 ∨ s.freeHandle p = none ∨
    ∀ g, (s.mxarray g).name = name → ∀ k < g, (s.mxarray k).name ≠ 0

/-- No name is looked for past a free entry. -/
def FindsName (s : State) : Act → Prop
  | .initmutex p name => s.NoHole p name
  | _ => True

section
variable {s s' : State} {p : Slot} {name : UInt32}

/-- Entries that keep their names, and free ones. -/
theorem NamesUnique.frees (h : NamesUnique s)
    (hname : ∀ g, (s'.mxarray g).name ≠ 0 → (s'.mxarray g).name = (s.mxarray g).name) :
    NamesUnique s' := by
  intro g g' hg heq
  have hg' : (s'.mxarray g').name ≠ 0 := heq ▸ hg
  refine h g g' ?_ ?_
  · rw [← hname g hg]
    exact hg
  · rw [← hname g hg, ← hname g' hg']
    exact heq

/-- Where the loop stops at no entry, the name is not there. -/
theorem scan_eq_none (h : s.scan name = none) (g : Mux) : (s.mxarray g).name ≠ name := by
  have := find?_finRange_eq_none.1 h g
  simp only [Bool.or_eq_false_iff, beq_eq_false_iff_ne] at this
  exact this.2

/-- A free entry is given the name. -/
theorem unique_named (h : NamesUnique s) (h0 : name ≠ 0) (hi : s.scan name = some i)
    (hfree : (s.mxarray i).name = 0)
    (hent : ∀ g, (s'.mxarray g).name = if g = i then name else (s.mxarray g).name) :
    NamesUnique s' ↔ ∀ g, (s.mxarray g).name = name → ∀ k < g, (s.mxarray k).name ≠ 0 := by
  constructor
  · intro hu g hg k hk
    -- the name is not given twice, so it is not in the table
    have hgi : g ≠ i := by
      rintro rfl
      exact h0 (hg.symm.trans hfree)
    have heq : (s'.mxarray g).name = (s'.mxarray i).name := by
      rw [hent, hent, if_neg hgi, if_pos rfl, hg]
    refine absurd (hu g i ?_ heq) hgi
    rw [hent, if_neg hgi, hg]
    exact h0
  · intro hfirst g g' hg heq
    have hnot (g : Mux) (hne : g ≠ i) : (s.mxarray g).name ≠ name := by
      intro hg
      rcases lt_or_gt_of_ne hne with hlt | hgt
      · exact (scan_first hi hlt).2 hg
      · exact hfirst g hg i hgt hfree
    rw [hent] at hg heq
    rw [hent] at heq
    rcases eq_or_ne g i with rfl | hgi
    · rcases eq_or_ne g' g with rfl | hgg
      · rfl
      · rw [if_pos rfl, if_neg hgg] at heq
        exact absurd heq.symm (hnot g' hgg)
    rw [if_neg hgi] at hg heq
    rcases eq_or_ne g' i with rfl | hgi'
    · rw [if_pos rfl] at heq
      exact absurd heq (hnot g hgi)
    · rw [if_neg hgi'] at heq
      exact h g g' hg heq

/-- `initmutex` keeps names unique exactly if it does not look for a name past a free entry. -/
theorem NamesUnique.initmutex (h : NamesUnique s) (p : Slot) (name : UInt32) :
    NamesUnique (s.initmutex p name).2 ↔ s.NoHole p name := by
  unfold State.initmutex
  cases hi : s.scan name with
  | none =>
    refine iff_of_true h (.inr (.inr fun g hg => ?_))
    exact absurd hg (scan_eq_none hi g)
  | some i =>
    dsimp only
    cases hj : s.freeHandle p with
    | none => exact iff_of_true h (.inr (.inl hj))
    | some j =>
      have hj' : s.freeHandle p ≠ none := by rw [hj]; exact nofun
      dsimp only
      generalize hs' : State.setProc _ p _ = s'
      have hent (g : Mux) : (s'.mxarray g).name = if g = i then name else (s.mxarray g).name := by
        rw [← hs', State.setProc_mxarray, State.setEntry_mxarray]
        rcases eq_or_ne g i with rfl | hg
        · rw [update_self, if_pos rfl, initmutex_name hi]
        · rw [update_of_ne hg, if_neg hg]
      rcases eq_or_ne name 0 with rfl | h0
      · refine iff_of_true (h.frees fun g hg => ?_) (.inl rfl)
        rw [hent] at hg ⊢
        split at hg
        · exact absurd rfl hg
        · next hgi => rw [if_neg hgi]
      unfold State.NoHole
      rw [or_iff_right h0, or_iff_right hj']
      rcases scan_entry hi with hfree | hname
      · exact unique_named h h0 hi hfree hent
      refine iff_of_true (h.frees fun g _ => ?_) fun g hg k hk => ?_
      · rw [hent]
        split
        · next hgi => rw [hgi, hname]
        · rfl
      · obtain rfl := h g i (by rw [hg]; exact h0) (hg.trans hname.symm)
        exact (scan_first hi hk).1

theorem xchg_name (s : State) (g g' : Mux) (b : Bool) :
    ((s.xchg g b).mxarray g').name = (s.mxarray g').name := by
  unfold State.xchg
  rw [State.setEntry_mxarray]
  rcases eq_or_ne g' g with rfl | hne
  · rw [update_self]
  · rw [update_of_ne hne]

theorem NamesUnique.step (h : NamesUnique s) (hG : FindsName s a)
    (hs : anyNext s a = some s') : NamesUnique s' := by
  cases a with
  | fork p =>
    obtain ⟨-, rfl⟩ : (s.proc p).pc = .dead ∧ _ = s' := by simpa [anyNext, next] using hs
    exact h
  | initmutex p name =>
    obtain ⟨-, rfl⟩ : (s.proc p).pc = .run ∧ _ = s' := by simpa [anyNext, next] using hs
    exact (h.initmutex p name).2 hG
  | mxacquire p m =>
    obtain ⟨-, rfl⟩ : s.uses p m = true ∧ _ = s' := by simpa [anyNext, next] using hs
    unfold State.mxacquire
    split
    · exact h
    split
    · exact h
    split
    · exact h
    · exact h.frees fun g _ => xchg_name s m g true
  | resume p =>
    simp only [anyNext, next] at hs
    split at hs <;> cases hs
    exact h.frees fun g _ => xchg_name s _ g true
  | mxrelease p m =>
    obtain ⟨-, rfl⟩ : s.uses p m = true ∧ _ = s' := by simpa [anyNext, next] using hs
    unfold State.mxrelease
    split
    · exact h
    split
    · exact h
    split
    · exact h.frees fun g _ => xchg_name s _ g false
    · exact h
  | mxdelete p m =>
    obtain ⟨-, rfl⟩ : (s.proc p).pc = .run ∧ _ = s' := by simpa [anyNext] using hs
    exact h.frees fun g hg => (mxdelete_mxarray m hg).2
  | exit p =>
    obtain ⟨-, rfl⟩ : ((s.proc p).pc = .run ∧ p ≠ 0) ∧ _ = s' := by
      simpa [anyNext, next] using hs
    refine h.frees fun g hg => ?_
    rw [exit_mxarray] at hg ⊢
    exact (deleteAll_mxarray hg).2

end

/-- In every run in which no name is looked for past a free entry, names are unique; and a call that
looks for one there makes a second entry of that name. -/
theorem names_unique {s : State} (h : (anySystem.restrict FindsName).Reach s) :
    NamesUnique s ∧ ∀ p name, NamesUnique (s.initmutex p name).2 ↔ s.NoHole p name := by
  have hu : NamesUnique s := by
    refine h.invariant (I := NamesUnique) (fun s hi => ?_) fun s a s' hI hs => ?_
    · rw [show s = initial from hi]
      exact fun g g' hg => absurd rfl hg
    · exact hI.step hs.1 hs.2
  exact ⟨hu, hu.initmutex⟩

instance (s : State) (p : Slot) (name : UInt32) : Decidable (s.NoHole p name) :=
  inferInstanceAs (Decidable (_ ∨ _ ∨ _))

instance (s : State) : (a : Act) → Decidable (FindsName s a)
  | .initmutex p name => inferInstanceAs (Decidable (s.NoHole p name))
  | .fork _ | .mxacquire _ _ | .resume _ | .mxrelease _ _ | .mxdelete _ _ | .exit _ =>
    inferInstanceAs (Decidable True)

/-- The first entry is freed and named again, and the second one is joined. -/
def deleteLast : List Act :=
  [.initmutex 0 100, .initmutex 0 200, .mxdelete 0 0, .initmutex 0 300, .initmutex 0 200]

/-- `names_unique` on the run of `deleteLast`. -/
theorem names_unique_deleteLast : ∃ s, (anySystem.restrict FindsName).Reach s ∧
    (s.mxarray 0).name = 300 ∧ (s.mxarray 1).num_proc = 2 ∧ NamesUnique s := by
  obtain ⟨s, hreach, h1, h2⟩ := anySystem.exists_reach FindsName anyNext initial deleteLast
    (Q := fun s => (s.mxarray 0).name = 300 ∧ (s.mxarray 1).num_proc = 2) rfl rfl
    (by decide +kernel)
  exact ⟨s, hreach, h1, h2, (names_unique hreach).1⟩

/-- The first of two entries is freed, and the name of the second one is looked for. -/
def deleteFirst : List Act :=
  [.initmutex 0 100, .initmutex 0 200, .mxdelete 0 0, .initmutex 0 200]

/-- Both entries have the name. -/
theorem name_twice : ∃ s, anySystem.Reach s ∧
    (s.mxarray 0).name = 200 ∧ (s.mxarray 1).name = 200 ∧ ¬ NamesUnique s := by
  obtain ⟨s, hreach, h1, h2⟩ := anySystem.exists_run anyNext initial deleteFirst
    (Q := fun s => (s.mxarray 0).name = 200 ∧ (s.mxarray 1).name = 200) rfl rfl (by decide +kernel)
  refine ⟨s, hreach, h1, h2, fun h => ?_⟩
  have := h 0 1 (by rw [h1]; decide) (h1.trans h2.symm)
  exact absurd this (by decide)

end Msboss.Mutex
