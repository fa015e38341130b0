import Msboss.Mutex.Exclusion

/-!
# Waiting for a mutex

`mxrelease` wakes the processes that wait for a mutex only if it finds it unlocked. If it is locked,
as it is when its holder releases it, `mxrelease` unlocks it and wakes nobody, so whoever waits goes
on sleeping on a free mutex (`stranded`). A mutex is unlocked only by `mxrelease`, and by `mxdelete`
of its last handle, so no waiter is left behind if these happen while nobody waits
(`none_stranded`). -/

namespace Msboss.Mutex

open State

/-- A process sleeps in `mxacquire` on the entry `g`. -/
def Pc.sleepsOn (g : Mux) : Pc → Prop
  | .asleep _ g' => g' = g
  | _ => False

instance (g : Mux) : (c : Pc) → Decidable (c.sleepsOn g)
  | .asleep _ g' => inferInstanceAs (Decidable (g' = g))
  | .dead | .run | .woken _ _ => inferInstanceAs (Decidable False)

/-- Nobody sleeps on an unlocked mutex. -/
def NoneStranded (s : State) : Prop :=
  ∀ p g, (s.proc p).pc.sleepsOn g → (s.mxarray g).lock = true

/-- Mutexes are made, acquired and released, and released only by processes that are in them. -/
def OwnRelease (s : State) : Act → Prop
  | .mxrelease p m => ∀ g ∈ (s.proc p).mxproc m, g ∈ (s.proc p).held
  | .mxdelete _ _ | .exit _ => False
  | _ => True

/-- Nobody sleeps on an entry that is freed. -/
def FreesUnawaited (s : State) (D : Finset Mux) : Prop :=
  ∀ g, s.Frees D g → ∀ q, ¬ (s.proc q).pc.sleepsOn g

/-- A mutex is unlocked, or freed, while nobody sleeps on it. -/
def UnlocksUnawaited (s : State) : Act → Prop
  | .mxrelease p m => ∀ g ∈ (s.proc p).mxproc m, (s.mxarray g).name ≠ 0 →
      (s.mxarray g).lock = true → ∀ q, ¬ (s.proc q).pc.sleepsOn g
  | .mxdelete _ m => FreesUnawaited s {m}
  | .exit p => FreesUnawaited s (s.handlesOf p)
  | _ => True

/-- The invariant: what somebody sleeps on is locked, and named. -/
def Awaited (s : State) : Prop :=
  ∀ p g, (s.proc p).pc.sleepsOn g → (s.mxarray g).lock = true ∧ (s.mxarray g).name ≠ 0

section
variable {s s' : State} {p q : Slot} {m g g' : Mux}

/-- A step after which nobody sleeps who did not before, and which keeps the lock and the name of
the entries somebody still sleeps on. -/
theorem Awaited.frame (h : Awaited s)
    (hpc : ∀ q g, (s'.proc q).pc.sleepsOn g → (s.proc q).pc.sleepsOn g)
    (hent : ∀ q g, (s'.proc q).pc.sleepsOn g → (s.mxarray g).lock = true →
      (s.mxarray g).name ≠ 0 → (s'.mxarray g).lock = true ∧ (s'.mxarray g).name ≠ 0) :
    Awaited s' := by
  intro q g hq
  obtain ⟨hl, hn⟩ := h q g (hpc q g hq)
  exact hent q g hq hl hn

theorem enter_sleepsOn (h : ((s.enter p g).proc q).pc.sleepsOn g') : (s.proc q).pc.sleepsOn g' := by
  unfold enter at h
  rcases eq_or_ne q p with rfl | hq
  · simp [Pc.sleepsOn] at h
  · simpa [hq] using h

theorem leave_pc (q : Slot) : ((s.leave p g).proc q).pc = (s.proc q).pc := by
  unfold leave
  rcases eq_or_ne q p with rfl | hq
  · simp
  · simp [hq]

/-- Setting a lock strands nobody. -/
theorem Awaited.lockEnter (h : Awaited s) : Awaited ((s.xchg m true).enter p g) := by
  refine h.frame (fun q g' hq => enter_sleepsOn (s := s.xchg m true) hq) fun q g' _ hl hn => ?_
  rcases eq_or_ne g' m with rfl | hg
  · simpa [enter, xchg] using hn
  · simpa [enter, xchg, hg] using ⟨hl, hn⟩

theorem Awaited.mxacquire (h : Awaited s) (p : Slot) (m : Mux) : Awaited (s.mxacquire p m) := by
  unfold State.mxacquire
  split
  · exact h
  next g hm =>
  split
  · exact h.frame (fun q g' hq => enter_sleepsOn hq) fun _ _ _ hl hn => ⟨hl, hn⟩
  next hn =>
  split
  · next hl =>
    -- The caller goes to sleep on an entry that is locked.
    intro q g' hq
    rcases eq_or_ne q p with rfl | hqp
    · simp only [setProc_proc, Function.update_self, Pc.sleepsOn] at hq
      subst hq
      exact ⟨hl, hn⟩
    · simp only [setProc_proc, Function.update_of_ne hqp] at hq
      exact h q g' hq
  · exact h.lockEnter

theorem Awaited.mxrelease (h : Awaited s) (ho : UnlocksUnawaited s (.mxrelease p m)) :
    Awaited (s.mxrelease p m) := by
  unfold State.mxrelease
  split
  · exact h
  next g hm =>
  split
  · exact h.frame (fun q g' hq => by rwa [leave_pc] at hq) fun _ _ _ hl hn => ⟨hl, hn⟩
  next hn =>
  split
  · next hl =>
    refine h.frame (fun q g' hq => by rwa [leave_pc] at hq) fun q g' hq hl' hn' => ?_
    rw [leave_pc] at hq
    have hg : g' ≠ g := fun he => ho g hm hn hl q (he ▸ hq)
    simpa [leave, xchg, hg] using ⟨hl', hn'⟩
  · refine h.frame (fun q g' hq => ?_) fun _ _ _ hl hn => ⟨hl, hn⟩
    rw [leave_pc] at hq
    rcases wakeup_pc (s := s) (g := g) q with he | ⟨m', -, he⟩
    · rwa [he] at hq
    · rw [he] at hq
      exact hq.elim

/-- Entries are freed that nobody sleeps on. -/
theorem Awaited.frees (h : Awaited s) (ho : FreesUnawaited s D)
    (hD : ∀ g, (s.mxarray g).name ≠ 0 → (s'.mxarray g).name = 0 → s.Frees D g)
    (hpc : ∀ q g, (s'.proc q).pc.sleepsOn g → (s.proc q).pc.sleepsOn g)
    (hent : ∀ g, (s'.mxarray g).name ≠ 0 → (s'.mxarray g).lock = (s.mxarray g).lock) :
    Awaited s' := by
  refine h.frame hpc fun q g hq hl hn => ?_
  have hn' : (s'.mxarray g).name ≠ 0 := fun h0 => ho g (hD g hn h0) q (hpc q g hq)
  exact ⟨(hent g hn').trans hl, hn'⟩

theorem Awaited.step (h : Awaited s) (ho : UnlocksUnawaited s a)
    (hs : next s a = some s') : Awaited s' := by
  cases a with
  | fork p =>
    simp only [next] at hs
    split at hs <;> cases hs
    refine h.frame (fun q g hq => ?_) fun _ _ _ hl hn => ⟨hl, hn⟩
    rcases eq_or_ne q p with rfl | hqp
    · simp [Proc.clear, Pc.sleepsOn] at hq
    · simpa [hqp] using hq
  | initmutex p name =>
    simp only [next] at hs
    split at hs <;> cases hs
    refine h.frame (fun q g hq => ?_) fun q g _ hl hn => ?_
    · rwa [(initmutex_proc name q).1] at hq
    · obtain ⟨hl', hn'⟩ := initmutex_mxarray (p := p) name hn
      rw [hl', hn']
      exact ⟨hl, hn⟩
  | mxacquire p m =>
    simp only [next] at hs
    split at hs <;> cases hs
    exact h.mxacquire p m
  | resume p =>
    simp only [next] at hs
    split at hs <;> cases hs
    exact h.lockEnter
  | mxrelease p m =>
    simp only [next] at hs
    split at hs <;> cases hs
    exact h.mxrelease ho
  | mxdelete p m =>
    simp only [next] at hs
    split at hs <;> cases hs
    refine h.frees ho (fun g => frees_mxdelete) (fun q g hq => ?_)
      fun g hg => (mxdelete_mxarray m hg).1
    rwa [(mxdelete_proc m q).1] at hq
  | exit p =>
    simp only [next] at hs
    split at hs <;> cases hs
    refine h.frees ho (fun g => frees_deleteAll) (fun q g hq => ?_)
      fun g hg => (deleteAll_mxarray hg).1
    rcases eq_or_ne q p with rfl | hqp
    · simp [exit, Pc.sleepsOn] at hq
    · simpa [exit, hqp, deleteAll_proc] using hq

end

/-- In every run in which a mutex is unlocked, or freed, only while nobody sleeps on it, nobody ever
sleeps on an unlocked mutex. -/
theorem none_stranded {s : State} (h : (system.restrict UnlocksUnawaited).Reach s) :
    NoneStranded s := by
  have hI : Awaited s := by
    refine h.invariant (I := Awaited) (fun s hi p g hp => ?_) fun s a s' hI hs => ?_
    · rw [show s = initial from hi] at hp
      simp only [initial, Proc.clear] at hp
      split at hp <;> exact hp.elim
    · exact hI.step hs.1 hs.2
  exact fun p g hp => (hI p g hp).1

instance (s : State) (D : Finset Mux) : Decidable (FreesUnawaited s D) :=
  inferInstanceAs (Decidable (∀ g, _ → ∀ q, ¬ (s.proc q).pc.sleepsOn g))

instance (s : State) : (a : Act) → Decidable (UnlocksUnawaited s a)
  | .mxrelease p m => inferInstanceAs (Decidable (∀ g ∈ (s.proc p).mxproc m, _ → _ →
      ∀ q, ¬ (s.proc q).pc.sleepsOn g))
  | .mxdelete _ m => inferInstanceAs (Decidable (FreesUnawaited s {m}))
  | .exit p => inferInstanceAs (Decidable (FreesUnawaited s (s.handlesOf p)))
  | .fork _ | .initmutex _ _ | .mxacquire _ _ | .resume _ => inferInstanceAs (Decidable True)

instance (s : State) : (a : Act) → Decidable (OwnRelease s a)
  | .mxrelease p m => inferInstanceAs
      (Decidable (∀ g ∈ (s.proc p).mxproc m, g ∈ (s.proc p).held))
  | .mxdelete _ _ | .exit _ => inferInstanceAs (Decidable False)
  | .fork _ | .initmutex _ _ | .mxacquire _ _ | .resume _ => inferInstanceAs (Decidable True)

/-- Process 1 takes a mutex twice in turn, and process 2 waits for it. -/
def waits : List Act :=
  [.fork 1, .fork 2, .initmutex 1 100, .initmutex 2 100, .mxacquire 1 0, .mxrelease 1 0,
    .mxacquire 1 0, .mxacquire 2 0]

/-- `none_stranded` on the run of `waits`. -/
theorem none_stranded_waits : ∃ s, (system.restrict UnlocksUnawaited).Reach s ∧
    (s.proc 2).pc = .asleep 0 0 ∧ NoneStranded s := by
  obtain ⟨s, hreach, h1⟩ := system.exists_reach UnlocksUnawaited next initial waits
    (Q := fun s => (s.proc 2).pc = .asleep 0 0) rfl rfl (by decide +kernel)
  exact ⟨s, hreach, h1, none_stranded hreach⟩

/-- Process 1 releases the mutex it holds while process 2 waits for it. -/
def releaseAwaited : List Act :=
  [.fork 1, .fork 2, .initmutex 1 100, .initmutex 2 100, .mxacquire 1 0, .mxacquire 2 0,
    .mxrelease 1 0]

/-- Process 2 sleeps on, and the mutex is free. -/
theorem stranded : ∃ s, (system.restrict OwnRelease).Reach s ∧ (s.proc 2).pc = .asleep 0 0 ∧
    (s.mxarray 0).lock = false ∧ ¬ NoneStranded s := by
  obtain ⟨s, hreach, h1, h2⟩ := system.exists_reach OwnRelease next initial releaseAwaited
    (Q := fun s => (s.proc 2).pc = .asleep 0 0 ∧ (s.mxarray 0).lock = false) rfl rfl
    (by decide +kernel)
  refine ⟨s, hreach, h1, h2, fun h => ?_⟩
  have := h 2 0 (by rw [h1]; rfl)
  rw [h2] at this
  cases this

end Msboss.Mutex
