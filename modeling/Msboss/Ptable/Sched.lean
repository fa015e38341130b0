import Msboss.Ptable.Calls

/-!
# The scheduler

`scheduler` on one CPU. At the top of a round it looks for a runnable process with pid `highpid`,
and switches to it if there is one. Otherwise it sweeps over the whole table, and does not look
again before the next round, although each process that it switches to can make others runnable,
become runnable again and be the one that called `setHighPrio`. So a process of that pid is passed
over (`high_passed_over`).

Between a process's switch back and the next choice nothing else happens. So it is up to how a
process leaves the table in the middle of a sweep: if a process with pid `highpid` is runnable then,
the next runnable one of the sweep must be of that pid (`LeavesHighNext`, `high_not_passed_over`).
-/

namespace Msboss.Ptable

open Function State

/-- Where the CPU is. -/
inductive Cpu
  /-- In `scheduler`, at the top of a round. -/
  | top
  /-- In `scheduler`, in the sweep, about to look at slot `i`. -/
  | sweep (i : Nat)
  /-- In process `p`, which switches back to the sweep at `i`, or to the end of a round. -/
  | user (p : Slot) (back : Option Nat)
  deriving DecidableEq, Repr

/-- The process table, `ptable.highpid` and the CPU. -/
structure Machine where
  table : State
  highpid : UInt32
  cpu : Cpu

/-- The process that makes a step. -/
def Act.by : Act → Option Slot
  | .fork p | .forkFails p | .forkLinks p | .forkDone p | .exit p | .exited p | .wait p | .scan p
  | .kill p _ | .fault p | .yield p | .sleep p _ => some p
  | .dispatch _ | .wakeup _ => none

namespace Machine

/-- The process in slot `p` is of the high priority and can run. -/
def High (m : Machine) (p : Slot) : Prop :=
  (m.table.proc p).state = .runnable ∧ (m.table.proc p).pid = m.highpid

instance (m : Machine) (p : Slot) : Decidable (m.High p) := inferInstanceAs (Decidable (_ ∧ _))

/-- What the first loop of a round finds. -/
def high (m : Machine) : Option Slot :=
  if m.highpid = 0 then none else (List.finRange NPROC).find? fun p => m.High p

/-- `scheduler` switches to `p`. -/
def switch (m : Machine) (p : Slot) (back : Option Nat) : Machine :=
  { m with
    table := m.table.set p { m.table.proc p with state := .running }
    cpu := .user p back }

/-- Where `sched` leads from a process. -/
def returns : Option Nat → Cpu
  | none => .top
  | some i => .sweep i

/-- Process `p` has made a step to `s`, in which it may have called `sched`. -/
def after (m : Machine) (p : Slot) (back : Option Nat) (s : State) : Machine :=
  { m with
    table := s
    cpu := if (s.proc p).state = .running then .user p back else returns back }

end Machine

/-- The moves of the machine. -/
inductive Move
  /-- `scheduler` goes on. -/
  | scheduler
  /-- A step of the process that runs, or an interrupt that wakes processes. -/
  | act (a : Act)
  | setHighPrio
  deriving DecidableEq, Repr

/-- The step of `scheduler`. -/
def Machine.scheduler (m : Machine) : Option Machine :=
  match m.cpu with
  | .top =>
    match m.high with
    | some p => some (m.switch p none)
    | none => some { m with cpu := .sweep 0 }
  | .sweep i =>
    if h : i < NPROC then
      if (m.table.proc ⟨i, h⟩).state = .runnable then some (m.switch ⟨i, h⟩ (some (i + 1)))
      else some { m with cpu := .sweep (i + 1) }
    else some { m with cpu := .top }
  | .user _ _ => none

/-- The step of the process that runs. Interrupts come in a process, and at the top of a round. -/
def Machine.act (m : Machine) (a : Act) : Option Machine :=
  match m.cpu, a with
  | .top, .wakeup k => some { m with table := m.table.wakeup1 (.other k) }
  | .user p back, .wakeup k => some (m.after p back (m.table.wakeup1 (.other k)))
  | .user p back, a => if a.by = some p then (next m.table a).map (m.after p back) else none
  | _, _ => none

/-- The move, if it is possible. -/
def Machine.next (m : Machine) : Move → Option Machine
  | .scheduler => m.scheduler
  | .act a => m.act a
  | .setHighPrio =>
    match m.cpu with
    | .user p _ =>
      if m.table.Enters p then some { m with highpid := (m.table.proc p).pid } else none
    | _ => none

/-- One CPU, from its first round. -/
def machine : System Machine Move :=
  .ofNext (· = { table := initial, highpid := 0, cpu := .top }) Machine.next

/-- The process that `scheduler` switches to in its next step. -/
def Machine.choice (m : Machine) : Option Slot :=
  match m.cpu with
  | .top => m.high
  | .sweep i =>
    if h : i < NPROC then
      if (m.table.proc ⟨i, h⟩).state = .runnable then some ⟨i, h⟩ else none
    else none
  | .user _ _ => none

/-- The process switched to is of the high priority if one of that priority can run. -/
def NotPassedOver (m : Machine) : Prop :=
  ∀ q, m.choice = some q → m.highpid ≠ 0 → (∃ p, m.High p) → (m.table.proc q).pid = m.highpid

/-- The process that runs is the one the CPU is in. -/
def Machine.OneRuns (m : Machine) : Prop :=
  ∀ p, (m.table.proc p).state = .running ↔ ∃ back, m.cpu = .user p back

/-- Of the processes in `R`, the next one of a sweep that is at slot `i` is of the high priority, if
one of them is. -/
def Machine.HighNext (m : Machine) (R : Slot → Prop) (i : Nat) : Prop :=
  m.highpid ≠ 0 → (∃ p, R p ∧ (m.table.proc p).pid = m.highpid) → ∀ q : Slot, i ≤ q → R q →
    (∀ r : Slot, i ≤ r → r < q → ¬ R r) → (m.table.proc q).pid = m.highpid

/-- A sweep goes on with a process of the high priority, if one can run. -/
def SweepOk (m : Machine) : Prop :=
  match m.cpu with
  | .sweep i => m.HighNext (fun q => (m.table.proc q).state = .runnable) i
  | _ => True

/-- The process that makes the step stops running. In a pass of `wait` it does so if it has a child,
but none that is a zombie, and is not killed. -/
def State.stops (s : State) : Act → Prop
  | .yield _ | .sleep _ _ | .exited _ => True
  | .scan p => (∀ q, ¬ ((s.proc q).parent = some p ∧ (s.proc q).state = .zombie)) ∧
      (∃ q, (s.proc q).parent = some p) ∧ (s.proc p).killed = false
  | _ => False

/-- The processes that can run after a step by which a process stops: that of `yield` itself, and
what `exit` wakes, its parent and, if it leaves a zombie behind, `init`. -/
def State.ready (s : State) : Act → Slot → Prop
  | .yield p, q => q = p ∨ (s.proc q).state = .runnable
  | .exited p, q => (s.proc q).state = .runnable ∨
      (s.proc q).state = .sleeping ∧ ∃ r, (s.proc q).chan = some (.proc r) ∧
        ((s.proc p).parent = some r ∨
          r = 0 ∧ ∃ c, (s.proc c).parent = some p ∧ (s.proc c).state = .zombie)
  | _, q => (s.proc q).state = .runnable

/-- A process that stops and switches back to a sweep leaves a process of the high priority next. -/
def LeavesHighNext (m : Machine) : Move → Prop
  | .act a =>
    match m.cpu with
    | .user _ (some i) => m.table.stops a → m.HighNext (m.table.ready a) i
    | _ => True
  | _ => True

section
variable {m m' : Machine} {p q : Slot} {i : Nat} {a : Act}

/-- What a step outside `scheduler` is: an interrupt at the top of a round, or a step in the process
that the CPU is in. -/
theorem act_cases (h : m.act a = some m') :
    (∃ k, a = .wakeup k ∧ m.cpu = .top ∧ m' = { m with table := m.table.wakeup1 (.other k) }) ∨
      ∃ p back s, m.cpu = .user p back ∧ (a.by = some p ∨ ∃ k, a = .wakeup k) ∧
        next m.table a = some s ∧ m' = m.after p back s := by
  unfold Machine.act at h
  split at h
  · next k hcpu =>
    cases h
    exact .inl ⟨k, rfl, hcpu, rfl⟩
  · next p back k hcpu =>
    cases h
    exact .inr ⟨p, back, _, hcpu, .inr ⟨k, rfl⟩, rfl, rfl⟩
  · next p back hcpu _ =>
    split at h
    · next hby =>
      obtain ⟨s, hs, rfl⟩ := Option.map_eq_some_iff.1 h
      exact .inr ⟨p, back, s, hcpu, .inl hby, hs, rfl⟩
    · cases h
  · cases h

/-- The moves are steps of the process table. -/
theorem table_act (h : m.act a = some m') : next m.table a = some m'.table := by
  rcases act_cases h with ⟨k, rfl, -, rfl⟩ | ⟨p, back, s, -, -, hs, rfl⟩
  · rfl
  · exact hs

/-- What `scheduler` switches to can run. -/
theorem runnable_of_high (h : m.high = some p) : m.High p := by
  unfold Machine.high at h
  split at h
  · cases h
  · simpa using List.find?_some h

theorem not_high_of_none (h : m.high = none) (h0 : m.highpid ≠ 0) (p : Slot) : ¬ m.High p := by
  rw [Machine.high, if_neg h0] at h
  simpa using List.find?_eq_none.1 h p (List.mem_finRange p)

/-- A step of `scheduler` dispatches a process or leaves the table. -/
theorem table_scheduler (h : m.scheduler = some m') :
    m'.table = m.table ∨ ∃ p, next m.table (.dispatch p) = some m'.table := by
  unfold Machine.scheduler at h
  split at h
  · split at h
    · next p hp =>
      cases h
      exact .inr ⟨p, if_pos (runnable_of_high hp).1⟩
    · cases h
      exact .inl rfl
  · split at h
    · split at h
      · next hrun =>
        cases h
        exact .inr ⟨_, if_pos hrun⟩
      · cases h
        exact .inl rfl
    · cases h
      exact .inl rfl
  · cases h

/-- `wakeup1` changes no more than a state. -/
theorem woken_eq (c : Chan) (P : Proc) : (woken c P).state =
        (if P.state = .sleeping ∧ P.chan = some c then .runnable else P.state) ∧
      (woken c P).pid = P.pid ∧ (woken c P).parent = P.parent ∧ (woken c P).chan = P.chan := by
  unfold woken
  split <;> exact ⟨rfl, rfl, rfl, rfl⟩

/-- What can run once the children of `p` are those of `init`. -/
theorem reparent_runnable (s : State) (p q : Slot) :
    (((s.reparent p).proc q).state = .runnable ↔ (s.proc q).state = .runnable ∨
      (s.proc q).state = .sleeping ∧ (s.proc q).chan = some (.proc 0) ∧
        ∃ c, (s.proc c).parent = some p ∧ (s.proc c).state = .zombie) ∧
      ((s.reparent p).proc q).pid = (s.proc q).pid := by
  unfold State.reparent
  split
  · next hz =>
    simp only [State.wakeup1, woken_eq]
    grind
  · next hz =>
    simp only [hz, and_false, or_false]
    split <;> simp

/-- No process has started to run. -/
def NoneStarted (s s' : State) : Prop :=
  ∀ q, (s'.proc q).state = .running → (s.proc q).state = .running

theorem NoneStarted.refl (s : State) : NoneStarted s s := fun _ => id

theorem NoneStarted.set (h : NoneStarted s s') (p : Slot)
    (hP : P.state = .running → (s.proc p).state = .running) : NoneStarted s (s'.set p P) := by
  intro q hq
  rcases eq_or_ne q p with rfl | hne
  · exact hP (by simpa [State.set] using hq)
  · exact h q (by simpa [State.set, update_of_ne hne] using hq)

theorem NoneStarted.wakeup1 (h : NoneStarted s s') (c : Chan) : NoneStarted s (s'.wakeup1 c) := by
  intro q hq
  simp only [State.wakeup1, woken_eq] at hq
  split at hq
  · cases hq
  · exact h q hq

theorem NoneStarted.reparent (h : NoneStarted s s') (p : Slot) : NoneStarted s (s'.reparent p) := by
  intro q hq
  unfold State.reparent at hq
  dsimp only at hq
  split at hq
  · simp only [State.wakeup1, woken_eq] at hq
    refine h q ?_
    grind
  · dsimp only at hq
    split at hq <;> exact h q hq

/-- Only `scheduler` starts processes. -/
theorem noneStarted_next (h : next s a = some s') (ha : ∀ p, a ≠ .dispatch p) :
    NoneStarted s s' := by
  have hrefl := NoneStarted.refl s
  cases step_of_next h with
  | @fork p =>
    unfold fork allocproc
    split
    · exact hrefl
    next q s1 heq =>
    split at heq
    · cases heq
    · cases heq
      have hembryo := hrefl.set q (P := { s.proc q with
        state := .embryo, pid := s.nextpid, code := .user, hit := false }) (by simp)
      exact hembryo.set p fun hp => hembryo p hp
  | forkFails | forkDone => exact (hrefl.set _ (by nofun)).set _ id
  | forkLinks => exact (hrefl.set _ (by exact id)).set _ id
  | exit | wait | fault => exact hrefl.set _ id
  | yield | sleep => exact hrefl.set _ nofun
  | @exited p =>
    unfold State.exited
    refine NoneStarted.set (NoneStarted.reparent ?_ p) p nofun
    split
    · exact hrefl.wakeup1 _
    · exact hrefl
  | @scan p =>
    unfold State.scan
    split
    · next q _ =>
      have hunused := hrefl.set q (P := { s.proc q with
        state := .unused, pid := 0, parent := none, killed := false }) (by simp)
      exact hunused.set p fun hp => hunused p hp
    · split
      · exact hrefl.set p id
      · exact hrefl.set p nofun
  | kill =>
    unfold kill
    split
    · exact hrefl
    refine hrefl.set _ fun hq => ?_
    dsimp only at hq
    split at hq
    · cases hq
    · exact hq
  | wakeup => exact hrefl.wakeup1 _
  | dispatch => exact absurd rfl (ha _)

/-- The steps in which a process goes on. -/
theorem running_of_next (h : next s a = some s') (ha : a.by = some p)
    (hgo : ¬ s.stops a) : (s'.proc p).state = .running := by
  cases step_of_next h with
  | fork hp =>
    cases ha
    have hrun := hp.1.1
    unfold fork allocproc
    split
    · exact hrun
    next q s1 heq =>
    split at heq
    · cases heq
    next r hr =>
    cases heq
    have hq := List.find?_some hr
    have hne : p ≠ q := by
      rintro rfl
      simp [hrun] at hq
    simp [State.set, update_of_ne hne, hrun]
  | forkFails hrun | forkLinks hrun | forkDone hrun =>
    cases ha
    simp [State.forkFails, State.forkLinks, State.forkDone, State.set, hrun]
  | exit hp | wait hp =>
    cases ha
    simp [State.set, hp.1.1]
  | fault hp =>
    cases ha
    simp [State.set, hp.1]
  | scan hp =>
    cases ha
    have hrun := hp.1
    unfold State.scan
    split
    · next q hq =>
      have hne : p ≠ q := by
        rintro rfl
        have := List.find?_some hq
        simp [hrun] at this
      simp [State.set, update_of_ne hne, hrun]
    · next hnone =>
      split
      · simp [State.set, hrun]
      next hsleep =>
      refine absurd ⟨fun q hq => ?_, ?_⟩ hgo
      · have := List.find?_eq_none.1 hnone q (List.mem_finRange q)
        simp [hq] at this
      · simpa [not_or] using hsleep
  | kill hp =>
    cases ha
    have hrun := hp.1.1
    unfold kill
    split
    · exact hrun
    next q _ =>
    rcases eq_or_ne p q with rfl | hne
    · simp [State.set, hrun]
    · simp [State.set, update_of_ne hne, hrun]
  | yield | sleep | exited => exact absurd trivial hgo
  | dispatch | wakeup => cases ha

/-- What a process leaves behind that stops: the processes that are `ready`, with the pids they
had. -/
theorem ready_of_next (h : next s a = some s') (ha : a.by = some p) (hstop : s.stops a) (q : Slot) :
    ((s'.proc q).state = .runnable ↔ s.ready a q) ∧ (s'.proc q).pid = (s.proc q).pid := by
  cases step_of_next h with
  | yield =>
    cases ha
    rcases eq_or_ne q p with rfl | hne
    · simp [State.set, State.ready]
    · simp [State.set, State.ready, hne]
  | sleep hp =>
    cases ha
    rcases eq_or_ne q p with rfl | hne
    · simp [State.set, State.ready, hp.1]
    · simp [State.set, State.ready, update_of_ne hne]
  | scan hp =>
    cases ha
    obtain ⟨hzombie, hchild, hkilled⟩ := hstop
    have hnone : ((List.finRange NPROC).find? fun q =>
        (s.proc q).parent = some p ∧ (s.proc q).state = .zombie) = none :=
      List.find?_eq_none.2 fun q _ => by simpa using hzombie q
    unfold State.scan
    rw [hnone]
    simp only
    rw [if_neg (by simpa [not_or, hkilled] using hchild)]
    rcases eq_or_ne q p with rfl | hne
    · simp [State.set, State.ready, hp.1]
    · simp [State.set, State.ready, update_of_ne hne]
  | exited hp =>
    cases ha
    rcases eq_or_ne q p with rfl | hne
    · cases hpar : (s.proc q).parent <;>
        simp [State.exited, State.set, State.ready, State.wakeup1, hp.1, hpar,
          reparent_runnable, woken_eq]
    simp only [State.exited, State.set, update_of_ne hne, reparent_runnable]
    cases hpar : (s.proc p).parent with
    | none =>
      simp [State.ready, hpar]
    | some r =>
      simp only [State.ready, State.wakeup1, woken_eq, hpar]
      grind
  | _ => exact absurd hstop id

theorem SweepOk.highNext (h : SweepOk m) (hi : m.cpu = .sweep i) :
    m.HighNext (fun q => (m.table.proc q).state = .runnable) i := by
  rw [SweepOk, hi] at h
  exact h

theorem SweepOk.scheduler (h : SweepOk m) (hs : m.scheduler = some m') : SweepOk m' := by
  unfold Machine.scheduler at hs
  split at hs
  · split at hs
    · cases hs
      trivial
    next hnone =>
    cases hs
    -- A sweep starts when none of the high priority can run.
    intro h0 hex
    obtain ⟨p, hp, hpid⟩ := hex
    exact absurd ⟨hp, hpid⟩ (not_high_of_none hnone h0 p)
  · next j hj =>
    split at hs
    · next hlt =>
      split at hs
      · cases hs
        trivial
      next hrun =>
      cases hs
      intro h0 hex q hq hqrun hfirst
      refine h.highNext hj h0 hex q (Nat.le_of_succ_le hq) hqrun fun r hr hrq => ?_
      rcases Nat.eq_or_lt_of_le hr with rfl | hlt'
      · exact hrun
      · exact hfirst r hlt' hrq
    · cases hs
      trivial
  · cases hs

/-- After a step of the process that runs, it still runs or the CPU is not in a process. -/
theorem OneRuns.after {back : Option Nat} (h : m.OneRuns) (hcpu : m.cpu = .user p back)
    (hs : NoneStarted m.table s) : (m.after p back s).OneRuns := by
  intro q
  constructor
  · intro hq
    obtain ⟨b, hb⟩ := (h q).1 (hs q hq)
    rw [hcpu] at hb
    cases hb
    exact ⟨back, if_pos hq⟩
  · rintro ⟨b, hb⟩
    simp only [Machine.after] at hb
    split at hb
    · next hrun =>
      cases hb
      exact hrun
    · cases back <;> cases hb

/-- Once no process runs, the one that is switched to is the only one. -/
theorem OneRuns.switch (h : m.OneRuns) (hcpu : ∀ q b, m.cpu ≠ .user q b) (p : Slot)
    (back : Option Nat) : (m.switch p back).OneRuns := by
  intro q
  rcases eq_or_ne q p with rfl | hne
  · exact ⟨fun _ => ⟨back, rfl⟩, fun _ => by simp [Machine.switch, State.set]⟩
  constructor
  · intro hq
    obtain ⟨b, hb⟩ := (h q).1 (by simpa [Machine.switch, State.set, hne] using hq)
    exact absurd hb (hcpu q b)
  · rintro ⟨b, hb⟩
    cases hb
    exact absurd rfl hne

/-- A move that changes no state of a process and stays out of processes. -/
theorem OneRuns.idle (h : m.OneRuns) (hcpu : ∀ q b, m.cpu ≠ .user q b)
    (hs : NoneStarted m.table s) (hnew : ∀ q b, cpu ≠ .user q b) :
    Machine.OneRuns { m with table := s, cpu } := by
  intro q
  constructor
  · intro hq
    obtain ⟨b, hb⟩ := (h q).1 (hs q hq)
    exact absurd hb (hcpu q b)
  · rintro ⟨b, hb⟩
    exact absurd hb (hnew q b)

theorem OneRuns.scheduler (h : m.OneRuns) (hs : m.scheduler = some m') : m'.OneRuns := by
  unfold Machine.scheduler at hs
  split at hs
  · next hcpu =>
    have hout : ∀ q b, m.cpu ≠ .user q b := by simp [hcpu]
    split at hs
    · cases hs
      exact OneRuns.switch h hout _ _
    · cases hs
      exact OneRuns.idle h hout (.refl _) nofun
  · next hcpu =>
    have hout : ∀ q b, m.cpu ≠ .user q b := by simp [hcpu]
    split at hs
    · split at hs
      · cases hs
        exact OneRuns.switch h hout _ _
      · cases hs
        exact OneRuns.idle h hout (.refl _) nofun
    · cases hs
      exact OneRuns.idle h hout (.refl _) nofun
  · cases hs

theorem OneRuns.act (h : m.OneRuns) (hs : m.act a = some m') : m'.OneRuns := by
  rcases act_cases hs with ⟨k, rfl, hcpu, rfl⟩ | ⟨p, back, s, hcpu, hby, hnext, rfl⟩
  · exact OneRuns.idle h (by simp [hcpu]) (.wakeup1 (.refl _) _) (by simp [hcpu])
  refine OneRuns.after h hcpu (noneStarted_next hnext ?_)
  rintro q rfl
  rcases hby with hby | ⟨k, hk⟩
  · cases hby
  · cases hk

theorem OneRuns.step (h : m.OneRuns) (hs : m.next c = some m') : m'.OneRuns := by
  cases c with
  | scheduler => exact OneRuns.scheduler h hs
  | act a => exact OneRuns.act h hs
  | setHighPrio =>
    simp only [Machine.next] at hs
    split at hs
    · split at hs
      · cases hs
        exact h
      · cases hs
    · cases hs

/-- A step of a process, after which a sweep may go on. -/
theorem SweepOk.act (h1 : m.OneRuns) (hG : LeavesHighNext m (.act a)) (h : m.act a = some m') :
    SweepOk m' := by
  rcases act_cases h with ⟨k, rfl, hcpu, rfl⟩ | ⟨p, back, s, hcpu, hby, hnext, rfl⟩
  · rw [SweepOk, show _ = _ from hcpu]
    trivial
  by_cases hstop : m.table.stops a
  · have hby : a.by = some p := by
      rcases hby with hby | ⟨k, rfl⟩
      · exact hby
      · exact absurd hstop id
    have hready := ready_of_next hnext hby hstop
    unfold Machine.after
    split
    · trivial
    cases back with
    | none => trivial
    | some i =>
      rw [LeavesHighNext, hcpu] at hG
      have hhigh := hG hstop
      simpa only [SweepOk, Machine.returns, Machine.HighNext, hready] using hhigh
  · have hrun : (s.proc p).state = .running := by
      rcases hby with hby | ⟨k, rfl⟩
      · exact running_of_next hnext hby hstop
      · cases hnext
        have hp := (h1 p).2 ⟨back, hcpu⟩
        simp [State.wakeup1, woken_eq, hp]
    rw [SweepOk, Machine.after, if_pos hrun]
    trivial

theorem SweepOk.step (h1 : m.OneRuns) (h : SweepOk m) (hG : LeavesHighNext m c)
    (hs : m.next c = some m') : SweepOk m' := by
  cases c with
  | scheduler => exact h.scheduler hs
  | act a => exact .act h1 hG hs
  | setHighPrio =>
    simp only [Machine.next] at hs
    split at hs
    · next hcpu =>
      split at hs
      · cases hs
        rw [SweepOk, show _ = _ from hcpu]
        trivial
      · cases hs
    · cases hs

theorem SweepOk.notPassedOver (h : SweepOk m) : NotPassedOver m := by
  intro q hq h0 hex
  unfold Machine.choice at hq
  split at hq
  · exact (runnable_of_high hq).2
  · next i hi =>
    split at hq
    · split at hq
      · next hlt hrun =>
        cases hq
        exact h.highNext hi h0 hex ⟨i, hlt⟩ le_rfl hrun fun r hr hrq => absurd hrq (not_lt.2 hr)
      · cases hq
    · cases hq
  · cases hq

end

theorem oneRuns_initial : Machine.OneRuns { table := initial, highpid := 0, cpu := .top } := by
  intro p
  refine ⟨fun h => ?_, fun ⟨_, h⟩ => by cases h⟩
  simp only [initial] at h
  split at h <;> cases h

/-- In every run in which a process that switches back to a sweep leaves a process of the high
priority next, if one can run, `scheduler` passes none over. -/
theorem high_not_passed_over {m : Machine} (h : (machine.restrict LeavesHighNext).Reach m) :
    NotPassedOver m := by
  have hI : m.OneRuns ∧ SweepOk m := by
    refine h.invariant (I := fun m => m.OneRuns ∧ SweepOk m) (fun m hi => ?_) fun m c m' hI hs => ?_
    · rw [show m = _ from hi]
      exact ⟨oneRuns_initial, trivial⟩
    · exact ⟨OneRuns.step hI.1 hs.2, hI.2.step hI.1 hs.1 hs.2⟩
  exact hI.2.notPassedOver

instance (m : Machine) (R : Slot → Prop) [DecidablePred R] (i : Nat) :
    Decidable (m.HighNext R i) :=
  inferInstanceAs (Decidable (_ → (∃ p, R p ∧ _) → ∀ _ : Slot, _ → _ →
    (∀ _ : Slot, _ → _ → _) → _))

instance (s : State) : (a : Act) → Decidable (s.stops a)
  | .yield _ | .sleep _ _ | .exited _ => inferInstanceAs (Decidable True)
  | .scan _ => inferInstanceAs (Decidable (_ ∧ _ ∧ _))
  | .fork _ | .forkFails _ | .forkLinks _ | .forkDone _ | .exit _ | .wait _ | .kill _ _ | .fault _
  | .dispatch _ | .wakeup _ => inferInstanceAs (Decidable False)

instance (s : State) : (a : Act) → DecidablePred (s.ready a)
  | .yield _ => fun _ => inferInstanceAs (Decidable (_ ∨ _))
  | .exited _ => fun _ => inferInstanceAs (Decidable (_ ∨ _ ∧ ∃ _ : Slot, _))
  | .sleep _ _ | .scan _ | .fork _ | .forkFails _ | .forkLinks _ | .forkDone _ | .exit _ | .wait _
  | .kill _ _ | .fault _ | .dispatch _ | .wakeup _ => fun q =>
    inferInstanceAs (Decidable ((s.proc q).state = .runnable))

instance (m : Machine) (c : Move) : Decidable (LeavesHighNext m c) := by
  unfold LeavesHighNext
  split
  · split <;> infer_instance
  · infer_instance

/-- `init` forks a child and gives way to it; the child calls `setHighPrio` and gives way at the end
of the sweep. -/
def childIsHigh : List Move :=
  [.scheduler, .scheduler, .act (.fork 0), .act (.forkLinks 0), .act (.forkDone 0),
    .act (.yield 0), .scheduler, .setHighPrio, .act (.yield 1)] ++
  List.replicate 64 .scheduler

/-- `high_not_passed_over` on the run of `childIsHigh`, at whose end `scheduler` has switched to the
child although `init` comes first in the table. -/
theorem high_not_passed_over_childIsHigh : ∃ m, (machine.restrict LeavesHighNext).Reach m ∧
    (m.table.proc 0).state = .runnable ∧ m.cpu = .user 1 none ∧ NotPassedOver m := by
  obtain ⟨m, hreach, h1, h2⟩ := machine.exists_reach LeavesHighNext Machine.next
    { table := initial, highpid := 0, cpu := .top } childIsHigh
    (Q := fun m => (m.table.proc 0).state = .runnable ∧ m.cpu = .user 1 none) rfl rfl
    (by decide +kernel)
  exact ⟨m, hreach, h1, h2, high_not_passed_over hreach⟩

/-- `init` forks a child, calls `setHighPrio` and gives way. -/
def initIsHigh : List Move :=
  [.scheduler, .scheduler, .act (.fork 0), .act (.forkLinks 0), .act (.forkDone 0), .setHighPrio,
    .act (.yield 0)]

/-- `scheduler` switches to the child next, though `init` is of the high priority and can run. -/
theorem high_passed_over : ∃ m, machine.Reach m ∧ m.highpid = 1 ∧ m.High 0 ∧ m.choice = some 1 ∧
    (m.table.proc 1).pid = 2 ∧ ¬ NotPassedOver m := by
  obtain ⟨m, hreach, h1, h2, h3, h4⟩ := machine.exists_run Machine.next
    { table := initial, highpid := 0, cpu := .top } initIsHigh
    (Q := fun m => m.highpid = 1 ∧ m.High 0 ∧ m.choice = some 1 ∧ (m.table.proc 1).pid = 2) rfl rfl
    (by decide +kernel)
  refine ⟨m, hreach, h1, h2, h3, h4, fun h => ?_⟩
  have := h 1 h3 (by rw [h1]; decide) ⟨0, h2⟩
  rw [h1, h4] at this
  cases this

end Msboss.Ptable
