import Msboss.Log.Ops

/-!
# What a commit contains

The operations of `Log.Ops` with `commit` taken apart: `write_log` copies one block at a time,
`write_head` writes the header, `install_trans` copies one block at a time, `lh.n` is cleared and
the header is written again, and every other process may go on in between. Operations are numbered
as they are admitted, and three histories are kept: what each operation has logged, what has been
logged since the last commit and by whom, and the transactions that were written.

A run of this system is a run of `Log.system` in which the steps of a commit up to the clearing of
`lh.n` happen at once (`base_reach`), so what the counters say there is true here. `Whole` is what
the histories add: an operation that runs has everything it logged in the transaction that is being
collected, and one that is in a written transaction has ended. By the counters, too, nobody sleeps
in `begin_op` on a log that is not in use (`sleeper_awaits_op`).
-/

namespace Msboss.Log

open Function

/-! ## The model -/

/-- Where a process is in `commit`. -/
inductive Phase
  | start
  | writeLog (tail : Nat)
  | writeHead
  | install (tail : Nat)
  | clear
  | erase
  | done
  deriving DecidableEq, Repr

/-- What `write_head` commits: the block numbers of the header, the blocks that the log blocks are
copies of, and which operations had logged what. -/
structure Transaction where
  blocks : List Nat
  copied : List Nat
  records : List (Nat × Nat)
  deriving DecidableEq, Repr

/-- The log with the steps of `commit` and the histories. -/
structure Journal where
  base : State
  phase : Nat → Phase
  /-- The block that each log block is a copy of. -/
  area : Nat → Nat
  /-- The number of the operation that a process runs. -/
  num : Nat → Nat
  begun : Nat
  /-- What an operation has logged. -/
  logged : Nat → List Nat
  /-- What was logged since the last commit. -/
  records : List (Nat × Nat)
  written : List Transaction

namespace Journal

def start : Journal where
  base := initial
  phase _ := .done
  area _ := 0
  num _ := 0
  begun := 0
  logged _ := []
  records := []
  written := []

/-- Process `p` goes on at `c` in `commit`. -/
def goto (s : Journal) (p : Nat) (c : Phase) : Journal :=
  { s with phase := update s.phase p c }

/-- An operation that is admitted gets the next number. -/
def begin_op (s : Journal) (p : Nat) : Journal :=
  if s.base.log.admits then
    { s with base := s.base.begin_op p, num := update s.num p s.begun, begun := s.begun + 1 }
  else { s with base := s.base.begin_op p }

def log_write (s : Journal) (p : Nat) (passed : List Nat) (b : Nat) : Journal :=
  { s with base := s.base.log_write p passed b }

def record (s : Journal) (p : Nat) (passed : List Nat) (b : Nat) : Journal :=
  { s with
    base := s.base.record p passed b
    logged := update s.logged (s.num p) (s.logged (s.num p) ++ [b])
    records := s.records ++ [(s.num p, b)] }

def end_op (s : Journal) (p : Nat) : Journal :=
  { s.goto p .start with base := s.base.end_op p }

/-- What `write_head` commits. -/
def transaction (s : Journal) : Transaction :=
  ⟨s.base.log.block, (List.range s.base.log.n).map s.area, s.records⟩

/-- A step of `commit`. -/
def commit (s : Journal) (p : Nat) : Journal :=
  let lh := s.base.log
  match s.phase p with
  | .start =>
    if lh.n > 0 then s.goto p (.writeLog 0)
    else { s.goto p .done with base := s.base.commit p }
  | .writeLog tail =>
    if tail < lh.n then
      { s.goto p (.writeLog (tail + 1)) with
        area := update s.area tail (lh.block.getD tail 0) }
    else s.goto p .writeHead
  | .writeHead =>
    { s.goto p (.install 0) with written := s.written ++ [s.transaction] }
  | .install tail => s.goto p (if tail < lh.n then .install (tail + 1) else .clear)
  | .clear => { s.goto p .erase with base := s.base.commit p, records := [] }
  | .erase | .done => s.goto p .done

def finish (s : Journal) (p : Nat) : Journal := { s with base := s.base.finish p }

/-- One step; the label `commit` stands for one step of `commit`. -/
def next (s : Journal) : Act → Option Journal
  | .begin_op p => if s.base.panic = none ∧ (s.base.pc p = .out ∨ s.base.pc p = .awake) then
      some (s.begin_op p) else none
  | .log_write p b => match s.base.panic, s.base.pc p with
    | none, .op passed => some (s.log_write p passed b)
    | _, _ => none
  | .record p => match s.base.panic, s.base.pc p with
    | none, .logging passed b => some (s.record p passed b)
    | _, _ => none
  | .end_op p => match s.base.panic, s.base.pc p with
    | none, .op _ => some (s.end_op p)
    | _, _ => none
  | .commit p =>
    if s.base.panic = none ∧
        (s.base.pc p = .commit ∨ s.base.pc p = .committed ∧ s.phase p = .erase) then
      some (s.commit p) else none
  | .finish p =>
    if s.base.panic = none ∧ s.base.pc p = .committed ∧ s.phase p = .done then
      some (s.finish p) else none

/-- Every interleaving of the operations and the steps of `commit`. -/
def system : System Journal Act := .ofNext (· = start) next

end Journal

/-- The step is one of `log_write`. -/
def Act.logs : Act → Prop
  | .log_write _ _ | .record _ => True
  | _ => False

/-- The transaction has everything that operation `o` has logged, or nothing. -/
def Transaction.AllOrNone (t : Transaction) (logged : List Nat) (o : Nat) : Prop :=
  (∀ b ∈ logged, (o, b) ∈ t.records) ∨ ∀ b, (o, b) ∉ t.records

/-- What the log promises. -/
structure Journal.Atomic (s : Journal) : Prop where
  quiet : s.base.log.committing = true → s.base.log.outstanding = 0 ∧
    ∀ a s', s.next a = some s' → ¬ a.logs
  whole : ∀ t ∈ s.written, ∀ o, t.AllOrNone (s.logged o) o
  /-- The header and the log blocks have the blocks that were logged, and no others. -/
  contents : ∀ t ∈ s.written, t.copied = t.blocks ∧ ∀ b, b ∈ t.blocks ↔ ∃ o, (o, b) ∈ t.records
  empty : s.base.log.outstanding = 0 → s.base.log.committing = false → s.base.log.n = 0
  panics : s.base.panic ≠ some .committing ∧ s.base.panic ≠ some .outsideTrans

/-! ## The counters -/

/-- What the counters of the log say in every state of it. -/
structure Balanced (s : State) (A : Finset Nat) : Prop where
  ledger : Ledger s A
  empty : s.log.outstanding = 0 → s.log.committing = false → s.log.block = []
  committed : ∀ p, s.pc p = .committed → s.log.block = []
  panics : s.panic ≠ some .committing ∧ s.panic ≠ some .outsideTrans

section
variable {s s' : State} {A : Finset Nat} {p : Nat}

theorem balanced_initial : Balanced initial ∅ where
  ledger := ledger_initial
  empty _ _ := rfl
  committed _ _ := rfl
  panics := ⟨nofun, nofun⟩

theorem Ledger.outstanding_pos (h : Ledger s A) (hp : (s.pc p).inOp) : 0 < s.log.outstanding := by
  have hcard : 0 < A.card := Finset.card_pos.2 ⟨p, (h.mem p).1 hp⟩
  rw [h.count]
  exact_mod_cast hcard

theorem not_committed_of_inOp (h : Ledger s A) (hp : (s.pc p).inOp) (q : Nat) :
    s.pc q ≠ .committed := by
  intro hq
  exact (h.no_commit hp).2 q (by rw [hq]; trivial)

theorem Balanced.begin_op (h : Balanced s A) (hp : s.pc p = .out ∨ s.pc p = .awake) :
    ∃ A', Balanced (s.begin_op p) A' := by
  cases ha : s.log.admits with
  | true =>
    obtain ⟨-, hL⟩ := h.ledger.begin_op_admitted hp ha
    have hin : ((s.begin_op p).pc p).inOp := by simp [State.begin_op, ha, Pc.inOp]
    refine ⟨_, hL, fun h0 => ?_, fun q hq => ?_, by simpa [State.begin_op, ha] using h.panics⟩
    · exact absurd h0 (hL.outstanding_pos hin).ne'
    · exact absurd hq (not_committed_of_inOp hL hin q)
  | false =>
    have hs : s.begin_op p = s.goto p .asleep := by simp [State.begin_op, ha]
    have hL := h.ledger.begin_op_refused hp ha
    rw [hs] at hL ⊢
    refine ⟨A, hL, h.empty, fun q hq => h.committed q ?_, h.panics⟩
    rcases eq_or_ne q p with rfl | hqp
    · simp at hq
    · simpa [hqp] using hq

theorem Balanced.log_write (h : Balanced s A) (hp : s.pc p = .op passed)
    (b : Nat) : Balanced (s.log_write p passed b) A := by
  have hin : (s.pc p).inOp := by simp [hp, Pc.inOp]
  have hpos := h.ledger.outstanding_pos hin
  unfold State.log_write
  split
  · exact ⟨⟨h.ledger.mem, h.ledger.count, h.ledger.logged, h.ledger.committing, h.ledger.idle,
      h.ledger.one⟩, h.empty, h.committed, (fun h => by cases h), fun h => by cases h⟩
  rw [if_neg (by omega)]
  refine ⟨h.ledger.log_write hp b, h.empty, fun q hq => h.committed q ?_, h.panics⟩
  rcases eq_or_ne q p with rfl | hqp
  · simp at hq
  · simpa [hqp] using hq

theorem Balanced.record (h : Balanced s A)
    (hp : s.pc p = .logging passed b) : Balanced (s.record p passed b) A := by
  have hL := h.ledger.record hp
  have hin : ((s.record p passed b).pc p).inOp := by simp [State.record, Pc.inOp]
  refine ⟨hL, fun h0 => ?_, fun q hq => ?_, h.panics⟩
  · exact absurd h0 (hL.outstanding_pos hin).ne'
  · exact absurd hq (not_committed_of_inOp hL hin q)

theorem Balanced.end_op (h : Balanced s A) (hp : s.pc p = .op passed) :
    Balanced (s.end_op p) (A.erase p) := by
  have hin : (s.pc p).inOp := by simp [hp, Pc.inOp]
  obtain ⟨hpanic, hL⟩ := h.ledger.end_op hp
  have hc := (h.ledger.no_commit hin).1
  refine ⟨hL, ?_, fun q hq => ?_, hpanic ▸ h.panics⟩
  · simp only [State.end_op, hc, Bool.false_eq_true, if_false]
    split
    · intro _ hcomm
      cases hcomm
    · next h0 =>
      intro h0'
      exact absurd h0' h0
  · refine absurd hq ?_
    have hno := not_committed_of_inOp h.ledger hin q
    simp only [State.end_op, hc, Bool.false_eq_true, if_false]
    split
    · rcases eq_or_ne q p with rfl | hqp
      · simp
      · simpa [hqp] using hno
    rcases eq_or_ne q p with rfl | hqp
    · simp
    simp only [State.goto_pc, update_of_ne hqp, State.wakeup]
    split
    · intro h
      cases h
    · exact hno

theorem Balanced.commit (h : Balanced s A) (hp : s.pc p = .commit) : Balanced (s.commit p) ∅ :=
  ⟨(h.ledger.commit hp).2, fun _ _ => rfl, fun _ _ => rfl, h.panics⟩

theorem Balanced.finish (h : Balanced s A) (hp : s.pc p = .committed) : Balanced (s.finish p) ∅ :=
  ⟨(h.ledger.finish hp).2, fun _ _ => h.committed p hp, fun _ _ => h.committed p hp, h.panics⟩

/-- Every step keeps the counters right. -/
theorem Balanced.step (h : Balanced s A) (hs : Log.next s a = some s') : ∃ A', Balanced s' A' := by
  cases (step_of_next hs).2 with
  | begin_op hp => exact h.begin_op hp
  | log_write hp => exact ⟨A, h.log_write hp _⟩
  | record hp => exact ⟨A, h.record hp⟩
  | end_op hp => exact ⟨_, h.end_op hp⟩
  | commit hp => exact ⟨∅, h.commit hp⟩
  | finish hp => exact ⟨∅, h.finish hp⟩

end

theorem exists_balanced (h : Log.system.Reach s) : ∃ A, Balanced s A := by
  refine h.invariant (I := fun s => ∃ A, Balanced s A) (fun s hi => ?_) fun s a s' hI hs => ?_
  · rw [show s = initial from hi]
    exact ⟨∅, balanced_initial⟩
  · obtain ⟨A, hA⟩ := hI
    exact hA.step hs

/-! ## Sleepers -/

/-- Who sleeps in `begin_op` waits for the end of an operation or of a commit, where it is woken. -/
def Awaited (s : State) : Prop :=
  ∀ p, s.pc p = .asleep → (∃ q, (s.pc q).inOp) ∨ s.log.committing = true

section
variable {s s' : State} {A : Finset Nat} {p : Nat} {c : Pc}

/-- Process `p` goes on in an operation, or commits. -/
theorem Awaited.goto (h : c.inOp ∨ l.committing = true) : Awaited ({ s with log := l }.goto p c) :=
  fun _ _ => h.imp_left fun hin => ⟨p, by simpa using hin⟩

/-- Everybody is awake. -/
theorem Awaited.wakeup : Awaited (s.wakeup.goto p .out) := by
  intro q hq
  rcases eq_or_ne q p with rfl | hqp
  · simp at hq
  · simp only [State.goto_pc, update_of_ne hqp, State.wakeup] at hq
    split at hq
    · cases hq
    · next hne => exact absurd hq hne

theorem Awaited.begin_op (hb : Balanced s A) (hp : s.pc p = .out ∨ s.pc p = .awake) :
    Awaited (s.begin_op p) := by
  cases ha : s.log.admits with
  | true =>
    rw [State.begin_op, if_pos ha]
    exact .goto (c := .op []) (.inl trivial)
  | false =>
    rw [State.begin_op, if_neg (by simp [ha])]
    intro _ _
    by_contra! hno
    obtain ⟨hout, hcomm⟩ := hno
    -- a log that nobody uses is empty and admits the process
    have hA : A = ∅ := Finset.eq_empty_of_forall_notMem fun q hq => by
      have hin := (hb.ledger.mem q).2 hq
      refine hout q ?_
      rcases eq_or_ne q p with rfl | hqp
      · rcases hp with hp | hp <;> simp [hp, Pc.inOp] at hin
      · simpa [hqp] using hin
    have hcomm : s.log.committing = false := Bool.eq_false_iff.2 hcomm
    have h0 : s.log.outstanding = 0 := by rw [hb.ledger.count, hA]; rfl
    simp [Vars.admits, hcomm, h0, Vars.n, hb.empty h0 hcomm, MAXOPBLOCKS, LOGSIZE] at ha

theorem Awaited.step (h : Awaited s) (hb : Balanced s A) (hs : next s a = some s') :
    Awaited s' := by
  cases (step_of_next hs).2 with
  | begin_op hp => exact .begin_op hb hp
  | log_write hp =>
    unfold State.log_write
    split
    · exact h
    split
    · exact h
    · exact .goto (c := .logging _ _) (.inl trivial)
  | record hp => exact .goto (c := .op _) (.inl trivial)
  | @end_op p _ hp =>
    have hc := (hb.ledger.no_commit (by simp [hp, Pc.inOp] : (s.pc p).inOp)).1
    simp only [State.end_op, hc, Bool.false_eq_true, if_false]
    split
    · exact .goto (.inr rfl)
    · exact .wakeup
  | commit hp => exact .goto (.inr (hb.ledger.committing _ (by rw [hp]; trivial)))
  | finish => exact .wakeup

end

/-- **No process sleeps on a log that nobody uses**, in any interleaving of operations. -/
theorem sleeper_awaits_op {s : State} (h : system.Reach s) : Awaited s := by
  have hI : (∃ A, Balanced s A) ∧ Awaited s := by
    refine h.invariant (I := fun s => (∃ A, Balanced s A) ∧ Awaited s) (fun s hi => ?_)
      fun s a s' hI hs => ?_
    · rw [show s = initial from hi]
      refine ⟨⟨∅, balanced_initial⟩, fun p hp => ?_⟩
      cases hp
    · obtain ⟨⟨A, hA⟩, hI⟩ := hI
      exact ⟨hA.step hs, hI.step hA hs⟩
  exact hI.2

/-- `sleeper_awaits_op` for the fourth of four operations. -/
theorem sleeper_awaits_op_fourth : ∃ s, system.Reach s ∧ s.pc 3 = .asleep ∧ Awaited s := by
  obtain ⟨s, hreach, h1⟩ := system.exists_run next initial
    [.begin_op 0, .begin_op 1, .begin_op 2, .begin_op 3] (Q := fun s => s.pc 3 = .asleep) rfl rfl
    (by decide +kernel)
  exact ⟨s, hreach, h1, sleeper_awaits_op hreach⟩

/-! ## The steps -/

/-- How many log blocks the process has written, of `n`. -/
def Phase.copied (n : Nat) : Phase → Nat
  | .writeLog tail => tail
  | .writeHead => n
  | _ => 0

namespace Journal

/-- One of the six steps, taken by a process that is at it. -/
inductive Step (s : Journal) : Act → Journal → Prop
  | begin_op : s.base.pc p = .out ∨ s.base.pc p = .awake → Step s (.begin_op p) (s.begin_op p)
  | log_write : s.base.pc p = .op passed → Step s (.log_write p b) (s.log_write p passed b)
  | record : s.base.pc p = .logging passed b → Step s (.record p) (s.record p passed b)
  | end_op : s.base.pc p = .op passed → Step s (.end_op p) (s.end_op p)
  | commit : s.base.pc p = .commit ∨ s.base.pc p = .committed ∧ s.phase p = .erase →
      Step s (.commit p) (s.commit p)
  | finish : s.base.pc p = .committed → Step s (.finish p) (s.finish p)

section
variable {s s' : Journal} {a : Act} {p q : Nat}

/-- Steps are taken while nothing has panicked. -/
theorem step_of_next (h : s.next a = some s') : s.base.panic = none ∧ Step s a s' := by
  cases a with
  | begin_op p =>
    obtain ⟨⟨hpanic, hp⟩, rfl⟩ : (s.base.panic = none ∧ _) ∧ s.begin_op p = s' := by
      simpa [next] using h
    exact ⟨hpanic, .begin_op hp⟩
  | log_write p b =>
    simp only [next] at h
    split at h <;> cases h
    next hp hc => exact ⟨hp, .log_write hc⟩
  | record p =>
    simp only [next] at h
    split at h <;> cases h
    next hp hc => exact ⟨hp, .record hc⟩
  | end_op p =>
    simp only [next] at h
    split at h <;> cases h
    next hp hc => exact ⟨hp, .end_op hc⟩
  | commit p =>
    obtain ⟨⟨hpanic, hp⟩, rfl⟩ : (s.base.panic = none ∧ _) ∧ s.commit p = s' := by
      simpa [next] using h
    exact ⟨hpanic, .commit hp⟩
  | finish p =>
    obtain ⟨⟨hpanic, hp⟩, rfl⟩ : (s.base.panic = none ∧ _) ∧ s.finish p = s' := by
      simpa [next] using h
    exact ⟨hpanic, .finish hp.1⟩

/-- A step of `commit` leaves the counters alone or clears `lh.n`. -/
theorem commit_base (s : Journal) (p : Nat) : (s.commit p).base = s.base ∨
      (s.phase p = .start ∨ s.phase p = .clear) ∧ (s.commit p).base = s.base.commit p := by
  unfold commit
  cases hph : s.phase p with
  | start =>
    dsimp only
    split
    · exact .inl rfl
    · exact .inr ⟨.inl rfl, rfl⟩
  | writeLog tail =>
    dsimp only
    split <;> exact .inl rfl
  | clear => exact .inr ⟨.inr rfl, rfl⟩
  | writeHead | install tail | erase | done => exact .inl rfl

/-- The counters go through a run of `Log.system`. -/
theorem base_step (h : s.next a = some s') :
    s'.base = s.base ∨ Log.next s.base a = some s'.base := by
  obtain ⟨hpanic, hstep⟩ := step_of_next h
  cases hstep with
  | begin_op hp =>
    right
    rw [Log.next, if_pos ⟨hpanic, hp⟩]
    unfold begin_op
    split <;> rfl
  | log_write hp | record hp | end_op hp =>
    right
    simp only [Log.next, hpanic, hp]
    rfl
  | @commit p hp =>
    rcases commit_base s p with hb | ⟨hph, hb⟩
    · exact .inl hb
    right
    rcases hp with hp | ⟨-, he⟩
    · rw [Log.next, if_pos ⟨hpanic, hp⟩, hb]
    · rcases hph with hph | hph <;> rw [hph] at he <;> cases he
  | finish hp =>
    right
    rw [Log.next, if_pos ⟨hpanic, hp⟩]
    rfl

theorem base_reach (h : system.Reach s) : Log.system.Reach s.base := by
  induction h with
  | init hi =>
    rw [show _ = start from hi]
    exact .init rfl
  | step _ hs ih =>
    rcases base_step hs with hb | hb
    · rw [hb]
      exact ih
    · exact .step ih hb

/-! ## The histories -/

/-- What the histories say. -/
structure Whole (s : Journal) : Prop where
  /-- Every running operation has a number of its own. -/
  num_lt : ∀ {p}, (s.base.pc p).inOp → s.num p < s.begun
  num_inj : ∀ {p q}, (s.base.pc p).inOp → (s.base.pc q).inOp → s.num p = s.num q → p = q
  unused : ∀ {o}, s.begun ≤ o → s.logged o = []
  /-- What was logged since the last commit is in the transaction, and what a running operation has
  logged was logged since then. -/
  blocks : ∀ {b}, b ∈ s.base.log.block ↔ ∃ o, (o, b) ∈ s.records
  known : ∀ {o b}, (o, b) ∈ s.records → o < s.begun
  together : ∀ {o b c}, (o, b) ∈ s.records → c ∈ s.logged o → (o, c) ∈ s.records
  running : ∀ {p c}, (s.base.pc p).inOp → c ∈ s.logged (s.num p) → (s.num p, c) ∈ s.records
  copied : ∀ {p i}, s.base.pc p = .commit → i < (s.phase p).copied s.base.log.n →
    s.area i = s.base.log.block.getD i 0
  /-- An operation in a written transaction has ended. -/
  closed : ∀ {t o b}, t ∈ s.written → (o, b) ∈ t.records →
    o < s.begun ∧ ∀ {p}, (s.base.pc p).inOp → s.num p ≠ o
  whole : ∀ {t o b c}, t ∈ s.written → (o, b) ∈ t.records → c ∈ s.logged o → (o, c) ∈ t.records
  contents : ∀ {t}, t ∈ s.written → t.copied = t.blocks ∧
    ∀ b, b ∈ t.blocks ↔ ∃ o, (o, b) ∈ t.records

theorem whole_start : start.Whole where
  num_lt hp := hp.elim
  num_inj hp := hp.elim
  unused _ := rfl
  blocks := by simp [start, initial]
  known := nofun
  together := nofun
  running hp := hp.elim
  copied := nofun
  closed := nofun
  whole := nofun
  contents := nofun

/-- A step that logs nothing and after which no new operation runs. -/
theorem Whole.same (h : s.Whole)
    (hblock : b.log.block = s.base.log.block) (hin : ∀ {q}, (b.pc q).inOp → (s.base.pc q).inOp)
    (hcopied : ∀ {q i}, b.pc q = .commit → i < (c q).copied s.base.log.n →
      f i = s.base.log.block.getD i 0) : { s with base := b, phase := c, area := f }.Whole where
  num_lt hq := h.num_lt (hin hq)
  num_inj hp hq := h.num_inj (hin hp) (hin hq)
  unused := h.unused
  blocks := by
    dsimp only
    rw [hblock]
    exact h.blocks
  known := h.known
  together := h.together
  running hq := h.running (hin hq)
  copied hq hi := by
    dsimp only [Vars.n] at hi ⊢
    rw [hblock] at hi ⊢
    exact hcopied hq hi
  closed ht ho := ⟨(h.closed ht ho).1, fun hq => (h.closed ht ho).2 (hin hq)⟩
  whole := h.whole
  contents := h.contents

theorem goto_phase_self (s : Journal) (p : Nat) (c : Phase) : (s.goto p c).phase p = c :=
  update_self ..

theorem inCommit_of_commit {b : State} (hp : b.pc p = .commit) : (b.pc p).inCommit := by
  rw [hp]
  trivial

/-- No process commits while an operation runs. -/
theorem not_commit (hL : Ledger b A) (hp : (b.pc p).inOp) (q : Nat) : b.pc q ≠ .commit := by
  intro hq
  exact (hL.no_commit hp).2 q (inCommit_of_commit hq)

theorem Whole.begin_op (h : s.Whole) (hL : Ledger s.base A)
    (hp : s.base.pc p = .out ∨ s.base.pc p = .awake) : (s.begin_op p).Whole := by
  unfold Journal.begin_op
  split
  · next ha =>
    obtain ⟨hpA, hL'⟩ := hL.begin_op_admitted hp ha
    have hpc : (s.base.begin_op p).pc = update s.base.pc p (.op []) := by
      simp [State.begin_op, ha]
    have hblock : (s.base.begin_op p).log.block = s.base.log.block := by
      simp [State.begin_op, ha]
    have hin {q : Nat} (hq : ((s.base.begin_op p).pc q).inOp) : q = p ∨ q ≠ p ∧
        (s.base.pc q).inOp := by
      rw [hpc, update_apply] at hq
      split at hq
      · next hqp => exact .inl hqp
      · next hqp => exact .inr ⟨hqp, hq⟩
    have hnum {q : Nat} (hq : q ≠ p) : update s.num p s.begun q = s.num q :=
      update_of_ne hq _ _
    constructor
    case num_lt =>
      intro q hq
      dsimp only
      rcases hin hq with rfl | ⟨hqp, hq⟩
      · rw [update_self]
        exact Nat.lt_succ_self _
      · rw [hnum hqp]
        exact (h.num_lt hq).trans (Nat.lt_succ_self _)
    case num_inj =>
      intro q r hq hr
      dsimp only
      rcases hin hq with rfl | ⟨hqp, hq'⟩ <;> rcases hin hr with rfl | ⟨hrp, hr'⟩
      · exact fun _ => rfl
      · rw [update_self, hnum hrp]
        exact fun he => absurd he (h.num_lt hr').ne'
      · rw [update_self, hnum hqp]
        exact fun he => absurd he (h.num_lt hq').ne
      · rw [hnum hqp, hnum hrp]
        exact h.num_inj hq' hr'
    case unused => exact fun ho => h.unused (Nat.le_of_succ_le ho)
    case blocks =>
      dsimp only
      rw [hblock]
      exact h.blocks
    case known => exact fun ho => (h.known ho).trans (Nat.lt_succ_self _)
    case together => exact h.together
    case running =>
      intro q c hq hc
      dsimp only at hc ⊢
      rcases hin hq with rfl | ⟨hqp, hq⟩
      · rw [update_self, h.unused le_rfl] at hc
        cases hc
      · rw [hnum hqp] at hc ⊢
        exact h.running hq hc
    case copied =>
      intro q i hq
      exact absurd hq (not_commit hL' (p := p) (by simp [hpc, Pc.inOp]) q)
    case closed =>
      intro t o b ht ho
      obtain ⟨hlt, hne⟩ := h.closed ht ho
      refine ⟨hlt.trans (Nat.lt_succ_self _), fun {q} hq => ?_⟩
      dsimp only
      rcases hin hq with rfl | ⟨hqp, hq⟩
      · rw [update_self]
        exact hlt.ne'
      · rw [hnum hqp]
        exact hne hq
    case whole => exact h.whole
    case contents => exact h.contents
  · next ha =>
    have hs : s.base.begin_op p = s.base.goto p .asleep := by simp [State.begin_op, ha]
    have hpc (q : Nat) : (s.base.begin_op p).pc q = if q = p then .asleep else s.base.pc q := by
      rw [hs, State.goto_pc, update_apply]
    refine h.same (by rw [hs]; rfl) (fun {q} hq => ?_) fun {q i} hq hi => ?_
    · rw [hpc] at hq
      split at hq
      · exact hq.elim
      · exact hq
    · rw [hpc] at hq
      split at hq
      · cases hq
      · exact h.copied hq hi

theorem Whole.log_write (h : s.Whole) (hp : s.base.pc p = .op passed)
    (b : Nat) : (s.log_write p passed b).Whole := by
  have hlog : (s.base.log_write p passed b).log = s.base.log := by
    unfold State.log_write
    split
    · rfl
    · split <;> rfl
  have hpc (q : Nat) : (s.base.log_write p passed b).pc q = s.base.pc q ∨ q = p ∧
      (s.base.log_write p passed b).pc q = .logging passed b := by
    unfold State.log_write
    split
    · exact .inl rfl
    split
    · exact .inl rfl
    · rcases eq_or_ne q p with rfl | hqp
      · exact .inr ⟨rfl, update_self ..⟩
      · exact .inl (update_of_ne hqp _ _)
  refine h.same (by rw [hlog]) (fun {q} hq => ?_) fun {q i} hq hi => ?_
  · rcases hpc q with he | ⟨rfl, -⟩
    · rwa [he] at hq
    · rw [hp]
      trivial
  · rcases hpc q with he | ⟨-, he⟩
    · exact h.copied (he.symm.trans hq) hi
    · rw [he] at hq
      cases hq

theorem Whole.record (h : s.Whole) (hL : Ledger s.base A)
    (hp : s.base.pc p = .logging passed b) : (s.record p passed b).Whole := by
  have hpin : (s.base.pc p).inOp := by
    rw [hp]
    trivial
  have hL' := hL.record hp
  have hpc (q : Nat) : ((s.base.record p passed b).pc q).inOp ↔ (s.base.pc q).inOp := by
    simp only [State.record, State.goto_pc, update_apply]
    split
    · next hq =>
      rw [hq]
      exact iff_of_true trivial hpin
    · rfl
  have hlogged {o c : Nat} : c ∈ update s.logged (s.num p) (s.logged (s.num p) ++ [b]) o ↔
      c ∈ s.logged o ∨ o = s.num p ∧ c = b := by
    rw [update_apply]
    split
    · next ho =>
      subst ho
      simp
    · next ho => simp [ho]
  have hrec {o c : Nat} : (o, c) ∈ s.records ++ [(s.num p, b)] ↔
      (o, c) ∈ s.records ∨ o = s.num p ∧ c = b := by simp
  have hnlt := h.num_lt hpin
  constructor
  case num_lt => exact fun hq => h.num_lt ((hpc _).1 hq)
  case num_inj => exact fun hq hr => h.num_inj ((hpc _).1 hq) ((hpc _).1 hr)
  case unused =>
    intro o ho
    refine List.eq_nil_iff_forall_not_mem.2 fun c hc => ?_
    rcases hlogged.1 hc with hc | ⟨rfl, -⟩
    · rw [h.unused ho] at hc
      cases hc
    · exact absurd ho (Nat.not_le.2 hnlt)
  case blocks =>
    intro c
    have hblock : c ∈ (s.base.record p passed b).log.block ↔ c ∈ s.base.log.block ∨ c = b := by
      simp only [State.record, State.goto_log]
      split
      · next hb =>
        refine ⟨.inl, ?_⟩
        rintro (hc | rfl)
        · exact hc
        · exact hb
      · simp
    refine hblock.trans ?_
    rw [h.blocks]
    constructor
    · rintro (⟨o, ho⟩ | rfl)
      · exact ⟨o, hrec.2 (.inl ho)⟩
      · exact ⟨s.num p, hrec.2 (.inr ⟨rfl, rfl⟩)⟩
    · rintro ⟨o, ho⟩
      rcases hrec.1 ho with ho | ⟨-, rfl⟩
      · exact .inl ⟨o, ho⟩
      · exact .inr rfl
  case known =>
    intro o c ho
    rcases hrec.1 ho with ho | ⟨rfl, -⟩
    · exact h.known ho
    · exact hnlt
  case together =>
    intro o c d ho hd
    refine hrec.2 ?_
    rcases hlogged.1 hd with hd | hd
    · rcases hrec.1 ho with ho | ⟨rfl, -⟩
      · exact .inl (h.together ho hd)
      · exact .inl (h.running hpin hd)
    · exact .inr hd
  case running =>
    intro q c hq hc
    refine hrec.2 ?_
    rcases hlogged.1 hc with hc | hc
    · exact .inl (h.running ((hpc q).1 hq) hc)
    · exact .inr hc
  case copied =>
    intro q i hq
    exact absurd hq (not_commit hL' ((hpc p).2 hpin) q)
  case closed =>
    exact fun ht ho => ⟨(h.closed ht ho).1, fun hq => (h.closed ht ho).2 ((hpc _).1 hq)⟩
  case whole =>
    intro t o c d ht ho hd
    rcases hlogged.1 hd with hd | ⟨rfl, -⟩
    · exact h.whole ht ho hd
    · exact absurd rfl ((h.closed ht ho).2 hpin)
  case contents => exact h.contents

theorem Whole.end_op (h : s.Whole) (hL : Ledger s.base A)
    (hp : s.base.pc p = .op passed) : (s.end_op p).Whole := by
  have hpin : (s.base.pc p).inOp := by
    rw [hp]
    trivial
  have hL' := (hL.end_op hp).2
  have hlog : (s.base.end_op p).log.block = s.base.log.block := by
    unfold State.end_op
    dsimp only
    split
    · rfl
    · split <;> rfl
  refine h.same hlog (fun {q} hq => (hL.mem q).2 (Finset.mem_of_mem_erase ((hL'.mem q).1 hq)))
    fun {q i} hq hi => ?_
  rcases eq_or_ne q p with rfl | hqp
  · rw [goto_phase_self] at hi
    cases hi
  refine absurd hq ?_
  have hno := not_commit hL hpin q
  simp only [State.end_op, (hL.no_commit hpin).1, Bool.false_eq_true, if_false]
  split
  · simpa [hqp] using hno
  simp only [State.goto_pc, update_of_ne hqp, State.wakeup]
  split
  · intro h
    cases h
  · exact hno

/-- A step of the process that commits, in which nothing but its place and the log area changes. -/
theorem Whole.goto (h : s.Whole) (hL : Ledger s.base A) (hp : (s.base.pc p).inCommit)
    (hc : ∀ i < c.copied s.base.log.n, f i = s.base.log.block.getD i 0) :
    { s.goto p c with area := f }.Whole := by
  refine h.same rfl id fun {q i} hq hi => ?_
  -- no other process commits
  obtain rfl : q = p := hL.one q p (inCommit_of_commit hq) hp
  rw [goto_phase_self] at hi
  exact hc i hi

/-- `write_head`: no operation runs, so all of them are in the transaction with everything they have
logged. -/
theorem Whole.writeHead {A : Finset Nat} (h : s.Whole) (hL : Ledger s.base A)
    (hp : s.base.pc p = .commit) (hph : s.phase p = .writeHead) :
    { s.goto p (.install 0) with written := s.written ++ [s.transaction] }.Whole := by
  have hno (q : Nat) : ¬ (s.base.pc q).inOp := by
    intro hq
    exact not_commit hL hq p hp
  have hcopy : (List.range s.base.log.n).map s.area = s.base.log.block := by
    refine List.ext_getElem (by simp [Vars.n]) fun i h1 h2 => ?_
    have hi := h.copied (i := i) hp (by rw [hph]; exact h2)
    rw [List.getElem_map, List.getElem_range, hi, List.getD_eq_getElem _ _ h2]
  have hmem {t : Transaction} (ht : t ∈ s.written ++ [s.transaction]) :
      t ∈ s.written ∨ t = s.transaction := by simpa using ht
  constructor
  case num_lt => exact h.num_lt
  case num_inj => exact h.num_inj
  case unused => exact h.unused
  case blocks => exact h.blocks
  case known => exact h.known
  case together => exact h.together
  case running => exact h.running
  case copied =>
    intro q i hq hi
    obtain rfl : q = p := hL.one q p (inCommit_of_commit hq) (inCommit_of_commit hp)
    dsimp only at hi
    rw [goto_phase_self] at hi
    cases hi
  case closed =>
    intro t o b ht ho
    refine ⟨?_, fun hq => absurd hq (hno _)⟩
    rcases hmem ht with ht | rfl
    · exact (h.closed ht ho).1
    · exact h.known ho
  case whole =>
    intro t o b c ht ho hc
    rcases hmem ht with ht | rfl
    · exact h.whole ht ho hc
    · exact h.together ho hc
  case contents =>
    intro t ht
    rcases hmem ht with ht | rfl
    · exact h.contents ht
    · exact ⟨hcopy, fun b => h.blocks⟩

/-- `lh.n = 0` while no operation runs. -/
theorem Whole.clear {A : Finset Nat} (h : s.Whole) (hL : Ledger s.base A)
    (hp : s.base.pc p = .commit) (c : Phase) :
    { s.goto p c with base := s.base.commit p, records := [] }.Whole := by
  obtain ⟨-, hL'⟩ := hL.commit hp
  have hno (q : Nat) : ¬ ((s.base.commit p).pc q).inOp := by
    intro hq
    have := (hL'.mem q).1 hq
    cases this
  have hcomm (q : Nat) : (s.base.commit p).pc q ≠ .commit := by
    intro hq
    have hq' : q = p :=
      hL'.one q p (inCommit_of_commit hq) (by simp [State.commit, Pc.inCommit])
    subst hq'
    simp [State.commit] at hq
  constructor
  case num_lt => exact fun hq => absurd hq (hno _)
  case num_inj => exact fun hq => absurd hq (hno _)
  case unused => exact h.unused
  case blocks =>
    intro b
    refine iff_of_false (fun hb : b ∈ [] => by cases hb) ?_
    rintro ⟨o, ho⟩
    cases ho
  case known => exact fun h => by cases h
  case together => exact fun h => by cases h
  case running => exact fun hq => absurd hq (hno _)
  case copied => exact fun hq => absurd hq (hcomm _)
  case closed => exact fun ht ho => ⟨(h.closed ht ho).1, fun hq => absurd hq (hno _)⟩
  case whole => exact h.whole
  case contents => exact h.contents

theorem Whole.commit (h : s.Whole) (hL : Ledger s.base A)
    (hp : s.base.pc p = .commit ∨ s.base.pc p = .committed ∧ s.phase p = .erase) :
    (s.commit p).Whole := by
  have hin : (s.base.pc p).inCommit := by
    rcases hp with hp | ⟨hp, -⟩ <;> rw [hp] <;> trivial
  unfold Journal.commit
  rcases hp with hp | ⟨hp, hph⟩
  · cases hph : s.phase p with
    | start =>
      dsimp only
      split
      · exact h.goto hL hin fun i hi => by cases hi
      next hn =>
      have hnil : s.base.log.block = [] := List.length_eq_zero_iff.1 (Nat.eq_zero_of_not_pos hn)
      have hrec : s.records = [] := by
        refine List.eq_nil_iff_forall_not_mem.2 ?_
        rintro ⟨o, b⟩ ho
        have hb := h.blocks.2 ⟨o, ho⟩
        rw [hnil] at hb
        cases hb
      have hclear := h.clear hL hp .done
      rwa [← hrec] at hclear
    | writeLog tail =>
      dsimp only
      have hold (i : Nat) (hi : i < tail) : s.area i = s.base.log.block.getD i 0 :=
        h.copied hp (by rw [hph]; exact hi)
      split
      · refine h.goto hL hin fun i hi => ?_
        rw [update_apply]
        split
        · next hit => rw [hit]
        · next hit => exact hold i (lt_of_le_of_ne (Nat.le_of_lt_succ hi) hit)
      · next hn =>
        refine h.goto hL hin fun i (hi : i < s.base.log.n) => hold i ?_
        exact hi.trans_le (Nat.not_lt.1 hn)
    | writeHead => exact h.writeHead hL hp hph
    | install tail =>
      refine h.goto hL hin fun i hi => ?_
      split at hi <;> cases hi
    | clear => exact h.clear hL hp _
    | erase | done => exact h.goto hL hin fun i hi => by cases hi
  · rw [hph]
    exact h.goto hL hin fun i hi => by cases hi

theorem Whole.finish {A : Finset Nat} (h : s.Whole) (hL : Ledger s.base A)
    (hp : s.base.pc p = .committed) : (s.finish p).Whole := by
  obtain ⟨-, hL'⟩ := hL.finish hp
  refine h.same rfl (fun {q} hq => ?_) fun {q i} hq => ?_
  · have := (hL'.mem q).1 hq
    cases this
  · have hno : (s.base.finish p).log.committing = false := rfl
    rw [hL'.committing q (inCommit_of_commit hq)] at hno
    cases hno

theorem Whole.step (h : s.Whole) (hL : Ledger s.base A) (hs : s.next a = some s') : s'.Whole := by
  cases (step_of_next hs).2 with
  | begin_op hp => exact h.begin_op hL hp
  | log_write hp => exact h.log_write hp _
  | record hp => exact h.record hL hp
  | end_op hp => exact h.end_op hL hp
  | commit hp => exact h.commit hL hp
  | finish hp => exact h.finish hL hp

/-- No step of `log_write` is possible during a commit. -/
theorem not_logs_of_committing (hL : Ledger s.base A)
    (hc : s.base.log.committing = true) (hs : s.next a = some s') : ¬ a.logs := by
  have hno (q : Nat) : ¬ (s.base.pc q).inOp := by
    intro hq
    have := (hL.mem q).1 hq
    rw [hL.idle hc] at this
    cases this
  cases (step_of_next hs).2 with
  | log_write hp | record hp => exact absurd (by rw [hp]; trivial) (hno _)
  | begin_op | end_op | commit | finish => exact id

end

/-- **A commit contains whole operations**, in every interleaving of operations and commits. -/
theorem atomic {s : Journal} (h : system.Reach s) : s.Atomic := by
  have hwhole : s.Whole := by
    induction h with
    | init hi =>
      rw [show _ = start from hi]
      exact whole_start
    | step hr hs ih =>
      obtain ⟨A, hA⟩ := exists_balanced (base_reach hr)
      exact ih.step hA.ledger hs
  obtain ⟨A, hA⟩ := exists_balanced (base_reach h)
  refine ⟨fun hc => ⟨?_, fun a s' hs => not_logs_of_committing hA.ledger hc hs⟩, fun t ht o => ?_,
    fun t ht => hwhole.contents ht, fun h0 hc => ?_, hA.panics⟩
  · rw [hA.ledger.count, hA.ledger.idle hc]
    rfl
  · by_cases ho : ∃ b, (o, b) ∈ t.records
    · obtain ⟨b, hb⟩ := ho
      exact .inl fun c hc => hwhole.whole ht hb hc
    · exact .inr fun b hb => ho ⟨b, hb⟩
  · rw [Vars.n, hA.empty h0 hc]
    rfl

/-- Two operations that share a block and are committed together. -/
def twoOps : List Act :=
  [.begin_op 0, .begin_op 1, .log_write 0 40, .record 0, .log_write 1 40,
    .log_write 0 41, .record 1,
    .end_op 1, .record 0, .end_op 0, .begin_op 2] ++ List.replicate 10 (.commit 0) ++ [.finish 0]

/-- `atomic` on the run of `twoOps`. -/
theorem atomic_twoOps : ∃ s, system.Reach s ∧
    s.written = [⟨[40, 41], [40, 41], [(0, 40), (1, 40), (0, 41)]⟩] ∧ s.Atomic := by
  obtain ⟨s, hreach, h1⟩ := system.exists_run next start twoOps
    (Q := fun s => s.written = [⟨[40, 41], [40, 41], [(0, 40), (1, 40), (0, 41)]⟩]) rfl rfl
    (by decide +kernel)
  exact ⟨s, hreach, h1, atomic hreach⟩

end Journal

end Msboss.Log
