import Msboss.Param
import Msboss.Lib.System

/-!
# Operations on the log

`begin_op`, `log_write` and `end_op` of `log.c`, run by any number of processes. Every critical
section of `log.lock` is one step. `begin_op` tests, sleeps on `&log` and tests again; `log_write`
makes its two tests before it takes the lock, so the tests and the recording of the block are two
steps; `end_op` releases the lock around `commit`, so it is three: leaving, committing, and
clearing `committing`.

What a process has passed to `log_write` since its `begin_op` is kept with its program counter.
-/

namespace Msboss.Log

open Function

/-- The panics of `log.c`. -/
inductive Panic
  /-- `too big a transaction` -/
  | tooBig
  /-- `log_write outside of trans` -/
  | outsideTrans
  /-- `log.committing` -/
  | committing
  deriving DecidableEq, Repr

/-- `struct log`, with `lh.block[0 .. lh.n)` as a list. -/
structure Vars where
  size : Int
  outstanding : Int
  committing : Bool
  block : List Nat
  deriving DecidableEq, Repr

/-- `log.lh.n`. -/
def Vars.n (l : Vars) : Nat := l.block.length

/-- Where a process is between `begin_op` and the end of `end_op`. -/
inductive Pc
  /-- In no operation. -/
  | out
  /-- In `begin_op`, sleeping on `&log`. -/
  | asleep
  /-- In `begin_op`, woken and about to test again. -/
  | awake
  /-- Past `begin_op`; `passed` are the block numbers it has given to `log_write`. -/
  | op (passed : List Nat)
  /-- In `log_write` for block `b`, past the two tests. -/
  | logging (passed : List Nat) (b : Nat)
  /-- In `end_op` with `do_commit` set, `commit` not finished. -/
  | commit
  /-- In `end_op`, `commit` finished. -/
  | committed
  deriving DecidableEq, Repr

/-- The log, the processes that use it and the panic that stopped the machine, if any. -/
structure State where
  log : Vars
  pc : Nat → Pc
  panic : Option Panic

/-- The steps of the three operations. -/
inductive Act
  | begin_op (p : Nat)
  | log_write (p b : Nat)
  | record (p : Nat)
  | end_op (p : Nat)
  | commit (p : Nat)
  | finish (p : Nat)
  deriving DecidableEq, Repr

/-- `initlog`, after recovery, on a file system made by `mkfs` (`nlog = LOGSIZE`). -/
def initial : State where
  log := { size := LOGSIZE, outstanding := 0, committing := false, block := [] }
  pc _ := .out
  panic := none

/-- Process `p` goes on at `c`. -/
def State.goto (s : State) (p : Nat) (c : Pc) : State :=
  { s with pc := update s.pc p c }

/-- `wakeup(&log)`. -/
def State.wakeup (s : State) : State :=
  { s with pc := fun q => if s.pc q = .asleep then .awake else s.pc q }

/-- The test of `begin_op` that admits an operation. -/
def Vars.admits (l : Vars) : Bool :=
  !l.committing && !decide ((l.n : Int) + (l.outstanding + 1) * MAXOPBLOCKS > LOGSIZE)

/-- The loop body of `begin_op`. -/
def State.begin_op (s : State) (p : Nat) : State :=
  if s.log.admits then
    { s with log := { s.log with outstanding := s.log.outstanding + 1 } }.goto p (.op [])
  else s.goto p .asleep

/-- The tests of `log_write`, made without the lock. -/
def State.log_write (s : State) (p : Nat) (passed : List Nat) (b : Nat) : State :=
  if s.log.n ≥ LOGSIZE ∨ (s.log.n : Int) ≥ s.log.size - 1 then { s with panic := some .tooBig }
  else if s.log.outstanding < 1 then { s with panic := some .outsideTrans }
  else s.goto p (.logging passed b)

/-- The locked part of `log_write`: a block already in the transaction is absorbed. -/
def State.record (s : State) (p : Nat) (passed : List Nat) (b : Nat) : State :=
  { s with log := { s.log with
      block := if b ∈ s.log.block then s.log.block else s.log.block ++ [b] } }.goto p
    (.op (passed.insert b))

/-- The first critical section of `end_op`. -/
def State.end_op (s : State) (p : Nat) : State :=
  let s1 := { s with log := { s.log with outstanding := s.log.outstanding - 1 } }
  if s.log.committing then { s1 with panic := some .committing }
  else if s1.log.outstanding = 0 then
    { s1 with log := { s1.log with committing := true } }.goto p .commit
  else s1.wakeup.goto p .out

/-- `commit`, as far as the in-memory log is concerned. -/
def State.commit (s : State) (p : Nat) : State :=
  { s with log := { s.log with block := [] } }.goto p .committed

/-- The second critical section of `end_op`. -/
def State.finish (s : State) (p : Nat) : State :=
  { s with log := { s.log with committing := false } }.wakeup.goto p .out

/-- One step; a panic stops every process. -/
def next (s : State) : Act → Option State
  | .begin_op p => if s.panic = none ∧ (s.pc p = .out ∨ s.pc p = .awake) then
      some (s.begin_op p) else none
  | .log_write p b => match s.panic, s.pc p with
    | none, .op passed => some (s.log_write p passed b)
    | _, _ => none
  | .record p => match s.panic, s.pc p with
    | none, .logging passed b => some (s.record p passed b)
    | _, _ => none
  | .end_op p => match s.panic, s.pc p with
    | none, .op _ => some (s.end_op p)
    | _, _ => none
  | .commit p => if s.panic = none ∧ s.pc p = .commit then some (s.commit p) else none
  | .finish p => if s.panic = none ∧ s.pc p = .committed then some (s.finish p) else none

/-- All runs of the log. -/
def system : System State Act := .ofNext (· = initial) next

/-- No operation passes more than `MAXOPBLOCKS` distinct block numbers to `log_write`. -/
def Budget (s : State) : Act → Prop
  | .log_write p b => ∀ passed, s.pc p = .op passed → (passed.insert b).length ≤ MAXOPBLOCKS
  | _ => True

instance (s : State) (a : Act) : Decidable (Budget s a) :=
  match a with
  | .log_write p b => match h : s.pc p with
    | .op passed => decidable_of_iff ((passed.insert b).length ≤ MAXOPBLOCKS) (by simp [Budget, h])
    | .out | .asleep | .awake | .logging _ _ | .commit | .committed =>
      .isTrue (by simp [Budget, h])
  | .begin_op _ | .record _ | .end_op _ | .commit _ | .finish _ => .isTrue trivial

/-! ## What a step can do -/

/-- One of the six critical sections, taken by a process that is at it. -/
inductive Step (s : State) : Act → State → Prop
  | begin_op : s.pc p = .out ∨ s.pc p = .awake → Step s (.begin_op p) (s.begin_op p)
  | log_write : s.pc p = .op passed → Step s (.log_write p b) (s.log_write p passed b)
  | record : s.pc p = .logging passed b → Step s (.record p) (s.record p passed b)
  | end_op : s.pc p = .op passed → Step s (.end_op p) (s.end_op p)
  | commit : s.pc p = .commit → Step s (.commit p) (s.commit p)
  | finish : s.pc p = .committed → Step s (.finish p) (s.finish p)

/-- Steps are taken while nothing has panicked. -/
theorem step_of_next (h : next s a = some s') : s.panic = none ∧ Step s a s' := by
  cases a with
  | begin_op p =>
    obtain ⟨⟨hpanic, hp⟩, rfl⟩ : (s.panic = none ∧ _) ∧ s.begin_op p = s' := by simpa [next] using h
    exact ⟨hpanic, .begin_op hp⟩
  | log_write p b =>
    simp only [next] at h
    split at h <;> cases h
    next hp hc => exact ⟨hp, .log_write hc⟩
  | record p =>
    simp only [next] at h
    split at h <;> cases h
    next hp hc => exact ⟨hp, .record hc⟩
  | end_op p =>
    simp only [next] at h
    split at h <;> cases h
    next hp hc => exact ⟨hp, .end_op hc⟩
  | commit p =>
    obtain ⟨⟨hpanic, hp⟩, rfl⟩ : (s.panic = none ∧ _) ∧ s.commit p = s' := by simpa [next] using h
    exact ⟨hpanic, .commit hp⟩
  | finish p =>
    obtain ⟨⟨hpanic, hp⟩, rfl⟩ : (s.panic = none ∧ _) ∧ s.finish p = s' := by simpa [next] using h
    exact ⟨hpanic, .finish hp⟩

@[simp] theorem State.goto_log (s : State) (p : Nat) (c : Pc) : (s.goto p c).log = s.log := rfl
@[simp] theorem State.goto_panic (s : State) (p : Nat) (c : Pc) :
    (s.goto p c).panic = s.panic := rfl
@[simp] theorem State.goto_pc (s : State) (p : Nat) (c : Pc) :
    (s.goto p c).pc = update s.pc p c := rfl
@[simp] theorem State.wakeup_log (s : State) : s.wakeup.log = s.log := rfl
@[simp] theorem State.wakeup_panic (s : State) : s.wakeup.panic = s.panic := rfl

/-! ## Who is in an operation -/

/-- The process is between `begin_op` and `end_op`. -/
def Pc.inOp : Pc → Prop
  | .op _ | .logging _ _ => True
  | _ => False

/-- The process is in the part of `end_op` that commits. -/
def Pc.inCommit : Pc → Prop
  | .commit | .committed => True
  | _ => False

/-- What the process has passed to `log_write` and seen recorded. -/
def Pc.passed : Pc → List Nat
  | .op passed | .logging passed _ => passed
  | _ => []

/-- Two program counters at the same stage of an operation. -/
def Pc.Like (c c' : Pc) : Prop :=
  (c.inOp ↔ c'.inOp) ∧ (c.inCommit ↔ c'.inCommit) ∧ c.passed = c'.passed

/-- Waking a process leaves it at its stage: it is still in `begin_op`. -/
theorem State.wakeup_like (s : State) (q : Nat) : (s.wakeup.pc q).Like (s.pc q) := by
  simp only [State.wakeup]
  split
  · next h => simp [Pc.Like, h, Pc.inOp, Pc.inCommit, Pc.passed]
  · exact ⟨.rfl, .rfl, rfl⟩

/-- Only `p` changes its stage when it goes on. -/
theorem State.goto_like (s : State) (p : Nat) (c : Pc) (hq : q ≠ p) :
    ((s.goto p c).pc q).Like (s.pc q) := by
  simp [Pc.Like, hq]

/-- The log's counters say what the processes do: `outstanding` counts the processes in an
operation, which are those of `A`; the blocks they passed are in the transaction; and `committing`
is set while a process commits, with no operation running. -/
structure Ledger (s : State) (A : Finset Nat) : Prop where
  mem : ∀ p, (s.pc p).inOp ↔ p ∈ A
  count : s.log.outstanding = A.card
  logged : ∀ p, ∀ b ∈ (s.pc p).passed, b ∈ s.log.block
  committing : ∀ p, (s.pc p).inCommit → s.log.committing = true
  idle : s.log.committing = true → A = ∅
  one : ∀ p q, (s.pc p).inCommit → (s.pc q).inCommit → p = q

section
variable {s s' : State} {A A' : Finset Nat} {p : Nat}

/-- The ledger of the initial state. -/
theorem ledger_initial : Ledger initial ∅ where
  mem _ := by simp [initial, Pc.inOp]
  count := rfl
  logged _ _ hb := by simp [initial, Pc.passed] at hb
  committing _ hp := by simp [initial, Pc.inCommit] at hp
  idle h := by simp [initial] at h
  one _ _ hp := by simp [initial, Pc.inCommit] at hp

/-- No process commits while an operation runs. -/
theorem Ledger.no_commit (h : Ledger s A) (hp : (s.pc p).inOp) :
    s.log.committing = false ∧ ∀ q, ¬ (s.pc q).inCommit := by
  have hc : s.log.committing = false := by
    by_contra hc
    have := h.idle (by simpa using hc)
    exact absurd ((h.mem p).1 hp) (by simp [this])
  refine ⟨hc, fun q hq => ?_⟩
  have := h.committing q hq
  rw [hc] at this; cases this

/-- A step in which only `p` changes its stage, and does not start to commit, keeps the ledger as
soon as the counters follow `p`. -/
theorem Ledger.of_move (h : Ledger s A) (hlike : ∀ q, q ≠ p → (s'.pc q).Like (s.pc q))
    (hA : ∀ q, q ≠ p → (q ∈ A' ↔ q ∈ A)) (hp : (s'.pc p).inOp ↔ p ∈ A')
    (hcount : s'.log.outstanding = A'.card)
    (hlog : ∀ q, q ∈ A' → ∀ b ∈ (s'.pc q).passed, b ∈ s'.log.block)
    (hpass : ¬ (s'.pc p).inOp → (s'.pc p).passed = []) (hnc : ¬ (s'.pc p).inCommit)
    (hcomm : s'.log.committing = s.log.committing ∨ ∀ q, q ≠ p → ¬ (s.pc q).inCommit)
    (hidle : s'.log.committing = true → A' = ∅) : Ledger s' A' := by
  have hmem : ∀ q, (s'.pc q).inOp ↔ q ∈ A' := fun q => by
    rcases eq_or_ne q p with rfl | hq
    · exact hp
    · rw [(hlike q hq).1, h.mem q, hA q hq]
  have hne : ∀ q, (s'.pc q).inCommit → q ≠ p ∧ (s.pc q).inCommit := fun q hq => by
    have hqp : q ≠ p := by rintro rfl; exact hnc hq
    exact ⟨hqp, (hlike q hqp).2.1.1 hq⟩
  refine ⟨hmem, hcount, fun q b hb => ?_, fun q hq => ?_, hidle, fun q r hq hr =>
    h.one q r (hne q hq).2 (hne r hr).2⟩
  · by_cases hqA : q ∈ A'
    · exact hlog q hqA b hb
    exfalso
    rcases eq_or_ne q p with rfl | hq
    · rw [hpass (fun hi => hqA (hp.1 hi))] at hb
      cases hb
    · have hno : ¬ (s.pc q).inOp := fun hi => hqA ((hA q hq).2 ((h.mem q).1 hi))
      rw [(hlike q hq).2.2] at hb
      cases hcq : s.pc q <;> simp_all [Pc.passed, Pc.inOp]
  · obtain ⟨hqp, hq⟩ := hne q hq
    rcases hcomm with hc | hc
    · rw [hc]; exact h.committing q hq
    · exact absurd hq (hc q hqp)

/-- A refused operation sleeps. -/
theorem Ledger.begin_op_refused (h : Ledger s A) (hp : s.pc p = .out ∨ s.pc p = .awake)
    (ha : s.log.admits = false) : Ledger (s.begin_op p) A := by
  have hpA : p ∉ A := fun hA => by
    have := (h.mem p).2 hA
    rcases hp with hp | hp <;> simp [hp, Pc.inOp] at this
  have hs : s.begin_op p = s.goto p .asleep := by simp [State.begin_op, ha]
  rw [hs]
  refine h.of_move (fun q => s.goto_like p _) (fun _ _ => .rfl) ?_ h.count (fun q hq b hb => ?_)
    ?_ ?_ (.inl rfl) h.idle
  · simpa [Pc.inOp] using hpA
  · have hqp : q ≠ p := by rintro rfl; exact hpA hq
    exact h.logged q b (by simpa [hqp] using hb)
  · simp [Pc.passed]
  · simp [Pc.inCommit]

/-- An admitted operation joins the running ones. -/
theorem Ledger.begin_op_admitted (h : Ledger s A) (hp : s.pc p = .out ∨ s.pc p = .awake)
    (ha : s.log.admits = true) : p ∉ A ∧ Ledger (s.begin_op p) (insert p A) := by
  have hpA : p ∉ A := fun hA => by
    have := (h.mem p).2 hA
    rcases hp with hp | hp <;> simp [hp, Pc.inOp] at this
  have hc : s.log.committing = false := by
    simp only [Vars.admits, Bool.and_eq_true, Bool.not_eq_true'] at ha
    exact ha.1
  refine ⟨hpA, ?_⟩
  simp only [State.begin_op, ha, if_true]
  refine h.of_move (p := p) (fun q hq => ?_) (fun q hq => by simp [hq]) ?_ ?_ (fun q hq b hb => ?_)
    ?_ ?_ (.inl rfl) (fun hc' => ?_)
  · simp [Pc.Like, hq]
  · simp [Pc.inOp]
  · simp [h.count, Finset.card_insert_of_notMem hpA]
  · rcases eq_or_ne q p with rfl | hqp
    · simp [Pc.passed] at hb
    · exact h.logged q b (by simpa [hqp] using hb)
  · simp [Pc.passed]
  · simp [Pc.inCommit]
  · simp [hc] at hc'

/-- A process past the tests of `log_write` is still in its operation. -/
theorem Ledger.log_write (h : Ledger s A) (hp : s.pc p = .op passed) (b : Nat) :
    Ledger (s.goto p (.logging passed b)) A := by
  refine h.of_move (fun q => s.goto_like p _) (fun _ _ => .rfl) ?_ h.count (fun q hq c hc => ?_)
    ?_ ?_ (.inl rfl) h.idle
  · simpa [Pc.inOp, hp] using h.mem p
  · rcases eq_or_ne q p with rfl | hqp
    · exact h.logged q c (by simpa [Pc.passed, hp] using hc)
    · exact h.logged q c (by simpa [hqp] using hc)
  · simp [Pc.inOp]
  · simp [Pc.inCommit]

/-- A recorded block is in the transaction. -/
theorem Ledger.record (h : Ledger s A)
    (hp : s.pc p = .logging passed b) : Ledger (s.record p passed b) A := by
  have hin : ∀ c, c ∈ s.log.block ∨ c = b → c ∈ (s.record p passed b).log.block := by
    intro c hc
    simp only [State.record, State.goto_log]
    split
    · next hb => rcases hc with hc | rfl <;> assumption
    · simpa using hc
  refine h.of_move (p := p) (fun q hq => ?_) (fun _ _ => .rfl) ?_ h.count (fun q hq c hc => ?_)
    ?_ ?_ (.inl rfl) h.idle
  · simp [State.record, Pc.Like, hq]
  · simpa [State.record, Pc.inOp, hp] using h.mem p
  · refine hin c ?_
    rcases eq_or_ne q p with rfl | hqp
    · have hc' : c = b ∨ c ∈ passed := by simpa [State.record, Pc.passed] using hc
      rcases hc' with hc' | hc'
      · exact .inr hc'
      · exact .inl (h.logged q c (by simpa [Pc.passed, hp] using hc'))
    · exact .inl (h.logged q c (by simpa [State.record, hqp] using hc))
  · simp [State.record, Pc.inOp]
  · simp [State.record, Pc.inCommit]

/-- The last operation to leave starts to commit; the others only leave. Neither panics. -/
theorem Ledger.end_op (h : Ledger s A) (hp : s.pc p = .op passed) :
    (s.end_op p).panic = s.panic ∧ Ledger (s.end_op p) (A.erase p) := by
  have hpA : p ∈ A := (h.mem p).1 (by simp [hp, Pc.inOp])
  obtain ⟨hc, hnc⟩ := h.no_commit (p := p) (by simp [hp, Pc.inOp])
  have hcard : s.log.outstanding - 1 = (A.erase p).card := by
    have := Finset.card_erase_add_one hpA
    rw [h.count, ← this]; simp
  simp only [State.end_op, hc, Bool.false_eq_true, if_false]
  split
  · next h0 =>
    have hempty : A.erase p = ∅ := by
      rw [← Finset.card_eq_zero]
      have : ((A.erase p).card : Int) = 0 := hcard ▸ h0
      exact_mod_cast this
    refine ⟨rfl, fun q => ?_, hcard, fun q b hb => ?_, fun _ _ => rfl, fun _ => hempty,
      fun q r hq hr => ?_⟩
    · rw [hempty]
      rcases eq_or_ne q p with rfl | hqp
      · simp [Pc.inOp]
      · have : q ∉ A := fun hq => by
          have := Finset.mem_erase.2 ⟨hqp, hq⟩
          rw [hempty] at this; cases this
        simpa [hqp] using fun hi => this ((h.mem q).1 hi)
    · rcases eq_or_ne q p with rfl | hqp
      · simp [Pc.passed] at hb
      · exact h.logged q b (by simpa [hqp] using hb)
    · have key : ∀ x, (update s.pc p .commit x).inCommit → x = p := fun x hx => by
        by_contra hxp
        exact hnc x (by simpa [hxp] using hx)
      rw [key q hq, key r hr]
  · refine ⟨rfl, h.of_move (p := p) (fun q hq => ?_) (fun q hq => by simp [hq]) ?_ hcard
      (fun q hq b hb => ?_) ?_ ?_ (.inl hc.symm) (fun hc' => ?_)⟩
    · simp only [State.goto_pc, update_of_ne hq]
      exact State.wakeup_like _ q
    · simp [Pc.inOp]
    · have hqp : q ≠ p := (Finset.mem_erase.1 hq).1
      simp only [State.goto_pc, update_of_ne hqp] at hb
      rw [(State.wakeup_like _ q).2.2] at hb
      exact h.logged q b hb
    · simp [Pc.passed]
    · simp [Pc.inCommit]
    · simp at hc'

/-- The process that commits empties the transaction; no operation runs. -/
theorem Ledger.commit (h : Ledger s A) (hp : s.pc p = .commit) : A = ∅ ∧ Ledger (s.commit p) ∅ := by
  have hpc : (s.pc p).inCommit := by simp [hp, Pc.inCommit]
  obtain rfl := h.idle (h.committing p hpc)
  have hno : ∀ q, ¬ (s.pc q).inOp := fun q hq => by simpa using (h.mem q).1 hq
  have key : ∀ x, (update s.pc p .committed x).inCommit → (s.pc x).inCommit :=
    fun x hx => by
      rcases eq_or_ne x p with rfl | hxp
      · exact hpc
      · simpa [hxp] using hx
  refine ⟨rfl, fun q => ?_, h.count, fun q b hb => ?_, fun q hq => h.committing q (key q hq),
    fun _ => rfl, fun q r hq hr => h.one q r (key q hq) (key r hr)⟩
  · rcases eq_or_ne q p with rfl | hqp
    · simp [State.commit, Pc.inOp]
    · simpa [State.commit, hqp] using hno q
  · exfalso
    rcases eq_or_ne q p with rfl | hqp
    · simp [State.commit, Pc.passed] at hb
    · have hq := hno q
      simp only [State.commit, State.goto_pc, update_of_ne hqp] at hb
      cases hcq : s.pc q <;> simp_all [Pc.passed, Pc.inOp]

/-- The commit is over. -/
theorem Ledger.finish (h : Ledger s A) (hp : s.pc p = .committed) :
    A = ∅ ∧ Ledger (s.finish p) ∅ := by
  have hpc : (s.pc p).inCommit := by simp [hp, Pc.inCommit]
  obtain rfl := h.idle (h.committing p hpc)
  refine ⟨rfl, h.of_move (p := p) (fun q hq => ?_) (fun _ _ => .rfl) ?_ h.count
    (fun q hq => by simp at hq) ?_ ?_ (.inr fun q hq hqc => hq (h.one q p hqc hpc))
    (fun hc => by simp [State.finish] at hc)⟩
  · simp only [State.finish, State.goto_pc, update_of_ne hq]
    exact State.wakeup_like _ q
  · simp [State.finish, Pc.inOp]
  · simp [State.finish, Pc.passed]
  · simp [State.finish, Pc.inCommit]

end

end Msboss.Log
