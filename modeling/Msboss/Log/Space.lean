import Msboss.Log.Ops

/-!
# Log space

`begin_op` admits an operation when `lh.n + (outstanding + 1) * MAXOPBLOCKS` is at most `LOGSIZE`,
but `log_write` refuses the block that would fill the log's last data block: a log of `LOGSIZE`
blocks has `LOGSIZE - 1` of them for data, and the test is made before a block is absorbed. So
three full operations overrun the log (`not_reserved`). With two blocks less the reservation is
sufficient (`reserved_of_roomy`): `Fits` bounds the transaction together with what the running
operations may still add, and every step keeps it.
-/

namespace Msboss.Log

open Function State Finset

/-- The blocks an operation may still add to the transaction. -/
def Pc.left : Pc → Nat
  | .op passed | .logging passed _ => MAXOPBLOCKS - passed.length
  | _ => 0

@[simp] theorem Pc.left_op (passed : List Nat) :
    (Pc.op passed).left = MAXOPBLOCKS - passed.length := rfl
@[simp] theorem Pc.left_logging (passed : List Nat) (b : Nat) :
    (Pc.logging passed b).left = MAXOPBLOCKS - passed.length := rfl

theorem Pc.left_le (c : Pc) : c.left ≤ MAXOPBLOCKS := by
  cases c <;> simp [Pc.left]

/-- `begin_op` admits an operation only while two blocks stay over once every running operation
has used its budget. -/
def Roomy (s : State) : Act → Prop
  | .begin_op _ => s.log.admits = true →
      (s.log.n : Int) + (s.log.outstanding + 1) * MAXOPBLOCKS ≤ LOGSIZE - 2
  | _ => True

instance (s : State) (a : Act) : Decidable (Roomy s a) := by
  cases a <;> simp only [Roomy] <;> infer_instance

/-- The transaction leaves room for every running operation, the processes of `A`. -/
structure Fits (s : State) (A : Finset Nat) : Prop where
  size : s.log.size = LOGSIZE
  room : s.log.n + ∑ p ∈ A, (s.pc p).left ≤ LOGSIZE - 2
  logging : ∀ p passed b, s.pc p = .logging passed b → (passed.insert b).length ≤ MAXOPBLOCKS

section
variable {s s' : State} {A : Finset Nat} {p : Nat}

/-- Nothing is logged at first. -/
theorem fits_initial : Fits initial ∅ where
  size := rfl
  room := by simp [initial, Vars.n]
  logging _ _ _ h := by simp [initial] at h

/-- What the processes other than `p` may add does not change when only `p` goes on. -/
theorem sum_left_of_notMem {pc : Nat → Pc} (hpA : p ∉ A) (c : Pc) :
    ∑ q ∈ A, (update pc p c q).left = ∑ q ∈ A, (pc q).left :=
  sum_congr rfl fun q hq => by
    have hqp : q ≠ p := by rintro rfl; exact hpA hq
    rw [update_of_ne hqp]

/-- When `p` goes on, its own share changes. -/
theorem sum_left_of_mem {pc : Nat → Pc} (hpA : p ∈ A) (c : Pc) :
    ∑ q ∈ A, (update pc p c q).left = c.left + ∑ q ∈ A.erase p, (pc q).left := by
  rw [← add_sum_erase A _ hpA, update_self,
    sum_left_of_notMem (notMem_erase p A)]

/-- Waking a process gives it nothing to add. -/
theorem State.wakeup_left (s : State) (q : Nat) : (s.wakeup.pc q).left = (s.pc q).left := by
  simp only [State.wakeup]
  split
  · next h => simp [h, Pc.left]
  · rfl

/-- A refused operation reserves nothing. -/
theorem Fits.begin_op_refused (h : Fits s A) (hpA : p ∉ A) (ha : s.log.admits = false) :
    Fits (s.begin_op p) A := by
  have hs : s.begin_op p = s.goto p .asleep := by simp [begin_op, ha]
  rw [hs]
  refine ⟨h.size, ?_, fun q passed b hq => ?_⟩
  · simpa [sum_left_of_notMem hpA] using h.room
  · rcases eq_or_ne q p with rfl | hqp
    · simp at hq
    · exact h.logging q passed b (by simpa [hqp] using hq)

/-- An admitted operation reserves its whole budget, and the running ones have reserved no more
than theirs. -/
theorem Fits.begin_op_admitted (h : Fits s A) (hL : Ledger s A) (hpA : p ∉ A)
    (ha : s.log.admits = true) (hr : Roomy s (.begin_op p)) : Fits (s.begin_op p) (insert p A) := by
  have hroom := hr ha
  rw [hL.count] at hroom
  have hsum : ∑ q ∈ A, (s.pc q).left ≤ A.card * MAXOPBLOCKS := by
    rw [← smul_eq_mul]
    exact sum_le_card_nsmul _ _ _ fun q _ => (s.pc q).left_le
  simp only [begin_op, ha, if_true]
  refine ⟨h.size, ?_, fun q passed b hq => ?_⟩
  · rw [sum_insert hpA]
    simp only [goto_log, State.goto_pc, update_self, Vars.n] at hroom ⊢
    rw [sum_left_of_notMem hpA]
    simp only [Pc.left_op, List.length_nil, MAXOPBLOCKS, LOGSIZE] at hroom hsum ⊢
    push_cast at hroom
    omega
  · rcases eq_or_ne q p with rfl | hqp
    · simp at hq
    · exact h.logging q passed b (by simpa [hqp] using hq)

/-- A transaction that fits passes the tests of `log_write`. -/
theorem Fits.log_write_eq (h : Fits s A) (hL : Ledger s A)
    (hp : s.pc p = .op passed) : s.log_write p passed b = s.goto p (.logging passed b) := by
  have hn : s.log.n ≤ LOGSIZE - 2 := le_trans (Nat.le_add_right _ _) h.room
  have hpos : 0 < A.card := card_pos.2 ⟨p, (hL.mem p).1 (by simp [hp, Pc.inOp])⟩
  have hout : ¬ s.log.outstanding < 1 := by rw [hL.count]; omega
  have hfull : ¬ (s.log.n ≥ LOGSIZE ∨ (s.log.n : Int) ≥ s.log.size - 1) := by
    rw [h.size]
    simp only [LOGSIZE, MAXOPBLOCKS] at hn ⊢
    omega
  rw [log_write, if_neg hfull, if_neg hout]

/-- Passing the tests of `log_write` reserves nothing new. -/
theorem Fits.log_write (h : Fits s A) (hL : Ledger s A)
    (hp : s.pc p = .op passed) (hb : Budget s (.log_write p b)) :
    Fits (s.goto p (.logging passed b)) A := by
  have hpA : p ∈ A := (hL.mem p).1 (by simp [hp, Pc.inOp])
  refine ⟨h.size, ?_, fun q passed' b' hq => ?_⟩
  · have := h.room
    rw [← add_sum_erase A _ hpA, hp] at this
    simpa [sum_left_of_mem hpA] using this
  · rcases eq_or_ne q p with rfl | hqp
    · simp only [State.goto_pc, update_self, Pc.logging.injEq] at hq
      obtain ⟨rfl, rfl⟩ := hq
      exact hb passed hp
    · exact h.logging q passed' b' (by simpa [hqp] using hq)

/-- Recording a block takes it from what its operation may still add, unless it is absorbed. -/
theorem Fits.record (h : Fits s A) (hL : Ledger s A)
    (hp : s.pc p = .logging passed b) : Fits (s.record p passed b) A := by
  have hpA : p ∈ A := (hL.mem p).1 (by simp [hp, Pc.inOp])
  have hlen := h.logging p passed b hp
  have hroom := h.room
  rw [← add_sum_erase A _ hpA, hp] at hroom
  refine ⟨h.size, ?_, fun q passed' b' hq => ?_⟩
  · simp only [State.record, goto_log, State.goto_pc, sum_left_of_mem hpA, Pc.left_op,
      Pc.left_logging, Vars.n] at hroom ⊢
    split
    · have : passed.length ≤ (passed.insert b).length := List.length_le_length_insert
      omega
    next hnew =>
    -- a block outside the transaction is new to its operation too
    have hnp : b ∉ passed := fun hb => hnew (hL.logged p b (by simpa [hp, Pc.passed] using hb))
    rw [List.length_insert_of_not_mem hnp] at hlen ⊢
    simp only [List.length_append, List.length_singleton]
    omega
  · rcases eq_or_ne q p with rfl | hqp
    · simp [State.record] at hq
    · exact h.logging q passed' b' (by simpa [State.record, hqp] using hq)

/-- An operation that leaves gives its reservation back. -/
theorem Fits.end_op (h : Fits s A) (hL : Ledger s A) {passed : List Nat}
    (hp : s.pc p = .op passed) : Fits (s.end_op p) (A.erase p) := by
  have hpA : p ∈ A := (hL.mem p).1 (by simp [hp, Pc.inOp])
  obtain ⟨hc, -⟩ := hL.no_commit (p := p) (by simp [hp, Pc.inOp])
  have hroom := h.room
  rw [← add_sum_erase A _ hpA] at hroom
  have hout := notMem_erase p A
  simp only [State.end_op, hc, Bool.false_eq_true, if_false]
  split
  · refine ⟨h.size, ?_, fun q passed' b' hq => ?_⟩
    · simp only [State.goto_pc, sum_left_of_notMem hout, goto_log, Vars.n] at hroom ⊢
      omega
    · rcases eq_or_ne q p with rfl | hqp
      · simp at hq
      · exact h.logging q passed' b' (by simpa [hqp] using hq)
  · refine ⟨h.size, ?_, fun q passed' b' hq => ?_⟩
    · simp only [State.goto_pc, sum_left_of_notMem hout, wakeup_left, goto_log,
        wakeup_log, Vars.n] at hroom ⊢
      omega
    · rcases eq_or_ne q p with rfl | hqp
      · simp at hq
      · simp only [State.goto_pc, update_of_ne hqp, State.wakeup] at hq
        split at hq
        · cases hq
        · exact h.logging q passed' b' hq

/-- The empty transaction fits. -/
theorem Fits.commit (h : Fits s ∅) : Fits (s.commit p) ∅ := by
  refine ⟨h.size, by simp [State.commit, Vars.n], fun q passed b hq => ?_⟩
  rcases eq_or_ne q p with rfl | hqp
  · simp [State.commit] at hq
  · exact h.logging q passed b (by simpa [State.commit, hqp] using hq)

/-- Ending a commit reserves nothing. -/
theorem Fits.finish (h : Fits s ∅) : Fits (s.finish p) ∅ := by
  refine ⟨h.size, h.room, fun q passed b hq => ?_⟩
  rcases eq_or_ne q p with rfl | hqp
  · simp [State.finish] at hq
  · simp only [State.finish, State.goto_pc, update_of_ne hqp, State.wakeup] at hq
    split at hq
    · cases hq
    · exact h.logging q passed b hq

end

/-- What a run keeps whose operations stay in their budgets and are admitted with room to
spare. -/
def Reserved (s : State) : Prop :=
  s.panic = none ∧ ∃ A, Ledger s A ∧ Fits s A

/-- Every such step keeps the reservation. -/
theorem Reserved.step (h : Reserved s) (hb : Budget s a) (hr : Roomy s a)
    (hs : next s a = some s') : Reserved s' := by
  obtain ⟨hpanic, A, hL, hF⟩ := h
  cases (step_of_next hs).2 with
  | @begin_op p hp =>
    cases ha : s.log.admits with
    | true =>
      obtain ⟨hpA, hL'⟩ := hL.begin_op_admitted hp ha
      exact ⟨by simpa [begin_op, ha], _, hL', hF.begin_op_admitted hL hpA ha hr⟩
    | false =>
      have hpA : p ∉ A := fun hA => by
        have := (hL.mem p).2 hA
        rcases hp with hp | hp <;> simp [hp, Pc.inOp] at this
      exact ⟨by simpa [begin_op, ha], A, hL.begin_op_refused hp ha,
        hF.begin_op_refused hpA ha⟩
  | log_write hp =>
    rw [hF.log_write_eq hL hp]
    exact ⟨hpanic, A, hL.log_write hp _, hF.log_write hL hp hb⟩
  | record hp => exact ⟨hpanic, A, hL.record hp, hF.record hL hp⟩
  | end_op hp =>
    obtain ⟨he, hL'⟩ := hL.end_op hp
    exact ⟨he.trans hpanic, _, hL', hF.end_op hL hp⟩
  | commit hp =>
    obtain ⟨rfl, hL'⟩ := hL.commit hp
    exact ⟨hpanic, ∅, hL', hF.commit⟩
  | finish hp =>
    obtain ⟨rfl, hL'⟩ := hL.finish hp
    exact ⟨hpanic, ∅, hL', hF.finish⟩

/-- **Log space is reserved when two blocks stay over.** In every run in which each operation
passes at most `MAXOPBLOCKS` distinct blocks and `begin_op` admits an operation only while the
transaction and all budgets together stay two blocks below `LOGSIZE`, `log_write` never finds the
transaction too big. -/
theorem reserved_of_roomy {s : State}
    (h : (system.restrict fun s a => Budget s a ∧ Roomy s a).Reach s) : s.panic ≠ some .tooBig := by
  have hI : Reserved s := h.invariant
    (fun s hs => by
      obtain rfl : s = initial := hs
      exact ⟨rfl, ∅, ledger_initial, fits_initial⟩)
    (fun s a s' hI hs => hI.step hs.1.1 hs.1.2 hs.2)
  rw [hI.1]
  exact nofun

/-- One operation that logs one block twice, and its commit. -/
def oneOp : List Act :=
  [.begin_op 0, .log_write 0 40, .record 0, .log_write 0 40, .record 0, .end_op 0, .commit 0,
    .finish 0]

/-- `reserved_of_roomy` on the run of `oneOp`. -/
theorem reserved_oneOp : ∃ s, (system.restrict fun s a => Budget s a ∧ Roomy s a).Reach s ∧
    s.pc 0 = .out ∧ s.panic ≠ some .tooBig := by
  obtain ⟨s, hreach, h0⟩ := system.exists_reach (fun s a => Budget s a ∧ Roomy s a) next initial
    oneOp (Q := fun s => s.pc 0 = .out) rfl rfl (by decide +kernel)
  exact ⟨s, hreach, h0, reserved_of_roomy hreach⟩

/-- Three operations of `MAXOPBLOCKS` blocks each, up to the block that does not fit. -/
def threeFullOps : List Act :=
  [.begin_op 0, .begin_op 1, .begin_op 2] ++
    (List.range 29).flatMap (fun i => [.log_write (i / 10) (40 + i), .record (i / 10)]) ++
    [.log_write 2 69]

/-- **The reservation of `begin_op` is not sufficient.** Three operations are admitted together,
each passes ten blocks, and the thirtieth block panics: the log has room for twenty-nine. -/
theorem not_reserved : ¬ ∀ s, (system.restrict Budget).Reach s → s.panic ≠ some .tooBig := by
  intro H
  obtain ⟨s, hreach, hp⟩ := system.exists_reach Budget next initial threeFullOps
    (Q := fun s => s.panic = some .tooBig) rfl rfl (by decide +kernel)
  exact H s hreach hp

end Msboss.Log
