import Msboss.Param
import Msboss.Lib.System

/-!
# The process table

`allocproc`, `fork`, `exit`, `wait`, `kill`, `sleep`, `wakeup` and the scheduler of `proc.c`, as far
as they read and write the process table. What a call does under `ptable.lock` is one step, and so
is what it does between two such parts: `fork` takes a slot, may fail to get memory, links the child
to its parent, and makes it runnable; `exit` first gives up what the process holds, which may put it
to sleep, and then becomes a zombie.

A process whose `killed` is set starts no system call: `trap` makes it exit instead.
-/

namespace Msboss.Ptable

/-- A slot of `ptable.proc`. -/
abbrev Slot := Fin NPROC

/-- `enum procstate`. -/
inductive ProcState
  | unused
  | embryo
  | sleeping
  | runnable
  | running
  | zombie
  deriving DecidableEq, Repr

/-- What a process sleeps on: a process's record, in `wait`, or something else. -/
inductive Chan
  | proc (p : Slot)
  | other (k : Nat)
  deriving DecidableEq, Repr

/-- Where a process is in its code. -/
inductive Code
  /-- In no modelled call. -/
  | user
  /-- In `fork`, which has taken slot `q`. -/
  | taken (q : Slot)
  /-- In `fork`, which has set the parent of `q`. -/
  | linked (q : Slot)
  /-- In `exit`, before it takes the lock. -/
  | exiting
  /-- In `wait`. -/
  | waiting
  deriving DecidableEq, Repr

/-- What the modelled code uses of `struct proc`, with two histories: the pid of the process that
forked this one, and whether `kill` was called with its pid since it was made. -/
structure Proc where
  state : ProcState
  pid : UInt32
  parent : Option Slot
  chan : Option Chan
  killed : Bool
  code : Code
  origin : UInt32
  hit : Bool
  deriving DecidableEq, Repr

/-- A slot that was never used. -/
def Proc.fresh : Proc where
  state := .unused
  pid := 0
  parent := none
  chan := none
  killed := false
  code := .user
  origin := 0
  hit := false

/-- The table and `nextpid`, with the number of calls of `fork` and the pids that `wait` has
returned. -/
structure State where
  proc : Slot → Proc
  nextpid : UInt32
  forks : Nat
  reaped : List UInt32

/-- After `userinit`: `init` is in the first slot. -/
def initial : State where
  proc p := if p = 0 then { Proc.fresh with state := .runnable, pid := 1 } else .fresh
  nextpid := 2
  forks := 0
  reaped := []

/-- What a pass of `wait` over the table comes to. -/
inductive Waited
  | reaped (q : Slot)
  | failed
  | asleep
  deriving DecidableEq, Repr

namespace State

/-- Replaces the record of slot `p`. -/
def set (s : State) (p : Slot) (P : Proc) : State := { s with proc := Function.update s.proc p P }

/-- The part of `allocproc` under the lock. -/
def allocproc (s : State) : Option (Slot × State) :=
  match (List.finRange NPROC).find? fun q => (s.proc q).state = .unused with
  | none => none
  | some q => some (q,
      { s.set q { s.proc q with state := .embryo, pid := s.nextpid, code := .user, hit := false }
        with nextpid := s.nextpid + 1 })

/-- `fork`, called by `p`, up to the slot it gets; with none it returns `-1`. -/
def fork (s : State) (p : Slot) : State :=
  match { s with forks := s.forks + 1 }.allocproc with
  | none => { s with forks := s.forks + 1 }
  | some (q, s) => s.set p { s.proc p with code := .taken q }

/-- `fork`, called by `p`, does not get the memory for the child in `q` and returns `-1`. -/
def forkFails (s : State) (p q : Slot) : State :=
  (s.set q { s.proc q with state := .unused }).set p { s.proc p with code := .user }

/-- `np->parent = proc`. -/
def forkLinks (s : State) (p q : Slot) : State :=
  (s.set q { s.proc q with parent := some p, origin := (s.proc p).pid }).set p
    { s.proc p with code := .linked q }

/-- `fork`, called by `p`, makes the child in `q` runnable and returns its pid. -/
def forkDone (s : State) (p q : Slot) : State :=
  (s.set q { s.proc q with state := .runnable }).set p { s.proc p with code := .user }

/-- The record of a process after `wakeup1(chan)`. -/
def woken (c : Chan) (P : Proc) : Proc :=
  if P.state = .sleeping ∧ P.chan = some c then { P with state := .runnable } else P

/-- `wakeup1(chan)`. -/
def wakeup1 (s : State) (c : Chan) : State := { s with proc := fun q => woken c (s.proc q) }

/-- The loop of `exit` that passes the children of `p` to `init`, which is woken if one of them is
a zombie. -/
def reparent (s : State) (p : Slot) : State :=
  let s' := { s with proc := fun q =>
    if (s.proc q).parent = some p then { s.proc q with parent := some 0 } else s.proc q }
  if ∃ q, (s.proc q).parent = some p ∧ (s.proc q).state = .zombie then s'.wakeup1 (.proc 0)
  else s'

/-- The part of `exit` under the lock. -/
def exited (s : State) (p : Slot) : State :=
  let s1 := match (s.proc p).parent with
    | some r => s.wakeup1 (.proc r)
    | none => s
  let s2 := s1.reparent p
  s2.set p { s2.proc p with state := .zombie }

/-- A pass of `wait`, called by `p`, over the table. -/
def scan (s : State) (p : Slot) : Waited × State :=
  match (List.finRange NPROC).find? fun q =>
      (s.proc q).parent = some p ∧ (s.proc q).state = .zombie with
  | some q =>
    let s1 := s.set q { s.proc q with state := .unused, pid := 0, parent := none, killed := false }
    (.reaped q, { s1.set p { s1.proc p with code := .user } with
      reaped := s.reaped ++ [(s.proc q).pid] })
  | none =>
    if (∀ q, (s.proc q).parent ≠ some p) ∨ (s.proc p).killed then
      (.failed, s.set p { s.proc p with code := .user })
    else (.asleep, s.set p { s.proc p with state := .sleeping, chan := some (.proc p) })

/-- `kill(pid)`. -/
def kill (s : State) (pid : UInt32) : State :=
  match (List.finRange NPROC).find? fun q => (s.proc q).pid = pid with
  | none => s
  | some q => s.set q
      { s.proc q with
        killed := true
        hit := true
        state := if (s.proc q).state = .sleeping then .runnable else (s.proc q).state }

end State

/-- The steps. -/
inductive Act
  | fork (p : Slot)
  | forkFails (p : Slot)
  | forkLinks (p : Slot)
  | forkDone (p : Slot)
  | exit (p : Slot)
  | exited (p : Slot)
  | wait (p : Slot)
  | scan (p : Slot)
  | kill (p : Slot) (pid : UInt32)
  /-- A fault of a user program. -/
  | fault (p : Slot)
  /-- The scheduler runs `p`. -/
  | dispatch (p : Slot)
  | yield (p : Slot)
  /-- Any `sleep` but that of `wait`. -/
  | sleep (p : Slot) (k : Nat)
  | wakeup (k : Nat)
  deriving DecidableEq, Repr

/-- Process `p` runs and is at `c`. -/
def State.At (s : State) (p : Slot) (c : Code) : Prop :=
  (s.proc p).state = .running ∧ (s.proc p).code = c

instance (s : State) (p : Slot) (c : Code) : Decidable (s.At p c) :=
  inferInstanceAs (Decidable (_ ∧ _))

/-- Process `p` enters a system call. -/
def State.Enters (s : State) (p : Slot) : Prop := s.At p .user ∧ (s.proc p).killed = false

instance (s : State) (p : Slot) : Decidable (s.Enters p) := inferInstanceAs (Decidable (_ ∧ _))

/-- The step `a`, if it is possible. That `init` exits is a panic. -/
def next (s : State) : Act → Option State
  | .fork p => if s.Enters p then some (s.fork p) else none
  | .forkFails p =>
    match (s.proc p).state, (s.proc p).code with
    | .running, .taken q => some (s.forkFails p q)
    | _, _ => none
  | .forkLinks p =>
    match (s.proc p).state, (s.proc p).code with
    | .running, .taken q => some (s.forkLinks p q)
    | _, _ => none
  | .forkDone p =>
    match (s.proc p).state, (s.proc p).code with
    | .running, .linked q => some (s.forkDone p q)
    | _, _ => none
  | .exit p =>
    if s.At p .user ∧ p ≠ 0 then some (s.set p { s.proc p with code := .exiting }) else none
  | .exited p => if s.At p .exiting then some (s.exited p) else none
  | .wait p => if s.Enters p then some (s.set p { s.proc p with code := .waiting }) else none
  | .scan p => if s.At p .waiting then some (s.scan p).2 else none
  | .kill p pid => if s.Enters p then some (s.kill pid) else none
  | .fault p => if s.At p .user then some (s.set p { s.proc p with killed := true }) else none
  | .dispatch p =>
    if (s.proc p).state = .runnable then some (s.set p { s.proc p with state := .running })
    else none
  | .yield p =>
    if (s.proc p).state = .running then some (s.set p { s.proc p with state := .runnable })
    else none
  | .sleep p k =>
    if (s.proc p).state = .running ∧ (s.proc p).code ≠ .waiting then
      some (s.set p { s.proc p with state := .sleeping, chan := some (.other k) })
    else none
  | .wakeup k => some (s.wakeup1 (.other k))

/-- Every interleaving of the steps. -/
def system : System State Act := .ofNext (· = initial) next

/-! ## What a step can do -/

/-- The steps, each with where its process has to be. -/
inductive Step (s : State) : Act → State → Prop
  | fork : s.Enters p → Step s (.fork p) (s.fork p)
  | forkFails : (s.proc p).state = .running → (s.proc p).code = .taken q →
      Step s (.forkFails p) (s.forkFails p q)
  | forkLinks : (s.proc p).state = .running → (s.proc p).code = .taken q →
      Step s (.forkLinks p) (s.forkLinks p q)
  | forkDone : (s.proc p).state = .running → (s.proc p).code = .linked q →
      Step s (.forkDone p) (s.forkDone p q)
  | exit : s.At p .user ∧ p ≠ 0 → Step s (.exit p) (s.set p { s.proc p with code := .exiting })
  | exited : s.At p .exiting → Step s (.exited p) (s.exited p)
  | wait : s.Enters p → Step s (.wait p) (s.set p { s.proc p with code := .waiting })
  | scan : s.At p .waiting → Step s (.scan p) (s.scan p).2
  | kill : s.Enters p → Step s (.kill p pid) (s.kill pid)
  | fault : s.At p .user → Step s (.fault p) (s.set p { s.proc p with killed := true })
  | dispatch : (s.proc p).state = .runnable →
      Step s (.dispatch p) (s.set p { s.proc p with state := .running })
  | yield : (s.proc p).state = .running →
      Step s (.yield p) (s.set p { s.proc p with state := .runnable })
  | sleep : (s.proc p).state = .running ∧ (s.proc p).code ≠ .waiting →
      Step s (.sleep p k) (s.set p { s.proc p with state := .sleeping, chan := some (.other k) })
  | wakeup : Step s (.wakeup k) (s.wakeup1 (.other k))

/-- `next` takes these steps only. -/
theorem step_of_next (h : next s a = some s') : Step s a s' := by
  cases a with
  | forkFails p | forkLinks p | forkDone p =>
    simp only [next] at h
    split at h <;> cases h
    constructor <;> assumption
  | wakeup k =>
    cases h
    exact .wakeup
  | _ =>
    simp only [next, Option.ite_none_right_eq_some, Option.some.injEq] at h
    obtain ⟨hp, rfl⟩ := h
    constructor
    exact hp

end Msboss.Ptable
