import Msboss.Param
import Msboss.Lib.System

/-!
# The mutex calls

`initmutex`, `mxacquire`, `mxrelease` and `mxdelete` of `proc.c` over the table `mxarray`, and the
part of `exit` that deletes mutexes. Each call is one step but for `mxacquire`, which stops at its
`sleep` and goes on with `State.resume` once it is woken. A process is a slot of `ptable`; the slot
of an exited process is free for another one.

A name is the pointer the caller passed: `initmutex` compares the pointers, and `0` marks a free
entry. An entry's `id` is its index (`mxarray_init`), and its `name_len` is never read.
-/

namespace Msboss.Mutex

open Function

/-- A slot of `ptable.proc`. -/
abbrev Slot := Fin NPROC

/-- An index of `mxarray`, or of a process's `mxproc`. -/
abbrev Mux := Fin MUX_MAXNUM

instance : NeZero MUX_MAXNUM := ⟨by decide⟩

/-- `struct mutex`. -/
structure Entry where
  lock : Bool
  name : UInt32
  num_proc : UInt32
  deriving DecidableEq, Repr

/-- An entry no mutex uses. -/
def Entry.free : Entry := { lock := false, name := 0, num_proc := 0 }

/-- The entry after one more process has joined it, or made it. -/
def Entry.joined (e : Entry) (name : UInt32) : Entry :=
  if e.name = 0 then { lock := false, name, num_proc := e.num_proc + 1 }
  else { e with num_proc := e.num_proc + 1 }

/-- What a process is doing. -/
inductive Pc
  /-- There is no process in the slot, or a zombie. -/
  | dead
  /-- It runs, in no mutex call. -/
  | run
  /-- It sleeps in `mxacquire(m)` on `&mxarray[g].name`. -/
  | asleep (m g : Mux)
  /-- It was woken in `mxacquire(m)` and has not gone on yet. -/
  | woken (m g : Mux)
  deriving DecidableEq, Repr

/-- What the mutex calls see of a `struct proc`, with the handles `initmutex` has returned to the
process and the entries it is in: it has returned from `mxacquire` on a handle that denoted the
entry and has not called `mxrelease` on it since. -/
structure Proc where
  pc : Pc
  mxproc : Mux → Option Mux
  handles : Finset Mux
  held : Finset Mux

/-- A slot without a process, and what `allocproc` makes of `mxproc`. -/
def Proc.clear (c : Pc) : Proc := { pc := c, mxproc := fun _ => none, handles := ∅, held := ∅ }

/-- The mutexes and the processes. -/
structure State where
  mxarray : Mux → Entry
  proc : Slot → Proc

/-- After `mxarray_init` and `userinit`: no mutex, and `init` in the first slot. -/
def initial : State where
  mxarray _ := .free
  proc p := .clear (if p = 0 then .run else .dead)

namespace State

/-- Replaces the record of process `p`. -/
def setProc (s : State) (p : Slot) (P : Proc) : State :=
  { s with proc := update s.proc p P }

/-- Replaces an entry of `mxarray`. -/
def setEntry (s : State) (g : Mux) (e : Entry) : State :=
  { s with mxarray := update s.mxarray g e }

@[simp] theorem setProc_mxarray (s : State) (p : Slot) (P : Proc) :
    (s.setProc p P).mxarray = s.mxarray := rfl
@[simp] theorem setProc_proc (s : State) (p : Slot) (P : Proc) :
    (s.setProc p P).proc = update s.proc p P := rfl
@[simp] theorem setEntry_mxarray (s : State) (g : Mux) (e : Entry) :
    (s.setEntry g e).mxarray = update s.mxarray g e := rfl
@[simp] theorem setEntry_proc (s : State) (g : Mux) (e : Entry) :
    (s.setEntry g e).proc = s.proc := rfl

/-- The entry at which the first loop of `initmutex` stops: free, or with the same name. -/
def scan (s : State) (name : UInt32) : Option Mux :=
  (List.finRange MUX_MAXNUM).find? fun i => (s.mxarray i).name == 0 || (s.mxarray i).name == name

/-- The first unused index of `mxproc`. -/
def freeHandle (s : State) (p : Slot) : Option Mux :=
  (List.finRange MUX_MAXNUM).find? fun j => ((s.proc p).mxproc j).isNone

/-- `initmutex(name, _)`, called by `p`: the handle, or `none` for `-1`. -/
def initmutex (s : State) (p : Slot) (name : UInt32) : Option Mux × State :=
  match s.scan name with
  | none => (none, s)
  | some i =>
    match s.freeHandle p with
    | none => (none, s)
    | some j =>
      (some j, (s.setEntry i ((s.mxarray i).joined name)).setProc p
        { s.proc p with
          mxproc := update (s.proc p).mxproc j (some i)
          handles := insert j (s.proc p).handles })

/-- `mxacquire` returns to `p`, on a handle that denotes `g`. -/
def enter (s : State) (p : Slot) (g : Mux) : State :=
  s.setProc p { s.proc p with pc := .run, held := insert g (s.proc p).held }

/-- `xchg(&mxarray[g].lock, b)`. -/
def xchg (s : State) (g : Mux) (b : Bool) : State :=
  s.setEntry g { s.mxarray g with lock := b }

/-- `mxacquire(m)`, called by `p`, up to its end or its `sleep`. The lock is tested at the entry the
handle denotes and set at the entry the handle numbers. -/
def mxacquire (s : State) (p : Slot) (m : Mux) : State :=
  match (s.proc p).mxproc m with
  | none => s
  | some g =>
    if (s.mxarray g).name = 0 then s.enter p g
    else if (s.mxarray g).lock then s.setProc p { s.proc p with pc := .asleep m g }
    else (s.xchg m true).enter p g

/-- `mxacquire(m)` after its `sleep`. -/
def resume (s : State) (p : Slot) (m g : Mux) : State :=
  (s.xchg m true).enter p g

/-- `wakeup(&mxarray[g].name)`. -/
def wakeup (s : State) (g : Mux) : State :=
  { s with proc := fun q => match (s.proc q).pc with
      | .asleep m g' => if g' = g then { s.proc q with pc := .woken m g } else s.proc q
      | _ => s.proc q }

/-- The call of `mxrelease` ends what `p` holds of `g`. -/
def leave (s : State) (p : Slot) (g : Mux) : State :=
  s.setProc p { s.proc p with held := (s.proc p).held.erase g }

/-- `mxrelease(m)`, called by `p`. -/
def mxrelease (s : State) (p : Slot) (m : Mux) : State :=
  match (s.proc p).mxproc m with
  | none => s
  | some g =>
    if (s.mxarray g).name = 0 then s.leave p g
    else if (s.mxarray g).lock then (s.xchg g false).leave p g
    else (s.wakeup g).leave p g

/-- `mxdelete(m)`: whoever calls it, it is the first process of `ptable` that loses the handle. -/
def mxdelete (s : State) (m : Mux) : State :=
  match (s.proc 0).mxproc m with
  | none => s
  | some g =>
    let e := s.mxarray g
    if e.name = 0 then s
    else (s.setEntry g (if e.num_proc - 1 = 0 then .free
        else { e with num_proc := e.num_proc - 1 })).setProc 0
      { s.proc 0 with mxproc := update (s.proc 0).mxproc m none }

/-- The loop of `exit` over the handles of `p`. -/
def deleteAll (s : State) (p : Slot) : State :=
  (List.finRange MUX_MAXNUM).foldl
    (fun s fd => if ((s.proc p).mxproc fd).isSome then s.mxdelete fd else s) s

/-- `exit`, called by `p`. -/
def exit (s : State) (p : Slot) : State :=
  let s := s.deleteAll p
  s.setProc p { s.proc p with pc := .dead, handles := ∅, held := ∅ }

end State

/-- The calls, and the end of a `sleep`. -/
inductive Act
  /-- `allocproc` gives the free slot `p` to a new process. -/
  | fork (p : Slot)
  | initmutex (p : Slot) (name : UInt32)
  | mxacquire (p : Slot) (m : Mux)
  | resume (p : Slot)
  | mxrelease (p : Slot) (m : Mux)
  | mxdelete (p : Slot) (m : Mux)
  | exit (p : Slot)
  deriving DecidableEq, Repr

/-- The process `p` runs and has got the handle `m` from `initmutex`. -/
def State.uses (s : State) (p : Slot) (m : Mux) : Bool :=
  (s.proc p).pc = .run ∧ m ∈ (s.proc p).handles

/-- One step. Processes use handles that `initmutex` returned to them, and `init` does not exit
(`exit` would panic). -/
def next (s : State) : Act → Option State
  | .fork p => if (s.proc p).pc = .dead then some (s.setProc p (.clear .run)) else none
  | .initmutex p name => if (s.proc p).pc = .run then some (s.initmutex p name).2 else none
  | .mxacquire p m => if s.uses p m then some (s.mxacquire p m) else none
  | .resume p => match (s.proc p).pc with
    | .woken m g => some (s.resume p m g)
    | _ => none
  | .mxrelease p m => if s.uses p m then some (s.mxrelease p m) else none
  | .mxdelete p m => if s.uses p m then some (s.mxdelete m) else none
  | .exit p => if (s.proc p).pc = .run ∧ p ≠ 0 then some (s.exit p) else none

/-- Every interleaving of the calls. -/
def system : System State Act := .ofNext (· = initial) next

end Msboss.Mutex
