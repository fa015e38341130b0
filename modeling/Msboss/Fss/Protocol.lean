import Msboss.Lib.System

/-!
# The file server protocol

The stubs of `fss.h` and the loop of `fileserver.c`, run by a server and any number of clients over
one shared request record and one shared response record. A stub is the list of what it does to
the records, the two mutexes and their condition variables; so is each branch of the server, which
reads the operation when it is woken and the rest of the request when it makes the system call. The
primitives are ideal: `mutex_lock` waits until the mutex is free, anybody may unlock it, `cv_wait`
waits for the next `cv_signal` and leaves the mutex alone, and `cv_signal` wakes all that wait.

The results of system calls are arbitrary. Every call of a stub has a number, which the record
carries along (`Request.stamp`), and the state keeps what the server has executed and what the
stubs have returned. The string in `data` is the one `strcpy` copied; what the server keeps for
itself between requests (`stored_path`, the checkpoint files) is in no answer and is left out.
-/

namespace Msboss.Fss

/-- The two mutexes, each with its condition variable: `mutexreq` and `mutexresp`. -/
inductive Mux
  | req
  | resp
  deriving DecidableEq, Repr

/-- The strings the server compares `operation` with. -/
inductive Op
  | write
  | read
  | open
  | close
  | mkdir
  | unlink
  | restore
  deriving DecidableEq, Repr

/-- `struct fss_request`; an operation the server does not know is `none`. -/
structure Request where
  operation : Option Op
  arg : Int
  fd : Int
  data : List UInt8
  /-- The call that wrote `operation` last. -/
  stamp : Nat
  deriving DecidableEq, Repr

/-- A store to a field of the request. -/
inductive Store
  | operation (o : Op)
  | arg (n : Int)
  | fd (n : Int)
  | data (d : List UInt8)
  deriving DecidableEq, Repr

/-- What the stubs and the server do, one step each. -/
inductive Instr
  | mutex_lock (m : Mux)
  | mutex_unlock (m : Mux)
  | cv_signal (m : Mux)
  | cv_wait (m : Mux)
  | store (f : Store)
  /-- `retval = response->res` -/
  | readRes
  /-- `return retval` -/
  | ret
  /-- The server compares `request->operation`. -/
  | dispatch
  /-- The server makes the system call of the operation and stores its result in `response->res`. -/
  | exec (o : Op)
  /-- The server exits. -/
  | exit
  deriving DecidableEq, Repr

/-! ## The stubs -/

open Instr

def fss_write (fd1 : Int) (ptr : List UInt8) (n : Int) : List Instr :=
  [mutex_lock .req, store (.operation .write), store (.arg n), store (.fd fd1), store (.data ptr),
    cv_signal .req, cv_wait .resp, mutex_unlock .resp, readRes, ret]

def fss_read (fd1 : Int) (ptr : List UInt8) (n : Int) : List Instr :=
  [mutex_lock .req, store (.operation .read), store (.arg n), store (.fd fd1), store (.data ptr),
    cv_signal .req, cv_wait .resp, mutex_unlock .resp, readRes, ret]

/-- The only stub that reads the response before it unlocks it. -/
def fss_open (path : List UInt8) (fd1 : Int) : List Instr :=
  [mutex_lock .req, store (.operation .open), store (.fd fd1), store (.data path),
    cv_signal .req, cv_wait .resp, readRes, mutex_unlock .resp, ret]

def fss_close (fd1 : Int) : List Instr :=
  [mutex_lock .req, store (.operation .close), store (.fd fd1),
    cv_signal .req, cv_wait .resp, mutex_unlock .resp, readRes, ret]

/-- The only stub that locks the response mutex before it waits. -/
def fss_mkdir (path : List UInt8) : List Instr :=
  [mutex_lock .req, store (.operation .mkdir), store (.data path),
    cv_signal .req, mutex_lock .resp, cv_wait .resp, mutex_unlock .resp, readRes, ret]

def fss_unlink (path : List UInt8) : List Instr :=
  [mutex_lock .req, store (.operation .unlink), store (.data path),
    cv_signal .req, cv_wait .resp, mutex_unlock .resp, readRes, ret]

def fss_restore : List Instr :=
  [mutex_lock .req, store (.operation .restore),
    cv_signal .req, cv_wait .resp, mutex_unlock .resp, readRes, ret]

/-- A call of a stub. -/
inductive Call
  | write (fd1 : Int) (ptr : List UInt8) (n : Int)
  | read (fd1 : Int) (ptr : List UInt8) (n : Int)
  | open (path : List UInt8) (fd1 : Int)
  | close (fd1 : Int)
  | mkdir (path : List UInt8)
  | unlink (path : List UInt8)
  | restore
  deriving DecidableEq, Repr

def Call.code : Call → List Instr
  | .write fd1 ptr n => fss_write fd1 ptr n
  | .read fd1 ptr n => fss_read fd1 ptr n
  | .open path fd1 => fss_open path fd1
  | .close fd1 => fss_close fd1
  | .mkdir path => fss_mkdir path
  | .unlink path => fss_unlink path
  | .restore => fss_restore

/-- The operation a call asks for. -/
def Call.op : Call → Op
  | .write .. => .write
  | .read .. => .read
  | .open .. => .open
  | .close _ => .close
  | .mkdir _ => .mkdir
  | .unlink _ => .unlink
  | .restore => .restore

/-- The request has the operation and the arguments of the call. -/
def Request.Carries (r : Request) (c : Call) : Prop :=
  r.operation = some c.op ∧ match c with
    | .write fd1 ptr n | .read fd1 ptr n => r.fd = fd1 ∧ r.data = ptr ∧ r.arg = n
    | .open path fd1 => r.data = path ∧ r.fd = fd1
    | .close fd1 => r.fd = fd1
    | .mkdir path | .unlink path => r.data = path
    | .restore => True

/-! ## The server -/

/-- One turn of the server's `while(1)`, up to the comparison of the operation. -/
def turn : List Instr := [cv_wait .req, dispatch]

/-- The branches of the server's loop. `restore` ends in `exit`, as does an unknown operation. -/
def branch : Option Op → List Instr
  | none | some .restore => [exit]
  | some o => [mutex_unlock .req, mutex_lock .resp, exec o, cv_signal .resp]

theorem branch_of_ne (h : o ≠ .restore) :
    branch (some o) = [mutex_unlock .req, mutex_lock .resp, exec o, cv_signal .resp] := by
  cases o <;> first | rfl | exact absurd rfl h

/-! ## The system -/

/-- What a process has still to do, and whether it is blocked in the `cv_wait` it is at. -/
structure Thread where
  code : List Instr
  waiting : Bool
  deriving DecidableEq, Repr

/-- A client, in a call unless its code is empty. -/
structure Client where
  thread : Thread
  call : Call
  id : Nat
  retval : Int
  deriving DecidableEq, Repr

/-- A request the server has executed: the operation it read when it was woken, with the fields it
read when it made the system call. -/
structure Exec where
  request : Request
  res : Int
  deriving DecidableEq, Repr

/-- A call that has returned. -/
structure Ret where
  id : Nat
  call : Call
  retval : Int
  deriving DecidableEq, Repr

/-- The shared records and mutexes, the server and the clients `ι`. -/
structure State (ι : Type) where
  locked : Mux → Bool
  request : Request
  res : Int
  server : Thread
  client : ι → Client
  calls : Nat
  executed : List Exec
  returned : List Ret

variable {ι : Type} [DecidableEq ι]

/-- The records are zero, the mutexes free, and nobody has called. -/
def initial (ι : Type) : State ι where
  locked _ := false
  request := { operation := none, arg := 0, fd := 0, data := [], stamp := 0 }
  res := 0
  server := { code := [], waiting := false }
  client _ := { thread := { code := [], waiting := false }, call := .restore, id := 0, retval := 0 }
  calls := 0
  executed := []
  returned := []

/-- A store by the call `id`. -/
def Request.store (r : Request) (id : Nat) : Store → Request
  | .operation o => { r with operation := some o, stamp := id }
  | .arg n => { r with arg := n }
  | .fd n => { r with fd := n }
  | .data d => { r with data := d }

/-- A thread that waits for `m` goes on. -/
def Thread.wake (t : Thread) (m : Mux) : Thread :=
  if t.waiting = true ∧ t.code.head? = some (cv_wait m) then
    { code := t.code.tail, waiting := false }
  else t

namespace State

def setLock (s : State ι) (m : Mux) (b : Bool) : State ι :=
  { s with locked := Function.update s.locked m b }

def setClient (s : State ι) (p : ι) (c : Client) : State ι :=
  { s with client := Function.update s.client p c }

/-- Client `p` goes on with `code`. -/
def goto (s : State ι) (p : ι) (code : List Instr) : State ι :=
  s.setClient p { s.client p with thread := { code, waiting := false } }

/-- The server goes on with `code`. -/
def serve (s : State ι) (code : List Instr) : State ι :=
  { s with server := { code, waiting := false } }

/-- `cv_signal(m)`. -/
def signal (s : State ι) (m : Mux) : State ι :=
  { s with
    server := s.server.wake m
    client := fun p => { s.client p with thread := (s.client p).thread.wake m } }

/-- The next step of client `p`, if it is not blocked. -/
def clientStep (s : State ι) (p : ι) : Option (State ι) :=
  let c := s.client p
  match c.thread with
  | { code := i :: rest, waiting := false } =>
    match i with
    | mutex_lock m => if s.locked m then none else some ((s.setLock m true).goto p rest)
    | mutex_unlock m => some ((s.setLock m false).goto p rest)
    | cv_signal m => some ((s.goto p rest).signal m)
    | cv_wait _ => some (s.setClient p { c with thread := { c.thread with waiting := true } })
    | store f => some ({ s with request := s.request.store c.id f }.goto p rest)
    | readRes => some (s.setClient p
        { c with thread := { code := rest, waiting := false }, retval := s.res })
    | ret => some ({ s with
        returned := { id := c.id, call := c.call, retval := c.retval } :: s.returned }.goto p rest)
    | dispatch | exec _ | exit => none
  | _ => none

/-- The next step of the server, if it is not blocked; a system call returns `r`. -/
def serverStep (s : State ι) (r : Int) : Option (State ι) :=
  match s.server with
  | { code := [], .. } => some (s.serve turn)
  | { code := i :: rest, waiting := false } =>
    match i with
    | mutex_lock m => if s.locked m then none else some ((s.setLock m true).serve rest)
    | mutex_unlock m => some ((s.setLock m false).serve rest)
    | cv_signal m => some ((s.serve rest).signal m)
    | cv_wait _ => some { s with server := { s.server with waiting := true } }
    | dispatch => some (s.serve (branch s.request.operation))
    | exec o => some ({ s with
        res := r
        executed := { request := { s.request with operation := some o }, res := r } ::
          s.executed }.serve rest)
    | store _ | readRes | ret | exit => none
  | _ => none

end State

instance neZeroTwo : NeZero 2 := ⟨by decide⟩

/-- The steps: a client calls a stub, a client goes on, the server goes on. -/
inductive Act (ι : Type)
  | call (p : ι) (c : Call)
  | client (p : ι)
  | server (r : Int)
  deriving DecidableEq, Repr

/-- One step. -/
def next (s : State ι) : Act ι → Option (State ι)
  | .call p c =>
    if (s.client p).thread.code = [] then
      some ({ s with calls := s.calls + 1 }.setClient p
        { thread := { code := c.code, waiting := false }, call := c, id := s.calls, retval := 0 })
    else none
  | .client p => s.clientStep p
  | .server r => s.serverStep r

/-- Every interleaving of the server and the clients `ι`. -/
def system (ι : Type) [DecidableEq ι] : System (State ι) (Act ι) :=
  .ofNext (· = initial ι) next

/-! ## The shape of a stub

Every stub takes the request mutex, makes its stores, signals, waits for the response and leaves.
-/

/-- The stores of a stub. -/
def Call.stores : Call → List Store
  | .write fd1 ptr n => [.operation .write, .arg n, .fd fd1, .data ptr]
  | .read fd1 ptr n => [.operation .read, .arg n, .fd fd1, .data ptr]
  | .open path fd1 => [.operation .open, .fd fd1, .data path]
  | .close fd1 => [.operation .close, .fd fd1]
  | .mkdir path => [.operation .mkdir, .data path]
  | .unlink path => [.operation .unlink, .data path]
  | .restore => [.operation .restore]

/-- What a stub does once it is woken. -/
def Call.post : Call → List Instr
  | .open .. => [readRes, mutex_unlock .resp, ret]
  | _ => [mutex_unlock .resp, readRes, ret]

/-- What a stub does once it has signalled. -/
def Call.wait (c : Call) : List Instr := cv_wait .resp :: c.post

/-- What a stub does from the signal on. -/
def Call.signal (c : Call) : List Instr :=
  cv_signal .req :: match c with
    | .mkdir _ => mutex_lock .resp :: c.wait
    | _ => c.wait

theorem Call.code_eq (c : Call) : c.code = mutex_lock .req :: (c.stores.map store ++ c.signal) := by
  cases c <;> rfl

/-- What a stub does after it is woken, instruction by instruction. -/
theorem Call.post_cons {c : Call} (h : i :: rest <:+ c.post) :
    (i = mutex_unlock .resp ∧ rest ≠ []) ∨ (i = readRes ∧ rest ≠ []) ∨ (i = ret ∧ rest = []) := by
  cases c <;> simp only [Call.post, List.suffix_cons_iff, List.suffix_nil, List.cons.injEq,
    reduceCtorEq, or_false] at h <;>
    rcases h with ⟨rfl, rfl⟩ | ⟨rfl, rfl⟩ | ⟨rfl, rfl⟩ <;> simp

theorem Thread.wake_of_not_waiting {t : Thread} (h : t.waiting = false) (m : Mux) :
    t.wake m = t := by
  simp [Thread.wake, h]

/-! ## The server at rest -/

/-- The server works on no request. -/
def Quiet (t : Thread) : Prop := t = ⟨[], false⟩ ∨ t.code = turn ∨ t = ⟨[exit], false⟩

omit [DecidableEq ι] in
/-- A server at rest takes nothing up by itself. -/
theorem Quiet.step {s s' : State ι} (h : Quiet s.server)
    (hs : s.serverStep r = some s') : ∃ t, Quiet t ∧ s' = { s with server := t } := by
  obtain h | h | h := h
  · simp only [State.serverStep, h, Option.some.injEq] at hs
    exact ⟨⟨turn, false⟩, .inr (.inl rfl), hs.symm⟩
  · rcases hsv : s.server with ⟨code, w⟩
    rw [hsv] at h
    cases h
    cases w with
    | true => simp [State.serverStep, hsv] at hs
    | false =>
      simp only [State.serverStep, hsv, Option.some.injEq] at hs
      exact ⟨⟨turn, true⟩, .inr (.inl rfl), hs.symm⟩
  · simp [State.serverStep, h] at hs

/-- A signal wakes a server at rest if it waits. -/
theorem Quiet.wake (h : Quiet t) : Quiet (t.wake .req) ∨ t.wake .req = ⟨[dispatch], false⟩ := by
  obtain rfl | h | rfl := h
  · exact .inl (.inl rfl)
  · obtain ⟨code, w⟩ := t
    cases h
    cases w with
    | true => exact .inr rfl
    | false => exact .inl (.inr (.inl rfl))
  · exact .inl (.inr (.inr rfl))

end Msboss.Fss
