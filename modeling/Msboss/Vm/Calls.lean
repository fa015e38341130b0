import Msboss.Vm.Exec
import Msboss.Lib.System

/-!
# Processes and their memory

The memory side of `growproc`, `fork`, `exec`, `exit`, `wait`, `shm_get` and `shm_rem`, called by
any processes, each call one step, and the stores of user programs. A slot of the process table is
`none` while it is `UNUSED`; a process that has exited is a zombie until its parent has waited for
it. A step that panics leads nowhere, a `wild` one anywhere.

`boot` is what `main` does to memory before the first process runs: the kernel's page directory and
`userinit`, on whatever free list `kinit1` and `kinit2` have made, and `shm_init`.
-/

namespace Msboss.Vm

/-- The memory, the scheduler's page directory and the process table. -/
structure State where
  mem : Memory
  kpgdir : PageDir
  proc : Pid → Option Proc

/-! ## Boot -/

/-- `shm_init`. -/
def shm_init : Slot → Shm := fun _ => { name := safestrcpy DNE 16, numAccess := 0, shmPhys := 0 }

/-- The first process. -/
def initproc (kstack : Frame) (d : PageDir) : Proc where
  sz := PGSIZE
  pgdir := d
  kstack := kstack
  parent := none
  zombie := false
  shm_name _ := safestrcpy DNE 16
  shm_vir _ := 0
  shm_phys _ := 0

/-- `kvmalloc`, `userinit` and `shm_init`, with the contents of memory and the code of the first
process. -/
def boot (freelist : List Frame) (page : Frame → Nat → UInt8) (initcode : List UInt8) :
    Except Stop State := do
  let m : Memory := { freelist, page, shm_arr := shm_init, used := 0, oom := false }
  -- neither `kvmalloc` nor `userinit` looks whether it got what it asked for
  match ← m.setupkvm with
  | (none, _) => .error .wild
  | (some kpgdir, m) =>
    match m.kalloc with
    | (none, _) => .error .wild
    | (some kstack, m) =>
      match ← m.setupkvm with
      | (none, _) => .error (.panic .userinit)
      | (some d, m) =>
        let (m, d) ← m.inituvm d initcode
        .ok
          { mem := m, kpgdir, proc := Function.update (fun _ => none) 0 (some (initproc kstack d)) }

/-- A frame that `freerange` may put on the free list. -/
def Usable (f : Frame) : Prop := END ≤ f * PGSIZE + KERNBASE ∧ f * PGSIZE < PHYSTOP

/-- The states after boot. -/
def Booted (s : State) : Prop :=
  ∃ freelist page initcode, freelist.Nodup ∧ (∀ f ∈ freelist, Usable f) ∧
    boot freelist page initcode = .ok s

/-! ## The calls -/

/-- `growproc(n)`. -/
def Memory.growproc (m : Memory) (P : Proc) (n : Int) : Except Stop (Bool × Memory × Proc) := do
  let newsz := ((P.sz + n) % 2 ^ 32).toNat
  if n > 0 then
    match ← m.allocuvm P.pgdir P.sz newsz with
    | (0, m, d) => .ok (false, m, { P with pgdir := d })
    | (sz, m, d) => .ok (true, m, { P with pgdir := d, sz })
  else if n < 0 then
    match ← m.deallocuvm P.pgdir P.sz newsz 0 with
    | (0, m, d) => .ok (false, m, { P with pgdir := d })
    | (sz, m, d) => .ok (true, m, { P with pgdir := d, sz })
  else .ok (true, m, P)

/-- The loop of `shm_assign` over `n` pages from the address `i`. -/
def Memory.assignLoop (m : Memory) (cur d : PageDir) (physLoc : Nat) :
    Nat → Nat → Except Stop Nat
  | 0, _ => .ok (2 ^ 32 - 1)
  | n + 1, i => do
    let e ← match d.pte i with
      | some e => .ok e
      | none => m.nullPte cur
    if e.addr = physLoc then .ok i else m.assignLoop cur d physLoc n (i + PGSIZE)

/-- `shm_assign(d, sz, physLoc)`, in the address space `cur`; `2 ^ 32 - 1` is the result `-1`. -/
def Memory.shm_assign (m : Memory) (cur d : PageDir) (sz physLoc : Nat) : Except Stop Nat :=
  m.assignLoop cur d physLoc ((sz + (PGSIZE - 1)) / PGSIZE) 0

/-- The loop of `fork` over the regions of the parent: the child's `shm_vir`. -/
def Memory.inherit (m : Memory) (P : Proc) (d : PageDir) :
    List Slot → (Slot → Nat) → Except Stop (Slot → Nat)
  | [], vir => .ok vir
  | i :: is, vir => do
    let v ← m.shm_assign P.pgdir d P.sz (P.shm_phys i)
    m.inherit P d is (Function.update vir i v)

/-- The child that `fork` makes of `P` in slot `p`. -/
def Proc.child (P : Proc) (p : Pid) (kstack : Frame) (d : PageDir) (vir : Slot → Nat) : Proc where
  sz := P.sz
  pgdir := d
  kstack := kstack
  parent := some p
  zombie := false
  shm_name i := safestrcpy (P.shm_name i) 16
  shm_vir := vir
  shm_phys := P.shm_phys

namespace State

/-- Replaces the memory and the process in slot `p`. -/
def set (s : State) (m : Memory) (p : Pid) (P : Option Proc) : State :=
  { s with mem := m, proc := Function.update s.proc p P }

/-- `fork`, called by `P` in slot `p`. -/
def fork (s : State) (p : Pid) (P : Proc) : Except Stop (Bool × State) :=
  match (List.finRange NPROC).find? fun q => (s.proc q).isNone with
  | none => .ok (false, s)
  | some q =>
    match s.mem.kalloc with
    | (none, m) => .ok (false, { s with mem := m })
    | (some kstack, m) => do
      match ← m.copyuvm P.pgdir P.sz with
      | (none, m) =>
        let m ← m.kfree (kstack * PGSIZE)
        .ok (false, { s with mem := m })
      | (some d, m) =>
        let vir ← m.inherit P d (List.finRange SHM_MAXNUM) fun _ => 0
        .ok (true, s.set m q (some (P.child p kstack d vir)))

/-- What becomes of the process in slot `q` when the one in slot `p` exits. -/
def exited (p q : Pid) (Q : Proc) : Proc :=
  if q = p then { Q with zombie := true }
  else if Q.parent = some p then { Q with parent := some 0 }
  else Q

/-- `exit`, called from slot `p`. -/
def exit (s : State) (p : Pid) : Except Stop (Bool × State) :=
  if p = 0 then .error (.panic .initExiting)
  else .ok (true, { s with proc := fun q => (s.proc q).map (exited p q) })

/-- `wait`, called from slot `p`; `none` while there is nothing to reap. -/
def wait (s : State) (p : Pid) : Option (Except Stop (Bool × State)) :=
  let child (q : Pid) : Bool := (s.proc q).any fun Q => Q.parent = some p
  match (List.finRange NPROC).find? fun q => child q && (s.proc q).any (·.zombie) with
  | some q =>
    match s.proc q with
    | none => none
    | some Q => some do
      let m ← s.mem.kfree (Q.kstack * PGSIZE)
      let m ← m.freevm Q.pgdir (-1)
      .ok (true, s.set m q none)
  | none => if (List.finRange NPROC).any child then none else some (.ok (false, s))

end State

/-- The calls, and a store by a user program. -/
inductive Act
  | growproc (p : Pid) (n : Int)
  | fork (p : Pid)
  | exec (p : Pid) (file : Option (List UInt8)) (argv : List (List UInt8))
  | exit (p : Pid)
  | wait (p : Pid)
  | shm_get (p : Pid) (name : List UInt8) (length : Int) (junk : Nat)
  | shm_rem (p : Pid) (name : List UInt8) (length : Int)
  | store (p : Pid) (va : Nat) (b : UInt8)
  deriving DecidableEq, Repr

/-- The process that acts. -/
def Act.pid : Act → Pid
  | .growproc p _ | .fork p | .exec p .. | .exit p | .wait p | .shm_get p .. | .shm_rem p ..
  | .store p .. => p

/-- The call of the process `P` in slot `p`, with whether it succeeds; `none` is a call that does
not return in this state. -/
def State.call (s : State) (P : Proc) : Act → Option (Except Stop (Bool × State))
  | .growproc p n => some do
    let (ok, m, P) ← s.mem.growproc P n
    .ok (ok, s.set m p (some P))
  | .fork p => some (s.fork p P)
  | .exec p file argv => some do
    let (ok, m, P) ← s.mem.exec P file argv
    .ok (ok, s.set m p (some P))
  | .exit p => some (s.exit p)
  | .wait p => s.wait p
  | .shm_get p name length junk => some do
    let (va, m, P) ← s.mem.sys_shm_get P name length junk
    .ok (va ≠ 0, s.set m p (some P))
  | .shm_rem p name length => some do
    let (r, m, P) ← s.mem.sys_shm_rem P name length
    .ok (r = 1, s.set m p (some P))
  | .store _ va b =>
    match P.pgdir.pte va with
    | some e =>
      if va < KERNBASE ∧ e.p ∧ e.w ∧ e.u then
        some (.ok (true, { s with mem := s.mem.write e.frame (va % PGSIZE) [b] }))
      else none
    | none => none

/-- The step `a`, if its process runs; `oom` is about this step. -/
def State.outcome (s : State) (a : Act) : Option (Except Stop (Bool × State)) :=
  match s.proc a.pid with
  | some P =>
    if P.zombie then none else { s with mem := { s.mem with oom := false } }.call P a
  | none => none

/-- The steps of the system. -/
inductive Step (s : State) (a : Act) : State → Prop
  | ok {b : Bool} {s' : State} : s.outcome a = some (.ok (b, s')) → Step s a s'
  | wild {s' : State} : s.outcome a = some (.error .wild) → Step s a s'

/-- Every sequence of calls from boot. -/
def system : System State Act where
  init := Booted
  step := Step

end Msboss.Vm
