import Msboss.Param
import Msboss.Lib.System
import Msboss.Lib.Tally

/-!
# Open files and pipes

The file table and the descriptor tables: `filealloc`, `filedup` and `fileclose` of `file.c`,
`pipealloc` and `pipeclose` of `pipe.c`, `fdalloc`, `sys_dup`, `sys_close`, `sys_pipe` and the part
of `sys_open` that follows the lookup of `sysfile.c`, and what `fork` and `exit` do with
descriptors.

What a file of type `FD_INODE` points at and what page a pipe is in are parameters. `kalloc` is an
argument of the calls that use it, as is what the lookup of `open` comes to. A pipe's page keeps
what is in it until it is given out again, and how often a page was given out and passed to `kfree`
is counted.
-/

namespace Msboss.Ftable

open Function

/-- A file structure, as its index in `ftable.file`. -/
abbrev FileId := Fin NFILE

/-- A slot of the process table. -/
abbrev Slot := Fin NPROC

/-- A file descriptor. -/
abbrev Fd := Fin NOFILE

instance : NeZero NFILE := ⟨by decide⟩
instance : NeZero NOFILE := ⟨by decide⟩

/-- What a file is about. -/
inductive FdType
  | none
  | pipe
  | inode
  deriving DecidableEq, Repr

/-- `struct file` without its offset. A pointer that was never set is `none`. -/
structure File (ι π : Type) where
  type : FdType
  ref : Int
  readable : Bool
  writable : Bool
  pipe : Option π
  ip : Option ι

/-- The ends of `struct pipe`. -/
structure Ends where
  readopen : Bool
  writeopen : Bool
  deriving DecidableEq, Repr

/-- The panics of the modelled functions. -/
inductive Panic
  | filedup
  | fileclose
  deriving DecidableEq, Repr

/-- The tables and the pipes, and how often each page was given out for a pipe and freed. -/
structure Files (ι π : Type) where
  file : FileId → File ι π
  ofile : Slot → Fd → Option FileId
  live : Slot → Bool
  pipe : π → Ends
  made : π → Nat
  freed : π → Nat

variable {ι π : Type} [DecidableEq π]

/-- After boot: one process, without descriptors. -/
def initial : Files ι π where
  file _ :=
    { type := .none, ref := 0, readable := false, writable := false, pipe := none, ip := none }
  ofile _ _ := none
  live p := p = 0
  pipe _ := { readopen := false, writeopen := false }
  made _ := 0
  freed _ := 0

namespace Files

/-- Replaces a file structure. -/
def setFile (s : Files ι π) (f : FileId) (F : File ι π) : Files ι π :=
  { s with file := update s.file f F }

/-- `ofile[fd] = f` for process `p`. -/
def setFd (s : Files ι π) (p : Slot) (fd : Fd) (f : Option FileId) : Files ι π :=
  { s with ofile := update s.ofile p (update (s.ofile p) fd f) }

/-! ## `file.c` and `pipe.c` -/

/-- `filealloc`. -/
def filealloc (s : Files ι π) : Option (FileId × Files ι π) :=
  match (List.finRange NFILE).find? fun f => (s.file f).ref = 0 with
  | none => none
  | some f => some (f, s.setFile f { s.file f with ref := 1 })

/-- `filedup`. -/
def filedup (s : Files ι π) (f : FileId) : Except Panic (Files ι π) :=
  if (s.file f).ref < 1 then .error .filedup
  else .ok (s.setFile f { s.file f with ref := (s.file f).ref + 1 })

/-- `pipeclose`. -/
def pipeclose (s : Files ι π) (p : π) (writable : Bool) : Files ι π :=
  let e := if writable then { s.pipe p with writeopen := false }
    else { s.pipe p with readopen := false }
  { s with
    pipe := update s.pipe p e
    freed := if !e.readopen && !e.writeopen then update s.freed p (s.freed p + 1)
      else s.freed }

/-- `fileclose`, with the inode that it gives to `iput`. -/
def fileclose (s : Files ι π) (f : FileId) : Except Panic (Option ι × Files ι π) :=
  let ff := s.file f
  if ff.ref < 1 then .error .fileclose
  else if ff.ref - 1 > 0 then .ok (none, s.setFile f { ff with ref := ff.ref - 1 })
  else
    let s := s.setFile f { ff with ref := 0, type := .none }
    match ff.type, ff.pipe with
    | .pipe, some p => .ok (none, s.pipeclose p ff.writable)
    | .inode, _ => .ok (ff.ip, s)
    | _, _ => .ok (none, s)

/-- The two files of a new pipe in page `p`. -/
def openPipe (s : Files ι π) (f0 f1 : FileId) (p : π) : Files ι π :=
  let s := { s with
    pipe := update s.pipe p { readopen := true, writeopen := true }
    made := update s.made p (s.made p + 1) }
  let s := s.setFile f0
    { s.file f0 with type := .pipe, readable := true, writable := false, pipe := some p }
  s.setFile f1 { s.file f1 with type := .pipe, readable := false, writable := true, pipe := some p }

/-- `pipealloc`, with the page that `kalloc` returns. -/
def pipealloc (s : Files ι π) (mem : Option π) :
    Except Panic (Option (FileId × FileId) × Files ι π) :=
  match s.filealloc with
  | none => .ok (none, s)
  | some (f0, s) =>
    match s.filealloc with
    | none => do
      let (_, s) ← s.fileclose f0
      return (none, s)
    | some (f1, s) =>
      match mem with
      | none => do
        let (_, s) ← s.fileclose f0
        let (_, s) ← s.fileclose f1
        return (none, s)
      | some p => .ok (some (f0, f1), s.openPipe f0 f1 p)

/-! ## `sysfile.c` -/

/-- `argfd` for a descriptor argument. -/
def argfd (s : Files ι π) (p : Slot) (fd : Int) : Option (Fd × FileId) :=
  if h : 0 ≤ fd ∧ fd < NOFILE then
    let i : Fd := ⟨fd.toNat, by omega⟩
    (s.ofile p i).map (i, ·)
  else none

/-- `fdalloc`. -/
def fdalloc (s : Files ι π) (p : Slot) (f : FileId) : Option (Fd × Files ι π) :=
  match (List.finRange NOFILE).find? fun fd => s.ofile p fd = none with
  | none => none
  | some fd => some (fd, s.setFd p fd (some f))

/-- `sys_dup`. -/
def sys_dup (s : Files ι π) (p : Slot) (fd : Int) : Except Panic (Int × Files ι π) :=
  match s.argfd p fd with
  | none => .ok (-1, s)
  | some (_, f) =>
    match s.fdalloc p f with
    | none => .ok (-1, s)
    | some (fd, s) => do
      let s ← s.filedup f
      return (fd.1, s)

/-- `sys_close`, with the inode that it gives to `iput`. -/
def sys_close (s : Files ι π) (p : Slot) (fd : Int) : Except Panic (Int × Option ι × Files ι π) :=
  match s.argfd p fd with
  | none => .ok (-1, none, s)
  | some (fd, f) => do
    let (ip, s) ← (s.setFd p fd none).fileclose f
    return (0, ip, s)

/-- `sys_pipe`; `arg` is whether the argument was a buffer of the process. -/
def sys_pipe (s : Files ι π) (p : Slot) (arg : Bool) (mem : Option π) :
    Except Panic (Int × Files ι π) :=
  if !arg then .ok (-1, s)
  else do
    match ← s.pipealloc mem with
    | (none, s) => return (-1, s)
    | (some (rf, wf), s) =>
      match s.fdalloc p rf with
      | none =>
        let (_, s) ← s.fileclose rf
        let (_, s) ← s.fileclose wf
        return (-1, s)
      | some (fd0, s) =>
        match s.fdalloc p wf with
        | none =>
          let (_, s) ← (s.setFd p fd0 none).fileclose rf
          let (_, s) ← s.fileclose wf
          return (-1, s)
        | some (_, s) => return (0, s)

/-- The flags of `fcntl.h`. -/
def O_WRONLY : UInt32 := 0x001
def O_RDWR : UInt32 := 0x002
def O_CREATE : UInt32 := 0x200

/-- The part of `sys_open` after the inode is found; on failure the inode is put. -/
def openFile (s : Files ι π) (p : Slot) (ip : ι) (omode : UInt32) :
    Except Panic (Option Fd × Files ι π) :=
  match s.filealloc with
  | none => .ok (none, s)
  | some (f, s) =>
    match s.fdalloc p f with
    | none => do
      let (_, s) ← s.fileclose f
      return (none, s)
    | some (fd, s) => .ok (some fd, s.setFile f
        { s.file f with
          type := .inode
          ip := some ip
          readable := omode &&& O_WRONLY = 0
          writable := omode &&& O_WRONLY ≠ 0 ∨ omode &&& O_RDWR ≠ 0 })

/-! ## `fork` and `exit` -/

/-- The loop of `fork` over the descriptors `l` of `p`. -/
def forkFds (p q : Slot) : List Fd → Files ι π → Except Panic (Files ι π)
  | [], s => .ok s
  | fd :: l, s =>
    match s.ofile p fd with
    | none => forkFds p q l s
    | some f => do
      let s ← s.filedup f
      forkFds p q l (s.setFd q fd (some f))

/-- `fork` into the slot `q`. -/
def fork (s : Files ι π) (p q : Slot) : Except Panic (Files ι π) :=
  forkFds p q (List.finRange NOFILE) { s with live := update s.live q true }

/-- The loop of `exit` over the descriptors `l` of `p`, with the inodes that it gives to `iput`. -/
def exitFds (p : Slot) : List Fd → Files ι π → Except Panic (List ι × Files ι π)
  | [], s => .ok ([], s)
  | fd :: l, s =>
    match s.ofile p fd with
    | none => exitFds p l s
    | some f => do
      let (ip, s) ← s.fileclose f
      let (ips, s) ← exitFds p l (s.setFd p fd none)
      return (ip.toList ++ ips, s)

/-- `exit`. -/
def exit (s : Files ι π) (p : Slot) : Except Panic (List ι × Files ι π) := do
  let (ips, s) ← exitFds p (List.finRange NOFILE) s
  return (ips, { s with live := update s.live p false })

end Files

/-- The calls, each with what the rest of the kernel comes to in it. -/
inductive Act (ι π : Type)
  /-- `open`; the lookup finds an inode or fails. -/
  | open (p : Slot) (ip : Option ι) (omode : UInt32)
  | close (p : Slot) (fd : Int)
  | dup (p : Slot) (fd : Int)
  /-- `pipe`; the argument is a buffer or not, `kalloc` returns a page or fails. -/
  | pipe (p : Slot) (arg : Bool) (mem : Option π)
  /-- `fork`; there are a slot and the memory for the child or not. -/
  | fork (p : Slot) (q : Option Slot)
  | exit (p : Slot)

/-- The call is possible: a process makes it, the slot of a child is not in use, and `kalloc` gives
out no page of a pipe. -/
def Files.Enabled (s : Files ι π) : Act ι π → Prop
  | .open p _ _ | .close p _ | .dup p _ | .pipe p _ none | .fork p none => s.live p = true
  | .pipe p _ (some g) => s.live p = true ∧ s.made g = s.freed g
  | .fork p (some q) => s.live p = true ∧ s.live q = false
  | .exit p => s.live p = true ∧ p ≠ 0

/-- The state after a call. -/
def Files.call (s : Files ι π) : Act ι π → Except Panic (Files ι π)
  | .open _ none _ => .ok s
  | .open p (some ip) omode => return (← s.openFile p ip omode).2
  | .close p fd => return (← s.sys_close p fd).2.2
  | .dup p fd => return (← s.sys_dup p fd).2
  | .pipe p arg mem => return (← s.sys_pipe p arg mem).2
  | .fork _ none => .ok s
  | .fork p (some q) => s.fork p q
  | .exit p => return (← s.exit p).2

instance (s : Files ι π) (a : Act ι π) : Decidable (s.Enabled a) := by
  unfold Files.Enabled
  split <;> infer_instance

/-- A call that is possible and does not panic. -/
def next (s : Files ι π) (a : Act ι π) : Option (Files ι π) :=
  if s.Enabled a then (s.call a).toOption else none

/-- All sequences of calls. -/
def system (ι π : Type) [DecidableEq π] : System (Files ι π) (Act ι π) := .ofNext (· = initial) next

end Msboss.Ftable
