import Msboss.Inodes.Names
import Msboss.Ftable.Counts

/-!
# Sequences of file-system calls

The inode cache together with the file table and the current directories of the processes, and the
system calls on them, each run to its end before the next one starts. A file of type `FD_INODE`
points at an entry of the inode cache.
-/

namespace Msboss.Inodes

open Ftable (Files Slot Fd)

/-- The inodes, the open files and the current directories. Pipes are in pages, by number. -/
structure State where
  vol : Volume
  files : Files InodeId Nat
  cwd : Slot → InodeId

/-- Code of a system call. -/
abbrev K := StateT State (Except Stop)

/-- Runs code on the volume. -/
def onVolume {α : Type} (m : M α) : K α := fun s =>
  match m s.vol with
  | .ok (a, v) => .ok (a, { s with vol := v })
  | .error e => .error e

/-- Runs code on the file table. -/
def onFiles {α : Type}
    (m : Files InodeId Nat → Except Ftable.Panic (α × Files InodeId Nat)) : K α :=
  fun s =>
    match m s.files with
    | .ok (a, F) => .ok (a, { s with files := F })
    | .error e => .error (.file e)

/-- Runs code on the volume with the current directory of `p`. -/
def onPath {α : Type} (p : Slot) (m : InodeId → M α) : K α := do
  let s ← get
  onVolume (m (s.cwd p))

/-- The transaction in which `fileclose` and `exit` put an inode. -/
def putInode (ip : InodeId) : K Unit := onVolume do
  begin_op
  iput ip
  end_op

/-- The end of `fileclose`. -/
def putFile : Option InodeId → K Unit
  | none => return
  | some ip => putInode ip

/-- The end of `sys_open` once the inode is found and locked. -/
def openFound (p : Slot) (omode : UInt32) (ip : InodeId) : K Int := do
  match ← onFiles (·.openFile p ip omode) with
  | none =>
    onVolume do
      iunlockput ip
      end_op
    return -1
  | some fd =>
    onVolume do
      iunlock ip
      end_op
    return fd.1

/-- `sys_open`. -/
def sys_open (p : Slot) (omode : UInt32) : Option (List UInt8) → K Int
  | none => return -1
  | some path => do
    onVolume begin_op
    match ← onPath p fun cwd => openInode cwd path omode with
    | none =>
      onVolume end_op
      return -1
    | some ip => openFound p omode ip

/-- `sys_close`. -/
def sys_close (p : Slot) (fd : Int) : K Int := do
  let (r, ip) ← onFiles fun F => do
    let (r, ip, F) ← F.sys_close p fd
    return ((r, ip), F)
  putFile ip
  return r

/-- `sys_chdir`. -/
def chdir (p : Slot) (path : Option (List UInt8)) : K Int := do
  match ← onPath p fun cwd => sys_chdir cwd path with
  | none => return -1
  | some ip =>
    modify fun s => { s with cwd := Function.update s.cwd p ip }
    return 0

/-- What `fork` does with files and the current directory, for a child in slot `q`. -/
def fork (p q : Slot) : K Unit := do
  onFiles fun F => return ((), ← F.fork p q)
  let ip ← onPath p idup
  modify fun s => { s with cwd := Function.update s.cwd q ip }

/-- The loop of `exit` over the descriptors `l`. -/
def exitFds (p : Slot) : List Fd → K Unit
  | [] => return
  | fd :: l => do
    let s ← get
    match s.files.ofile p fd with
    | none => exitFds p l
    | some f =>
      let ip ← onFiles fun F => F.fileclose f
      putFile ip
      modify fun s => { s with files := s.files.setFd p fd none }
      exitFds p l

/-- What `exit` does with files and the current directory. -/
def exit (p : Slot) : K Unit := do
  exitFds p (List.finRange NOFILE)
  let s ← get
  putInode (s.cwd p)
  modify fun s => { s with files := { s.files with live := Function.update s.files.live p false } }

/-- The calls. A path is `none` if it could not be fetched. -/
inductive Act
  | open (p : Slot) (path : Option (List UInt8)) (omode : UInt32)
  | close (p : Slot) (fd : Int)
  | dup (p : Slot) (fd : Int)
  | link (p : Slot) (old new : Option (List UInt8))
  | unlink (p : Slot) (path : Option (List UInt8))
  | mkdir (p : Slot) (path : Option (List UInt8))
  | mknod (p : Slot) (path : Option (List UInt8))
  | chdir (p : Slot) (path : Option (List UInt8))
  | exec (p : Slot) (path : Option (List UInt8))
  /-- `fork`; there are a slot and the memory for the child or not. -/
  | fork (p : Slot) (q : Option Slot)
  | exit (p : Slot)
  deriving DecidableEq, Repr

/-- The process that makes a call. -/
def Act.proc : Act → Slot
  | .open p _ _ | .close p _ | .dup p _ | .link p _ _ | .unlink p _ | .mkdir p _ | .mknod p _
  | .chdir p _ | .exec p _ | .fork p _ | .exit p => p

/-- The call is possible: a process makes it, and the slot of a child is not in use. That `init`
exits is a panic. -/
def State.Enabled (s : State) (a : Act) : Prop :=
  s.files.live a.proc = true ∧
    match a with
    | .fork _ (some q) => s.files.live q = false
    | .exit p => p ≠ 0
    | _ => True

instance (s : State) (a : Act) : Decidable (s.Enabled a) := by
  unfold State.Enabled
  cases a <;> first | infer_instance | skip
  next p q => cases q <;> exact inferInstanceAs (Decidable (_ ∧ _))

/-- The code of a call. -/
def code : Act → K Unit
  | .open p path omode => discard (sys_open p omode path)
  | .close p fd => discard (sys_close p fd)
  | .dup p fd => discard (onFiles fun F => F.sys_dup p fd)
  | .link p old new => discard (onPath p fun cwd => sys_link cwd old new)
  | .unlink p path => discard (onPath p fun cwd => sys_unlink cwd path)
  | .mkdir p path => discard (onPath p fun cwd => sys_mkdir cwd path)
  | .mknod p path => discard (onPath p fun cwd => sys_mknod cwd path)
  | .chdir p path => discard (chdir p path)
  | .exec p path => onPath p fun cwd => sys_exec cwd path
  | .fork _ none => return
  | .fork p (some q) => fork p q
  | .exit p => exit p

/-- A call that is possible and returns. -/
def next (s : State) (a : Act) : Option State :=
  if s.Enabled a then (code a s).toOption.map Prod.snd else none

/-- After boot with a disk of `N` inodes: one process, whose current directory is the root. -/
def boot (N : Nat) (D : Disk) : State where
  vol :=
    { disk := D
      ninodes := N
      entry := fun i =>
        if i = 0 then
          { dev := ROOTDEV, inum := ROOTINO, ref := 1, busy := false, valid := false,
            type := .free, nlink := 0 }
        else
          { dev := 0, inum := 0, ref := 0, busy := false, valid := false, type := .free,
            nlink := 0 }
      outstanding := 0 }
  files := Ftable.initial
  cwd _ := 0

/-- All sequences of calls, on the disks that `W` admits. -/
def system (W : Nat → Disk → Prop) : System State Act :=
  .ofNext (fun s => ∃ N D, W N D ∧ s = boot N D) next

end Msboss.Inodes
