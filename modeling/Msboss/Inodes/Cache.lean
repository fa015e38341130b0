import Msboss.Param
import Msboss.Fs.Blocks
import Msboss.Ftable.Calls
import Msboss.Lib.Hoare

/-!
# The inode cache

`iget`, `idup`, `ilock`, `iunlock`, `iput`, `iupdate` and `ialloc` of `fs.c` over the inodes of the
root device, the only one there is. Of an inode on disk the model keeps what names and link counts
depend on: its type, its link count and its content as directory records. Blocks are not counted
here, so a call that would run out of them goes on.

System calls are run one after the other, so an inode that is found locked was locked by the same
call, which then sleeps for ever.
-/

namespace Msboss.Inodes

open Fs (FileType)

/-- An entry of the inode cache, as its index in `icache.inode`. -/
abbrev InodeId := Fin NINODE

instance : NeZero NINODE := ⟨by decide⟩

/-- A path element, of at most `DIRSIZ` bytes. -/
abbrev Name := List UInt8

/-- `struct dirent`. -/
structure Dirent where
  inum : Nat
  name : Name
  deriving DecidableEq, Repr

/-- What is used of `struct dinode`, with the records of a directory. -/
structure Dinode where
  type : FileType
  nlink : Int
  dirents : List Dirent
  deriving DecidableEq, Repr

/-- The inodes on disk, by their number. -/
abbrev Disk := Nat → Dinode

/-- What is used of `struct inode`; `busy` and `valid` are its flags. -/
structure Entry where
  dev : Nat
  inum : Nat
  ref : Int
  busy : Bool
  valid : Bool
  type : FileType
  nlink : Int
  deriving DecidableEq, Repr

/-- The disk, `sb.ninodes`, the inode cache and `log.outstanding`. -/
structure Volume where
  disk : Disk
  ninodes : Nat
  entry : InodeId → Entry
  outstanding : Int

/-- Why a call does not return. -/
inductive Stop
  | ilock
  /-- `panic("ilock: no type")`. -/
  | noType
  | iunlock
  | iputBusy
  | iget
  | ialloc
  | dirlookup
  | dirlink
  | unlink
  | createDots
  | createDirlink
  | file (e : Ftable.Panic)
  /-- The call sleeps on an inode that it holds locked. -/
  | blocked
  deriving DecidableEq, Repr

/-- Code that uses the volume. -/
abbrev M := StateT Volume (Except Stop)

/-- Changes an entry of the cache. -/
def modifyEntry (i : InodeId) (f : Entry → Entry) : M Unit :=
  modify fun s => { s with entry := Function.update s.entry i (f (s.entry i)) }

/-- Changes an inode on disk. -/
def modifyInode (n : Nat) (f : Dinode → Dinode) : M Unit :=
  modify fun s => { s with disk := Function.update s.disk n (f (s.disk n)) }

/-- `iget`. -/
def iget (dev inum : Nat) : M InodeId := do
  let s ← get
  match (List.finRange NINODE).find? fun i =>
      0 < (s.entry i).ref ∧ (s.entry i).dev = dev ∧ (s.entry i).inum = inum with
  | some i =>
    modifyEntry i fun e => { e with ref := e.ref + 1 }
    return i
  | none =>
    match (List.finRange NINODE).find? fun i => (s.entry i).ref = 0 with
    | none => throw .iget
    | some i =>
      modifyEntry i fun e => { e with
        dev := dev, inum := inum, ref := 1, busy := false, valid := false }
      return i

/-- `idup`. -/
def idup (i : InodeId) : M InodeId := do
  modifyEntry i fun e => { e with ref := e.ref + 1 }
  return i

/-- `ilock`. -/
def ilock (i : InodeId) : M Unit := do
  let s ← get
  if (s.entry i).ref < 1 then throw .ilock
  else if (s.entry i).busy then throw .blocked
  else if (s.entry i).valid then modifyEntry i fun e => { e with busy := true }
  else
    let d := s.disk (s.entry i).inum
    modifyEntry i fun e => { e with busy := true, valid := true, type := d.type, nlink := d.nlink }
    if d.type = .free then throw .noType else return

/-- `iunlock`. -/
def iunlock (i : InodeId) : M Unit := do
  let s ← get
  if (s.entry i).busy = false ∨ (s.entry i).ref < 1 then throw .iunlock
  else modifyEntry i fun e => { e with busy := false }

/-- `iupdate`. -/
def iupdate (i : InodeId) : M Unit := do
  let s ← get
  modifyInode (s.entry i).inum fun d =>
    { d with type := (s.entry i).type, nlink := (s.entry i).nlink }

/-- `itrunc`. -/
def itrunc (i : InodeId) : M Unit := do
  let s ← get
  modifyInode (s.entry i).inum fun d => { d with dirents := [] }
  iupdate i

/-- `iput`. -/
def iput (i : InodeId) : M Unit := do
  let s ← get
  if (s.entry i).ref = 1 ∧ (s.entry i).valid = true ∧ (s.entry i).nlink = 0 then
    if (s.entry i).busy then throw .iputBusy
    else
      modifyEntry i fun e => { e with busy := true }
      itrunc i
      modifyEntry i fun e => { e with type := .free }
      iupdate i
      modifyEntry i fun e => { e with busy := false, valid := false, ref := e.ref - 1 }
  else modifyEntry i fun e => { e with ref := e.ref - 1 }

/-- `iunlockput`. -/
def iunlockput (i : InodeId) : M Unit := do
  iunlock i
  iput i

/-- `ialloc`. -/
def ialloc (dev : Nat) (type : FileType) : M InodeId := do
  let s ← get
  match (List.range s.ninodes).find? fun n => 1 ≤ n ∧ (s.disk n).type = .free with
  | none => throw .ialloc
  | some n =>
    modifyInode n fun _ => { type := type, nlink := 0, dirents := [] }
    iget dev n

/-- A value stored in a `short`. -/
def short (n : Int) : Int := n.bmod (2 ^ 16)

/-- `ip->nlink = f(ip->nlink); iupdate(ip)`. -/
def setLinks (i : InodeId) (f : Int → Int) : M Unit := do
  modifyEntry i fun e => { e with nlink := f e.nlink }
  iupdate i

/-- `ip->nlink += k; iupdate(ip)`. -/
def addLinks (i : InodeId) (k : Int) : M Unit := setLinks i fun l => short (l + k)

/-- `begin_op`, with no other call in progress. -/
def begin_op : M Unit := modify fun s => { s with outstanding := s.outstanding + 1 }

/-- `end_op`. -/
def end_op : M Unit := modify fun s => { s with outstanding := s.outstanding - 1 }

end Msboss.Inodes
