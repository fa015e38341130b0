import Msboss.Inodes.Cache

/-!
# Directories, paths and the calls that change names

`dirlookup`, `dirlink`, `skipelem` and `namex` of `fs.c`, and `sys_link`, `sys_unlink`, `create` and
the lookups of `sys_open`, `sys_mkdir`, `sys_mknod`, `sys_chdir` and `exec`. The current directory
is an argument, and so is a path, which is `none` if it could not be fetched. A path is its bytes
before the terminating zero.
-/

namespace Msboss.Inodes

open Fs (FileType)

/-! ## Directories -/

/-- The names `"."` and `".."`. -/
def dot : Name := [46]
def dotdot : Name := [46, 46]

/-- The slot in which a name is found. -/
def slot (l : List Dirent) (name : Name) : Option Nat :=
  l.findIdx? fun e => e.inum ≠ 0 ∧ e.name = name

/-- The inode number in a slot. -/
def inumAt (l : List Dirent) (k : Nat) : Nat := (l[k]?.map Dirent.inum).getD 0

/-- `dirlookup`, with the slot of the entry. -/
def dirlookup (dp : InodeId) (name : Name) : M (Option (Nat × InodeId)) := do
  let s ← get
  if (s.entry dp).type ≠ .dir then throw .dirlookup
  else
    let l := (s.disk (s.entry dp).inum).dirents
    match slot l name with
    | none => return none
    | some k =>
      let ip ← iget (s.entry dp).dev (inumAt l k)
      return some (k, ip)

/-- Writes a record into slot `k`, which may be the one after the last. -/
def put (l : List Dirent) (k : Nat) (e : Dirent) : List Dirent :=
  if k < l.length then l.set k e else l ++ [e]

/-- The first empty slot, or the one after the last. -/
def emptySlot (l : List Dirent) : Nat := l.findIdx fun e => e.inum = 0

/-- The part of `dirlink` that writes the entry; an inode number is stored in 16 bits. -/
def addEntry (dp : InodeId) (name : Name) (inum : Nat) : M Unit := do
  let s ← get
  let n := (s.entry dp).inum
  let l := (s.disk n).dirents
  if MAXFILE * BSIZE < 16 * (emptySlot l + 1) then throw .dirlink
  else
    modifyInode n fun d => { d with dirents := put l (emptySlot l) ⟨inum % 2 ^ 16, name⟩ }
    if emptySlot l < l.length then return else iupdate dp

/-- `dirlink`; whether the entry was added. -/
def dirlink (dp : InodeId) (name : Name) (inum : Nat) : M Bool := do
  match ← dirlookup dp name with
  | some (_, ip) =>
    iput ip
    return false
  | none =>
    addEntry dp name inum
    return true

/-! ## Paths -/

/-- The byte `'/'`. -/
def slash : UInt8 := 47

/-- `skipelem`: the first element of a path and what follows it. -/
def skipelem (path : List UInt8) : Option (Name × List UInt8) :=
  let path := path.dropWhile (· = slash)
  if path = [] then none
  else some ((path.takeWhile (· ≠ slash)).take DIRSIZ,
    (path.dropWhile (· ≠ slash)).dropWhile (· = slash))

/-- What `namex` does when the path is used up. -/
def namexEnd (parent : Bool) (ip : InodeId) : M (Option (InodeId × Name)) := do
  if parent then
    iput ip
    return none
  else return some (ip, [])

/-- The loop of `namex`, of at most `fuel` rounds. A round takes a byte of the path at least, so
its length is enough. -/
def namexLoop (parent : Bool) : Nat → InodeId → List UInt8 → M (Option (InodeId × Name))
  | 0, ip, _ => namexEnd parent ip
  | fuel + 1, ip, path =>
    match skipelem path with
    | none => namexEnd parent ip
    | some (name, rest) => do
      ilock ip
      let s ← get
      if (s.entry ip).type ≠ .dir then
        iunlockput ip
        return none
      else if parent ∧ rest = [] then
        iunlock ip
        return some (ip, name)
      else
        match ← dirlookup ip name with
        | none =>
          iunlockput ip
          return none
        | some (_, next) =>
          iunlockput ip
          namexLoop parent fuel next rest

/-- `namex`, for a process with current directory `cwd`. -/
def namex (cwd : InodeId) (path : List UInt8) (parent : Bool) : M (Option (InodeId × Name)) := do
  let ip ← if path.head? = some slash then iget ROOTDEV ROOTINO else idup cwd
  namexLoop parent path.length ip path

/-- `namei`. -/
def namei (cwd : InodeId) (path : List UInt8) : M (Option InodeId) := do
  return (← namex cwd path false).map Prod.fst

/-- `nameiparent`. -/
def nameiparent (cwd : InodeId) (path : List UInt8) : M (Option (InodeId × Name)) :=
  namex cwd path true

/-! ## System calls -/

/-- The end of `sys_link` at `bad`. -/
def linkBad (ip : InodeId) : M Int := do
  ilock ip
  addLinks ip (-1)
  iunlockput ip
  end_op
  return -1

/-- `sys_link`. -/
def sys_link (cwd : InodeId) : Option (List UInt8) → Option (List UInt8) → M Int
  | some old, some new => do
    begin_op
    match ← namei cwd old with
    | none =>
      end_op
      return -1
    | some ip =>
      ilock ip
      let s ← get
      if (s.entry ip).type = .dir then
        iunlockput ip
        end_op
        return -1
      else
        addLinks ip 1
        iunlock ip
        match ← nameiparent cwd new with
        | none => linkBad ip
        | some (dp, name) =>
          ilock dp
          let s ← get
          if (s.entry dp).dev ≠ (s.entry ip).dev then
            iunlockput dp
            linkBad ip
          else
            if ← dirlink dp name (s.entry ip).inum then
              iunlockput dp
              iput ip
              end_op
              return 0
            else
              iunlockput dp
              linkBad ip
  | _, _ => return -1

/-- `isdirempty`. -/
def isdirempty (l : List Dirent) : Bool := (l.drop 2).all fun e => e.inum = 0

/-- The end of `sys_unlink` at `bad`. -/
def unlinkBad (dp : InodeId) : M Int := do
  iunlockput dp
  end_op
  return -1

/-- The part of `sys_unlink` that removes the entry for `ip` in slot `k` of `dp` and puts `dp`. -/
def eraseEntry (dp ip : InodeId) (k : Nat) : M Unit := do
  let s ← get
  modifyInode (s.entry dp).inum fun d => { d with dirents := d.dirents.set k ⟨0, []⟩ }
  if (s.entry ip).type = .dir then
    addLinks dp (-1)
    iunlockput dp
  else iunlockput dp

/-- The end of `sys_unlink` that removes the entry for `ip`. -/
def removeEntry (dp ip : InodeId) (k : Nat) : M Int := do
  eraseEntry dp ip k
  addLinks ip (-1)
  iunlockput ip
  end_op
  return 0

/-- `sys_unlink`. -/
def sys_unlink (cwd : InodeId) : Option (List UInt8) → M Int
  | none => return -1
  | some path => do
    begin_op
    match ← nameiparent cwd path with
    | none =>
      end_op
      return -1
    | some (dp, name) =>
      ilock dp
      if name = dot ∨ name = dotdot then unlinkBad dp
      else
        match ← dirlookup dp name with
        | none => unlinkBad dp
        | some (k, ip) =>
          ilock ip
          let s ← get
          if (s.entry ip).nlink < 1 then throw .unlink
          else if (s.entry ip).type = .dir ∧
            isdirempty (s.disk (s.entry ip).inum).dirents = false then
            iunlockput ip
            unlinkBad dp
          else removeEntry dp ip k

/-- The dots of a new directory `ip` in `dp`, with the link that its `".."` is. -/
def createDots (dp ip : InodeId) : M Unit := do
  addLinks dp 1
  let s ← get
  if ← dirlink ip dot (s.entry ip).inum then
    if ← dirlink ip dotdot (s.entry dp).inum then return else throw .createDots
  else throw .createDots

/-- What `create` does for a directory only. -/
def initNode (dp ip : InodeId) (type : FileType) : M Unit :=
  if type = .dir then createDots dp ip else pure ()

/-- The part of `create` that makes an inode and enters it in `dp`. -/
def createNew (dp : InodeId) (name : Name) (type : FileType) : M (Option InodeId) := do
  let s ← get
  let ip ← ialloc (s.entry dp).dev type
  ilock ip
  setLinks ip fun _ => 1
  initNode dp ip type
  let s ← get
  if ← dirlink dp name (s.entry ip).inum then
    iunlockput dp
    return some ip
  else throw .createDirlink

/-- `create`; the inode is locked. -/
def create (cwd : InodeId) (path : List UInt8) (type : FileType) : M (Option InodeId) := do
  match ← nameiparent cwd path with
  | none => return none
  | some (dp, name) =>
    ilock dp
    match ← dirlookup dp name with
    | some (_, ip) =>
      iunlockput dp
      ilock ip
      let s ← get
      if type = .file ∧ (s.entry ip).type = .file then return some ip
      else
        iunlockput ip
        return none
    | none => createNew dp name type

/-- `sys_mkdir` and `sys_mknod`, which make an inode of type `type`. The device numbers are in none
of the fields kept here. -/
def makeNode (cwd : InodeId) (type : FileType) : Option (List UInt8) → M Int
  | none => do
    begin_op
    end_op
    return -1
  | some path => do
    begin_op
    match ← create cwd path type with
    | none =>
      end_op
      return -1
    | some ip =>
      iunlockput ip
      end_op
      return 0

/-- `sys_mkdir`. -/
def sys_mkdir (cwd : InodeId) (path : Option (List UInt8)) : M Int := makeNode cwd .dir path

/-- `sys_mknod`. -/
def sys_mknod (cwd : InodeId) (path : Option (List UInt8)) : M Int := makeNode cwd .dev path

/-- The lookup of `sys_open`; the inode is locked. -/
def openInode (cwd : InodeId) (path : List UInt8) (omode : UInt32) : M (Option InodeId) := do
  if omode &&& Ftable.Files.O_CREATE ≠ 0 then create cwd path .file
  else
    match ← namei cwd path with
    | none => return none
    | some ip =>
      ilock ip
      let s ← get
      if (s.entry ip).type = .dir ∧ omode ≠ 0 then
        iunlockput ip
        return none
      else return some ip

/-- `sys_chdir`, up to the assignment of the new directory. -/
def sys_chdir (cwd : InodeId) : Option (List UInt8) → M (Option InodeId)
  | none => do
    begin_op
    end_op
    return none
  | some path => do
    begin_op
    match ← namei cwd path with
    | none =>
      end_op
      return none
    | some ip =>
      ilock ip
      let s ← get
      if (s.entry ip).type ≠ .dir then
        iunlockput ip
        end_op
        return none
      else
        iunlock ip
        iput cwd
        end_op
        return some ip

/-- What `sys_exec` does with inodes. The segments of the file are read while its inode is locked;
whether that succeeds is no matter here, since both ways end in `iunlockput` and `end_op`. -/
def sys_exec (cwd : InodeId) : Option (List UInt8) → M Unit
  | none => return
  | some path => do
    begin_op
    match ← namei cwd path with
    | none => end_op
    | some ip =>
      ilock ip
      iunlockput ip
      end_op

end Msboss.Inodes
