import Msboss.Fs.Blocks
import Msboss.Ftable.Calls
import Msboss.Inodes.Names

/-!
# Directories and paths, over blocks

`dirlookup`, `dirlink` and `namex` of `fs.c` and the calls of `sysfile.c` that take a path, on the
disk of blocks: a directory is a file that `readi` and `writei` read and write a record at a time.
The calls have the file table and the current directories too. Inodes are locked by one call only,
so locks are left out here as they are in `readi` and `writei`; there is one device.

A path is its bytes before the terminating zero, and `none` if an argument could not be fetched.
-/

/-! ## Records -/

namespace Msboss.Inodes

/-- The record in 16 bytes; the name ends at a zero. -/
def Dirent.ofBytes (bytes : List UInt8) : Dirent :=
  ⟨Bytes.leNat (bytes.take 2), (bytes.drop 2).takeWhile (· ≠ 0)⟩

/-- The bytes of a record, with the name as `strncpy` copies it. -/
def Dirent.bytes (de : Dirent) : List UInt8 :=
  Bytes.leBytes 2 de.inum ++ (de.name ++ List.replicate DIRSIZ 0).take DIRSIZ

end Msboss.Inodes

namespace Msboss.Fs

open Inodes (Name Dirent skipelem slash dot dotdot)
open Ftable (Files Slot)

/-- `strncmp`, of the bytes of two strings before the zero. -/
def strncmp : List UInt8 → List UInt8 → Nat → Int
  | _, _, 0 => 0
  | [], q, _ + 1 => -(q.headD 0).toNat
  | c :: p, q, n + 1 =>
    if q.head? = some c then strncmp p q.tail n else c.toNat - (q.headD 0).toNat

/-- `namecmp`. -/
def namecmp (s t : Name) : Int := strncmp s t DIRSIZ

/-- Why a call does not return. -/
inductive Stop
  | fs (e : Panic)
  | file (e : Ftable.Panic)
  /-- `dirlookup not DIR` -/
  | notDir
  /-- `dirlink read` -/
  | dirlinkRead
  | dirlink
  | isdirempty
  /-- `unlink: nlink < 1` -/
  | unlinkLinks
  /-- `unlink: writei` -/
  | unlinkWrite
  /-- `create dots` -/
  | createDots
  /-- `create: dirlink` -/
  | createDirlink
  deriving DecidableEq, Repr

/-- Code of the upper layers. -/
abbrev D := StateT State (Except Stop)

/-- Code of the lower layers. -/
def lower {α : Type} (m : M α) : D α := fun s =>
  match m s with
  | .ok a s' => .ok (a, s')
  | .error e _ => .error (.fs e)

/-- Where `struct dirent de` stands on the kernel stack. -/
def DE : Nat := 0x8dfffe00

/-- `readi(dp, (char*)&de, off, sizeof(de)) != sizeof(de)` ends in a panic. -/
def readDirent (dp off : Nat) (panic : Stop) : D Dirent := do
  let r ← lower (readi (fun _ => none) dp DE off 16)
  if r ≠ 16 then throw panic
  else return .ofBytes ((addresses DE 16).map (← get).mem)

/-- `writei(dp, (char*)&de, off, sizeof(de)) != sizeof(de)` ends in a panic. -/
def writeDirent (dp off : Nat) (de : Dirent) (panic : Stop) : D Unit := do
  lower (store DE de.bytes)
  let r ← lower (writei dp DE off 16)
  if r ≠ 16 then throw panic

/-! ## Directories -/

/-- The loops over the records of a directory, from the one at `off`: the first that meets `p`, with
its offset. -/
def scan (dp : Nat) (p : Dirent → Bool) (panic : Stop) : Nat → Nat → D (Option (Nat × Dirent))
  | 0, _ => return none
  | fuel + 1, off => do
    if off < ((← get).inode dp).size then
      let de ← readDirent dp off panic
      if p de then return some (off, de) else scan dp p panic fuel (off + 16)
    else return none

/-- The records of a directory, one after the other. -/
def scanAll (dp : Nat) (p : Dirent → Bool) (panic : Stop) (off : Nat) :
    D (Option (Nat × Dirent)) := do
  scan dp p panic (((← get).inode dp).size / 16 + 1) off

/-- `dirlookup`, with the offset of the record. -/
def dirlookup (dp : Nat) (name : Name) : D (Option (Nat × Nat)) := do
  if ((← get).inode dp).type ≠ .dir then throw .notDir
  else
    match ← scanAll dp (fun de => de.inum ≠ 0 ∧ namecmp name de.name = 0) .dirlinkRead 0 with
    | none => return none
    | some (off, de) =>
      let ip ← lower (iget de.inum)
      return some (off, ip)

/-- The part of `dirlink` that writes the record: into an empty one or after the last. -/
def addDirent (dp : Nat) (name : Name) (inum : Nat) : D Unit := do
  let empty ← scanAll dp (fun de => de.inum = 0) .dirlinkRead 0
  let size := ((← get).inode dp).size
  writeDirent dp ((empty.map Prod.fst).getD ((size + 15) / 16 * 16)) ⟨inum, name⟩ .dirlink

/-- `dirlink`; whether the entry was added. -/
def dirlink (dp : Nat) (name : Name) (inum : Nat) : D Bool := do
  match ← dirlookup dp name with
  | some (_, ip) =>
    lower (iput ip)
    return false
  | none =>
    addDirent dp name inum
    return true

/-! ## Paths -/

/-- What `namex` does when the path is used up. -/
def namexEnd (parent : Bool) (ip : Nat) : D (Option (Nat × Name)) := do
  if parent then
    lower (iput ip)
    return none
  else return some (ip, [])

/-- The loop of `namex`, of at most `fuel` rounds. A round takes a byte of the path at least, so
its length is enough. -/
def namexLoop (parent : Bool) : Nat → Nat → List UInt8 → D (Option (Nat × Name))
  | 0, ip, _ => namexEnd parent ip
  | fuel + 1, ip, path =>
    match skipelem path with
    | none => namexEnd parent ip
    | some (name, rest) => do
      lower (ilock ip)
      if ((← get).inode ip).type ≠ .dir then
        lower (iput ip)
        return none
      else if parent ∧ rest = [] then return some (ip, name)
      else
        match ← dirlookup ip name with
        | none =>
          lower (iput ip)
          return none
        | some (_, next) =>
          lower (iput ip)
          namexLoop parent fuel next rest

/-- `idup`. -/
def idup (ip : Nat) : M Nat := do
  setRef ip ((← get).ref ip + 1)
  return ip

/-- `namex`, for a process with current directory `cwd`. -/
def namex (cwd : Nat) (path : List UInt8) (parent : Bool) : D (Option (Nat × Name)) := do
  let ip ← lower (if path.head? = some slash then iget ROOTINO else idup cwd)
  namexLoop parent path.length ip path

/-- `namei`. -/
def namei (cwd : Nat) (path : List UInt8) : D (Option Nat) := do
  return (← namex cwd path false).map Prod.fst

/-- `nameiparent`. -/
def nameiparent (cwd : Nat) (path : List UInt8) : D (Option (Nat × Name)) := namex cwd path true

/-! ## Calls -/

/-- `ip->nlink += k; iupdate(ip)`. -/
def addLinks (ip : Nat) (k : Int) : M Unit := do
  setInode ip fun x => { x with nlink := Inodes.short (x.nlink + k) }
  iupdate ip

/-- The end of `sys_link` at `bad`. -/
def linkBad (ip : Nat) : D Int := do
  lower (ilock ip)
  lower (addLinks ip (-1))
  lower (iput ip)
  return -1

/-- `sys_link`. -/
def sys_link (cwd : Nat) : Option (List UInt8 × List UInt8) → D Int
  | none => return -1
  | some (old, new) => do
    lower begin_op
    match ← namei cwd old with
    | none => return -1
    | some ip =>
      lower (ilock ip)
      if ((← get).inode ip).type = .dir then
        lower (iput ip)
        return -1
      else
        lower (addLinks ip 1)
        match ← nameiparent cwd new with
        | none => linkBad ip
        | some (dp, name) =>
          lower (ilock dp)
          if ← dirlink dp name ip then
            lower (iput dp)
            lower (iput ip)
            return 0
          else
            lower (iput dp)
            linkBad ip

/-- `isdirempty`. -/
def isdirempty (dp : Nat) : D Bool := do
  return (← scanAll dp (fun de => de.inum ≠ 0) .isdirempty 32).isNone

/-- The end of `sys_unlink` that removes the record of `ip` at `off` of `dp`. -/
def removeDirent (dp ip off : Nat) : D Int := do
  writeDirent dp off ⟨0, []⟩ .unlinkWrite
  if ((← get).inode ip).type = .dir then lower (addLinks dp (-1))
  lower (iput dp)
  lower (addLinks ip (-1))
  lower (iput ip)
  return 0

/-- The test of `sys_unlink` for a directory that is not empty. -/
def occupied (ip : Nat) : D Bool := do
  if ((← get).inode ip).type = .dir then return !(← isdirempty ip) else return false

/-- `sys_unlink`. -/
def sys_unlink (cwd : Nat) : Option (List UInt8) → D Int
  | none => return -1
  | some path => do
    lower begin_op
    match ← nameiparent cwd path with
    | none => return -1
    | some (dp, name) =>
      lower (ilock dp)
      if name = dot ∨ name = dotdot then
        lower (iput dp)
        return -1
      else
        match ← dirlookup dp name with
        | none =>
          lower (iput dp)
          return -1
        | some (off, ip) =>
          lower (ilock ip)
          if ((← get).inode ip).nlink < 1 then throw .unlinkLinks
          else if ← occupied ip then
            lower (iput ip)
            lower (iput dp)
            return -1
          else removeDirent dp ip off

/-- The part of `create` that makes the dots of a directory. -/
def createDots (dp ip : Nat) : D Unit := do
  lower (addLinks dp 1)
  if ← dirlink ip dot ip then
    if ← dirlink ip dotdot dp then return else throw .createDots
  else throw .createDots

/-- The part of `create` that makes an inode and enters it in `dp`. -/
def createNew (dp : Nat) (name : Name) (type : FileType) (major minor : Int) : D Nat := do
  let ip ← lower (ialloc type)
  lower do
    ilock ip
    setInode ip fun x => { x with
      major := Inodes.short major, minor := Inodes.short minor, nlink := 1 }
    iupdate ip
  if type = .dir then createDots dp ip
  if ← dirlink dp name ip then
    lower (iput dp)
    return ip
  else throw .createDirlink

/-- `create`. -/
def create (cwd : Nat) (path : List UInt8) (type : FileType) (major minor : Int) :
    D (Option Nat) := do
  match ← nameiparent cwd path with
  | none => return none
  | some (dp, name) =>
    lower (ilock dp)
    match ← dirlookup dp name with
    | some (_, ip) =>
      lower (iput dp)
      lower (ilock ip)
      if type = .file ∧ ((← get).inode ip).type = .file then return some ip
      else
        lower (iput ip)
        return none
    | none => some <$> createNew dp name type major minor

/-- `sys_mkdir` and `sys_mknod`, which make an inode of type `type`. -/
def makeNode (cwd : Nat) (type : FileType) : Option (List UInt8 × Int × Int) → D Int
  | none => do
    lower begin_op
    return -1
  | some (path, major, minor) => do
    lower begin_op
    match ← create cwd path type major minor with
    | none => return -1
    | some ip =>
      lower (iput ip)
      return 0

/-- `sys_mkdir`. -/
def sys_mkdir (cwd : Nat) (path : Option (List UInt8)) : D Int :=
  makeNode cwd .dir (path.map fun path => (path, 0, 0))

/-- `sys_mknod`. -/
def sys_mknod (cwd : Nat) (args : Option (List UInt8 × Int × Int)) : D Int := makeNode cwd .dev args

/-- The lookup of `sys_open`. -/
def openInode (cwd : Nat) (path : List UInt8) (omode : UInt32) : D (Option Nat) := do
  if omode &&& Files.O_CREATE ≠ 0 then create cwd path .file 0 0
  else
    match ← namei cwd path with
    | none => return none
    | some ip =>
      lower (ilock ip)
      if ((← get).inode ip).type = .dir ∧ omode ≠ 0 then
        lower (iput ip)
        return none
      else return some ip

/-- `sys_chdir`, up to the assignment of the new directory. -/
def sys_chdir (cwd : Nat) : Option (List UInt8) → D (Option Nat)
  | none => do
    lower begin_op
    return none
  | some path => do
    lower begin_op
    match ← namei cwd path with
    | none => return none
    | some ip =>
      lower (ilock ip)
      if ((← get).inode ip).type ≠ .dir then
        lower (iput ip)
        return none
      else
        lower (iput cwd)
        return some ip

/-! ## The kernel -/

/-- The file system, the open files and the current directories. -/
structure Kernel where
  fs : State
  files : Files Nat Nat
  cwd : Slot → Nat

/-- The calls with a path. -/
inductive PathCall
  | open (args : Option (List UInt8 × UInt32))
  | mkdir (path : Option (List UInt8))
  | mknod (args : Option (List UInt8 × Int × Int))
  | link (args : Option (List UInt8 × List UInt8))
  | unlink (path : Option (List UInt8))
  | chdir (path : Option (List UInt8))

namespace Kernel

/-- Runs code of the file system. -/
def onFs {α : Type} (k : Kernel) (m : D α) : Except Stop (α × Kernel) := do
  let (a, s) ← m k.fs
  return (a, { k with fs := s })

/-- The end of `sys_open` once the inode is found. -/
def openFound (k : Kernel) (p : Slot) (omode : UInt32) (ip : Nat) : Except Stop (Int × Kernel) :=
  match k.files.openFile p ip omode with
  | .error e => .error (.file e)
  | .ok (none, files) => do
    let (_, k) ← { k with files }.onFs (lower (iput ip))
    return (-1, k)
  | .ok (some fd, files) => return (fd.1, { k with files })

/-- `sys_open`. -/
def sys_open (k : Kernel) (p : Slot) :
    Option (List UInt8 × UInt32) → Except Stop (Int × Kernel)
  | none => return (-1, k)
  | some (path, omode) => do
    let (ip, k) ← k.onFs do
      lower begin_op
      openInode (k.cwd p) path omode
    match ip with
    | none => return (-1, k)
    | some ip => k.openFound p omode ip

/-- `sys_chdir`. -/
def chdir (k : Kernel) (p : Slot) (path : Option (List UInt8)) : Except Stop (Int × Kernel) := do
  let (ip, k) ← k.onFs (sys_chdir (k.cwd p) path)
  match ip with
  | none => return (-1, k)
  | some ip => return (0, { k with cwd := Function.update k.cwd p ip })

/-- A call of process `p`, with what it returns. -/
def call (k : Kernel) (p : Slot) : PathCall → Except Stop (Int × Kernel)
  | .open args => k.sys_open p args
  | .mkdir path => k.onFs (sys_mkdir (k.cwd p) path)
  | .mknod args => k.onFs (sys_mknod (k.cwd p) args)
  | .link args => k.onFs (sys_link (k.cwd p) args)
  | .unlink path => k.onFs (sys_unlink (k.cwd p) path)
  | .chdir path => k.chdir p path

end Kernel

end Msboss.Fs
