import Msboss.Param
import Msboss.Lib.Bytes

/-!
# Blocks and inodes

The lower layers of `fs.c`, from `balloc` up to `readi` and `writei`, on a disk of blocks seen
through the buffer cache. The free map, the inode blocks and the indirect blocks are blocks like all
others.

A call runs in one piece, with the locks it takes left out. Two records are kept on the side: the
block numbers passed to `log_write`, one list for each `begin_op`, and the addresses of the bytes
that `readi` and `writei` copy to and from their caller. A panic ends a call in the state it has
reached. -/

namespace Msboss.Fs

open Function

/-- The bytes of a disk block. -/
abbrev Block := Nat → UInt8

/-- `((uint *) bp->data)[i]`. -/
def word (bp : Block) (i : Nat) : Nat := Bytes.leNat (Bytes.read bp (4 * i) 4)

/-- `((uint *) bp->data)[i] = w`. -/
def setWord (bp : Block) (i w : Nat) : Block := Bytes.write bp (4 * i) (Bytes.leBytes 4 w)

/-- `struct superblock`, as far as it is read here. -/
structure Superblock where
  size : Nat
  nblocks : Nat
  ninodes : Nat
  inodestart : Nat
  bmapstart : Nat
  deriving DecidableEq, Repr

/-- The super block in a block. -/
def Superblock.ofBlock (bp : Block) : Superblock where
  size := word bp 0
  nblocks := word bp 1
  ninodes := word bp 2
  inodestart := word bp 5
  bmapstart := word bp 6

/-- The block of the free map with the bit of `b`. -/
def Superblock.BBLOCK (sb : Superblock) (b : Nat) : Nat := b / BPB + sb.bmapstart

/-- The block with the inode `i`. -/
def Superblock.IBLOCK (sb : Superblock) (i : Nat) : Nat := i / IPB + sb.inodestart

/-- The types of `stat.h`, and 0. -/
inductive FileType
  | free
  | dir
  | file
  | dev
  deriving DecidableEq, Repr

/-- The value of `type`. -/
def FileType.code : FileType → Nat
  | .free => 0
  | .dir => 1
  | .file => 2
  | .dev => 3

/-- The type with a value. All others are taken for files, as the code does, which tests for 0 and
`T_DEV` here. -/
def FileType.ofCode : Nat → FileType
  | 0 => .free
  | 1 => .dir
  | 3 => .dev
  | _ => .file

/-- The fields that `struct inode` copies from the disk. -/
structure Inode where
  type : FileType
  major : Int
  minor : Int
  nlink : Int
  size : Nat
  addrs : Nat → Nat

/-- `struct dinode`. -/
def Inode.bytes (ip : Inode) : List UInt8 :=
  Bytes.leBytes 2 ip.type.code ++ Bytes.leBytes 2 (ip.major % 2 ^ 16).toNat ++
    Bytes.leBytes 2 (ip.minor % 2 ^ 16).toNat ++ Bytes.leBytes 2 (ip.nlink % 2 ^ 16).toNat ++
    Bytes.leBytes 4 ip.size ++
    (List.range (NDIRECT + 1)).flatMap fun i => Bytes.leBytes 4 (ip.addrs i)

/-- A `short`. -/
def short (w : Nat) : Int := if w < 2 ^ 15 then w else w - 2 ^ 16

/-- An `int`. -/
def int (w : Nat) : Int := if w < 2 ^ 31 then w else w - 2 ^ 32

/-- The `struct dinode` at offset `o` of a block. -/
def Inode.ofBlock (bp : Block) (o : Nat) : Inode where
  type := .ofCode (Bytes.leNat (Bytes.read bp o 2))
  major := short (Bytes.leNat (Bytes.read bp (o + 2) 2))
  minor := short (Bytes.leNat (Bytes.read bp (o + 4) 2))
  nlink := short (Bytes.leNat (Bytes.read bp (o + 6) 2))
  size := Bytes.leNat (Bytes.read bp (o + 8) 4)
  addrs i := if i ≤ NDIRECT then Bytes.leNat (Bytes.read bp (o + 12 + 4 * i) 4) else 0

/-- A `struct dinode` after `memset`, with a type. -/
def Inode.blank (type : FileType) : Inode where
  type := type
  major := 0
  minor := 0
  nlink := 0
  size := 0
  addrs _ := 0

/-- The panics of the modelled code. -/
inductive Panic
  /-- `balloc: out of blocks` -/
  | balloc
  /-- `freeing free block` -/
  | bfree
  /-- `ialloc: no inodes` -/
  | ialloc
  /-- `ilock` -/
  | ilock
  /-- `ilock: no type` -/
  | noType
  /-- `bmap: out of range` -/
  | bmap
  /-- `fileread` -/
  | fileread
  /-- `short filewrite` -/
  | shortFilewrite
  /-- `filewrite` -/
  | filewrite
  deriving DecidableEq, Repr

/-- The state. -/
structure State where
  /-- The super block in memory. -/
  sb : Superblock
  block : Nat → Block
  /-- The cache of inodes, by number, with their references and whether `I_VALID` is set. -/
  inode : Nat → Inode
  ref : Nat → Nat
  valid : Nat → Bool
  /-- For every `begin_op`, the last first, the block numbers passed to `log_write` since. -/
  ops : List (List Nat)
  /-- The memory that the running process sees, at 32-bit addresses. -/
  mem : Nat → UInt8
  /-- Where `readi` and `writei` have copied from and to. -/
  loads : List Nat
  stores : List Nat

/-- Code that may panic. -/
abbrev M := EStateM Panic State

/-! ## Memory -/

/-- `n` addresses from `a` on. -/
def addresses (a n : Nat) : List Nat := (List.range n).map fun i => (a + i) % 2 ^ 32

/-- The memory after bytes have been stored from `a` on. -/
def storeBytes (mem : Nat → UInt8) : Nat → List UInt8 → Nat → UInt8
  | _, [] => mem
  | a, b :: bs => storeBytes (update mem (a % 2 ^ 32) b) (a + 1) bs

/-- `memmove(_, src, n)`: the bytes. -/
def load (src n : Nat) : M (List UInt8) := do
  modify fun s => { s with loads := s.loads ++ addresses src n }
  return (addresses src n).map (← get).mem

/-- `memmove(dst, bytes, _)`. -/
def store (dst : Nat) (bytes : List UInt8) : M Unit :=
  modify fun s => { s with
    mem := storeBytes s.mem dst bytes
    stores := s.stores ++ addresses dst bytes.length }

/-! ## Blocks -/

/-- `begin_op`. What `end_op` does is the matter of the log. -/
def begin_op : M Unit := modify fun s => { s with ops := [] :: s.ops }

/-- `log_write` of the buffer of block `b`, which now holds `data`. -/
def log_write (b : Nat) (data : Block) : M Unit :=
  modify fun s => { s with
    block := update s.block b data
    ops := s.ops.modifyHead (b :: ·) }

/-- `readsb`. -/
def readsb : M Unit := modify fun s => { s with sb := .ofBlock (s.block 1) }

/-- `bzero`. -/
def bzero (bno : Nat) : M Unit := log_write bno fun _ => 0

/-- The loops of `balloc`: the first block with a clear bit, over the blocks of the free map and
the bits of each. -/
def State.ballocScan (s : State) : Option Nat :=
  (List.range ((s.sb.size + (BPB - 1)) / BPB)).findSome? fun j =>
    ((List.range (min BPB (s.sb.size - j * BPB))).find? fun bi =>
      !Bytes.bit (s.block (s.sb.BBLOCK (j * BPB))) bi).map (j * BPB + ·)

/-- `balloc`. -/
def balloc : M Nat := do
  let s ← get
  match s.ballocScan with
  | none => throw .balloc
  | some b =>
    let bno := s.sb.BBLOCK b
    log_write bno (Bytes.setBit (s.block bno) (b % BPB))
    bzero b
    return b

/-- `bfree`. -/
def bfree (b : Nat) : M Unit := do
  readsb
  let s ← get
  let bno := s.sb.BBLOCK b
  if Bytes.bit (s.block bno) (b % BPB) then
    log_write bno (Bytes.clearBit (s.block bno) (b % BPB))
  else throw .bfree

/-! ## Inodes -/

/-- A store to the cached inode. -/
def setInode (ip : Nat) (f : Inode → Inode) : M Unit :=
  modify fun s => { s with inode := update s.inode ip (f (s.inode ip)) }

/-- `ip->addrs[i] = addr`. -/
def setAddr (ip i addr : Nat) : M Unit :=
  setInode ip fun x => { x with addrs := update x.addrs i addr }

/-- `I_VALID` of the cached inode. -/
def setValid (ip : Nat) (v : Bool) : M Unit :=
  modify fun s => { s with valid := update s.valid ip v }

/-- The references of the cached inode. -/
def setRef (ip n : Nat) : M Unit := modify fun s => { s with ref := update s.ref ip n }

/-- The inode on the disk. -/
def State.dinode (s : State) (inum : Nat) : Inode :=
  .ofBlock (s.block (s.sb.IBLOCK inum)) (inum % IPB * 64)

/-- `log_write` of the block of an inode, with the inode changed. -/
def writeDinode (inum : Nat) (ip : Inode) : M Unit := do
  let s ← get
  let bno := s.sb.IBLOCK inum
  log_write bno (Bytes.write (s.block bno) (inum % IPB * 64) ip.bytes)

/-- `iupdate`. -/
def iupdate (ip : Nat) : M Unit := do writeDinode ip ((← get).inode ip)

/-- `iget`, where there is a slot for the inode. -/
def iget (inum : Nat) : M Nat := do
  let s ← get
  if s.ref inum > 0 then setRef inum (s.ref inum + 1)
  else
    setRef inum 1
    setValid inum false
  return inum

/-- `ialloc`. -/
def ialloc (type : FileType) : M Nat := do
  let s ← get
  match (List.range' 1 (s.sb.ninodes - 1)).find? fun inum => (s.dinode inum).type = .free with
  | some inum =>
    writeDinode inum (.blank type)
    iget inum
  | none => throw .ialloc

/-- `ilock`. -/
def ilock (ip : Nat) : M Unit := do
  let s ← get
  if s.ref ip < 1 then throw .ilock
  else if s.valid ip then return
  else
    setInode ip fun _ => s.dinode ip
    setValid ip true
    if (s.dinode ip).type = .free then throw .noType

/-- The inode `ip` can be locked without a panic. -/
def State.CanLock (s : State) (ip : Nat) : Prop :=
  1 ≤ s.ref ip ∧ (s.valid ip = true ∨ (s.dinode ip).type ≠ .free)

/-- The state after `ilock`. -/
def State.lock (s : State) (ip : Nat) : State :=
  if s.valid ip then s
  else { s with
    inode := update s.inode ip (s.dinode ip)
    valid := update s.valid ip true }

/-- `bmap`: the indirect block, allocated if necessary. -/
def indirect (ip : Nat) : M Nat := do
  let addr := ((← get).inode ip).addrs NDIRECT
  if addr = 0 then
    let addr ← balloc
    setAddr ip NDIRECT addr
    return addr
  else return addr

/-- `bmap`. -/
def bmap (ip bn : Nat) : M Nat := do
  if bn < NDIRECT then
    let addr := ((← get).inode ip).addrs bn
    if addr = 0 then
      let addr ← balloc
      setAddr ip bn addr
      return addr
    else return addr
  else if bn - NDIRECT < NINDIRECT then
    let ind ← indirect ip
    let addr := word ((← get).block ind) (bn - NDIRECT)
    if addr = 0 then
      let addr ← balloc
      log_write ind (setWord ((← get).block ind) (bn - NDIRECT) addr)
      return addr
    else return addr
  else throw .bmap

/-- The first loop of `itrunc`. -/
def truncDirect (ip : Nat) : List Nat → M Unit
  | [] => return
  | i :: is => do
    let addr := ((← get).inode ip).addrs i
    if addr ≠ 0 then
      bfree addr
      setAddr ip i 0
    truncDirect ip is

/-- The second loop of `itrunc`, over the words of the indirect block. -/
def truncEntries (bp : Block) : List Nat → M Unit
  | [] => return
  | j :: js => do
    if word bp j ≠ 0 then bfree (word bp j)
    truncEntries bp js

/-- `itrunc`. -/
def itrunc (ip : Nat) : M Unit := do
  truncDirect ip (List.range NDIRECT)
  let s ← get
  let ind := (s.inode ip).addrs NDIRECT
  if ind ≠ 0 then
    truncEntries (s.block ind) (List.range NINDIRECT)
    bfree ind
    setAddr ip NDIRECT 0
  setInode ip fun x => { x with size := 0 }
  iupdate ip

/-- `iput`. -/
def iput (ip : Nat) : M Unit := do
  let s ← get
  if s.ref ip = 1 ∧ s.valid ip ∧ (s.inode ip).nlink = 0 then
    itrunc ip
    setInode ip fun x => { x with type := .free }
    iupdate ip
    setValid ip false
  setRef ip (s.ref ip - 1)

/-! ## The console -/

/-- The major number of the console, the only device. -/
def CONSOLE : Int := 1

/-- There is a function in `devsw[major]`. -/
def devsw (major : Int) : Prop := ¬ (major < 0 ∨ major ≥ NDEV) ∧ major = CONSOLE

instance (major : Int) : Decidable (devsw major) := inferInstanceAs (Decidable (_ ∧ _))

/-- The characters that a call gets from the console, one after the other; `none`, if the process is
killed while it waits. -/
abbrev Input := Nat → Option UInt8

/-- The loop of `consoleread`, with `n` bytes to go and `i` characters read: the bytes still to go,
and `none` for a process that is killed. -/
def consoleLoop (input : Input) : Nat → Nat → Nat → M (Option Nat)
  | 0, _, _ => return some 0
  | n + 1, i, dst => do
    match input i with
    | none => return none
    | some c =>
      -- the end of the input is `C('D')`
      if c = 4 then return some (n + 1)
      else
        store dst [c]
        if c = 10 then return some n else consoleLoop input n (i + 1) (dst + 1)

/-- `consoleread(ip, dst, n)`. -/
def consoleread (input : Input) (dst : Nat) (n : Int) : M Int := do
  match ← consoleLoop input n.toNat 0 dst with
  | none => return -1
  | some rest => return n.toNat - rest

/-- `consolewrite(ip, buf, n)`. -/
def consolewrite (buf : Nat) (n : Int) : M Int := do
  let _ ← load buf n.toNat
  return n

/-! ## Contents -/

/-- The loop of `readi`, with `tot` bytes read. -/
def readLoop (ip dst off n : Nat) : Nat → Nat → M Unit
  | 0, _ => return
  | fuel + 1, tot => do
    if tot < n then
      let b ← bmap ip ((off + tot) / BSIZE)
      let m := min (n - tot) (BSIZE - (off + tot) % BSIZE)
      let bp := (← get).block b
      store (dst + tot) (Bytes.read bp ((off + tot) % BSIZE) m)
      readLoop ip dst off n fuel (tot + m)

/-- `readi(ip, dst, off, n)`. -/
def readi (input : Input) (ip dst off n : Nat) : M Int := do
  let i := (← get).inode ip
  if i.type = .dev then
    if devsw i.major then consoleread input dst (int n) else return -1
  else if off > i.size ∨ (off + n) % 2 ^ 32 < off then return -1
  else
    let n := if (off + n) % 2 ^ 32 > i.size then i.size - off else n
    readLoop ip dst off n n 0
    return int n

/-- The loop of `writei`, with `tot` bytes written. -/
def writeLoop (ip src off n : Nat) : Nat → Nat → M Unit
  | 0, _ => return
  | fuel + 1, tot => do
    if tot < n then
      let b ← bmap ip ((off + tot) / BSIZE)
      let m := min (n - tot) (BSIZE - (off + tot) % BSIZE)
      let data ← load (src + tot) m
      log_write b (Bytes.write ((← get).block b) ((off + tot) % BSIZE) data)
      writeLoop ip src off n fuel (tot + m)

/-- `writei(ip, src, off, n)`. -/
def writei (ip src off n : Nat) : M Int := do
  let i := (← get).inode ip
  if i.type = .dev then
    if devsw i.major then consolewrite src (int n) else return -1
  else if off > i.size ∨ (off + n) % 2 ^ 32 < off then return -1
  else if (off + n) % 2 ^ 32 > MAXFILE * BSIZE then return -1
  else
    writeLoop ip src off n n 0
    if n > 0 ∧ off + n > i.size then
      setInode ip fun x => { x with size := off + n }
      iupdate ip
    return int n

end Msboss.Fs
