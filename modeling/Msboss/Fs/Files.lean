import Msboss.Fs.Blocks
import Msboss.Ftable.Calls
import Msboss.Pipes.Fifo

/-!
# Reads and writes of files

`fileread` and `filewrite` of `file.c`, with the ends of `piperead` and `pipewrite` that copy to and
from the caller. What the other processes do to a pipe while a call waits is an argument of it.
-/

namespace Msboss.Fs

open Ftable (FdType)

/-- What the calls use of `struct file`. -/
structure File where
  type : FdType
  readable : Bool
  writable : Bool
  ip : Nat
  off : Nat
  deriving DecidableEq, Repr

/-- What a call finds where it waits. -/
structure Waits where
  /-- The characters from the console. -/
  input : Input
  /-- The pipe when `piperead` goes on, or nothing, if the process is killed before. -/
  drained : Option Pipes.Pipe
  /-- `pipewrite` gives up before byte `i`: the pipe is full and there is no reader, or the process
  is killed. -/
  gives_up : Nat → Bool

/-! ## Pipes -/

/-- The loop of `piperead`, with `i` bytes copied: how many in the end. -/
def pipereadLoop (addr : Nat) (n : Int) : Nat → Nat → Ring UInt8 → M Nat
  | 0, i, _ => return i
  | fuel + 1, i, p => do
    if i < n ∧ p.nread ≠ p.nwrite then
      store (addr + i) [p.front Pipes.PIPESIZE]
      pipereadLoop addr n fuel (i + 1) p.pop
    else return i

/-- `piperead(p, addr, n)`. -/
def piperead (w : Waits) (addr : Nat) (n : Int) : M Int := do
  match w.drained with
  | none => return -1
  | some p => return ← pipereadLoop addr n n.toNat 0 p.toRing

/-- The loop of `pipewrite`, with `i` bytes stored; `false` is the result `-1`. -/
def pipewriteLoop (w : Waits) (addr : Nat) : Nat → Nat → M Bool
  | 0, _ => return true
  | fuel + 1, i => do
    if w.gives_up i then return false
    else
      let _ ← load (addr + i) 1
      pipewriteLoop w addr fuel (i + 1)

/-- `pipewrite(p, addr, n)`. -/
def pipewrite (w : Waits) (addr : Nat) (n : Int) : M Int := do
  if ← pipewriteLoop w addr n.toNat 0 then return n else return -1

/-! ## Files -/

/-- `fileread(f, addr, n)`: the result and the file. -/
def fileread (w : Waits) (f : File) (addr : Nat) (n : Int) : M (Int × File) := do
  if f.readable then
    match f.type with
    | .pipe => return (← piperead w addr n, f)
    | .inode =>
      ilock f.ip
      let r ← readi w.input f.ip addr f.off (n % 2 ^ 32).toNat
      return (r, { f with off := if r > 0 then (f.off + r.toNat) % 2 ^ 32 else f.off })
    | .none => throw .fileread
  else return (-1, f)

/-- The most bytes that `filewrite` writes in one operation. -/
def filewriteMax : Nat := (LOGSIZE - 1 - 1 - 2) / 2 * 512

/-- The loop of `filewrite`, with `i` bytes written: how many it has written in the end, and
`f->off`. -/
def filewriteLoop (ip addr : Nat) (n : Int) : Nat → Nat → Nat → M (Nat × Nat)
  | 0, i, off => return (i, off)
  | fuel + 1, i, off => do
    if i < n then
      let n1 := min (n - i).toNat filewriteMax
      begin_op
      ilock ip
      let r ← writei ip (addr + i) off n1
      let off := if r > 0 then (off + r.toNat) % 2 ^ 32 else off
      if r < 0 then return (i, off)
      else if r ≠ n1 then throw .shortFilewrite
      else filewriteLoop ip addr n fuel (i + r.toNat) off
    else return (i, off)

/-- `filewrite(f, addr, n)`: the result and the file. -/
def filewrite (w : Waits) (f : File) (addr : Nat) (n : Int) : M (Int × File) := do
  if f.writable then
    match f.type with
    | .pipe => return (← pipewrite w addr n, f)
    | .inode =>
      let (i, off) ← filewriteLoop f.ip addr n n.toNat 0 f.off
      return (if i = n then n else -1, { f with off })
    | .none => throw .filewrite
  else return (-1, f)

end Msboss.Fs
