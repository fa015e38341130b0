import Msboss.Param
import Msboss.Lib.Bytes

/-!
# The user allocator

`free`, `morecore` and `malloc` of `umalloc.c`, over the bytes of the process. A `Header` has eight
bytes: the pointer to the next free block, then the number of headers the block has room for, itself
included. A pointer is an address below `2 ^ 32`, with 0 for the null pointer.

`sbrk` is the kernel's: it fails, or returns memory above all that the process has had before. What
it does is given with the process (`Process.gaps`): the n-th call fails, or leaves a gap of so many
bytes. -/

namespace Msboss.Malloc

open Bytes

/-! ## Headers -/

/-- `p->s.ptr` -/
def ptr (m : Nat → UInt8) (p : Nat) : Nat := leNat (read m p 4)

/-- `p->s.size` -/
def size (m : Nat → UInt8) (p : Nat) : Nat := leNat (read m (p + 4) 4)

/-- `p->s.ptr = v` -/
def setPtr (m : Nat → UInt8) (p v : Nat) : Nat → UInt8 := write m p (leBytes 4 v)

/-- `p->s.size = v` -/
def setSize (m : Nat → UInt8) (p v : Nat) : Nat → UInt8 := write m (p + 4) (leBytes 4 v)

/-- `p + n` for a `Header *p`. -/
def plus (p n : Nat) : Nat := (p + 8 * n) % 2 ^ 32

/-! ## The process -/

/-- Where the linker has put `base`, where the heap starts, and what the calls of `sbrk` do. -/
structure Process where
  base : Nat
  start : Nat
  base_pos : 0 < base
  base_le : base + 8 ≤ start
  start_le : start ≤ KERNBASE
  gaps : Nat → Option Nat

/-- The memory of the process, `freep`, and what it has from `sbrk`: address and number of bytes,
the latest first. -/
structure Heap where
  mem : Nat → UInt8
  freep : Nat
  areas : List (Nat × Nat)
  calls : Nat

/-- Why a call does not return: a loop takes too long, or `sbrk` is asked to shrink the heap. -/
inductive Stop
  | loops
  | shrinks
  deriving DecidableEq, Repr

/-- The end of the heap. -/
def top (P : Process) : List (Nat × Nat) → Nat
  | [] => P.start
  | (a, n) :: _ => a + n

/-- `sbrk(n)`; `none` is `(char*)-1`. -/
def sbrk (P : Process) (n : Nat) (h : Heap) : Option Nat × Heap :=
  let h' := { h with calls := h.calls + 1 }
  match P.gaps h.calls with
  | none => (none, h')
  | some gap =>
    let a := top P h.areas + gap
    if a + n ≤ KERNBASE then (some a, { h' with areas := (a, n) :: h.areas }) else (none, h')

/-! ## `free` -/

/-- How often a loop may go round. -/
def LOOPS : Nat := 2 ^ 31

/-- The loop of `free`: the block after which `bp` belongs. -/
def freeLoop (m : Nat → UInt8) (bp : Nat) : Nat → Nat → Except Stop Nat
  | 0, _ => .error .loops
  | n + 1, p =>
    if p < bp ∧ bp < ptr m p then .ok p
    else if ptr m p ≤ p ∧ (p < bp ∨ bp < ptr m p) then .ok p
    else freeLoop m bp n (ptr m p)

/-- The first `if` of `free`: `bp` and the block after it. -/
def joinNext (m : Nat → UInt8) (bp p : Nat) : Nat → UInt8 :=
  if plus bp (size m bp) = ptr m p then
    let m := setSize m bp (size m bp + size m (ptr m p))
    setPtr m bp (ptr m (ptr m p))
  else setPtr m bp (ptr m p)

/-- The second `if` of `free`: `bp` and the block before it. -/
def joinPrev (m : Nat → UInt8) (bp p : Nat) : Nat → UInt8 :=
  if plus p (size m p) = bp then
    let m := setSize m p (size m p + size m bp)
    setPtr m p (ptr m bp)
  else setPtr m p bp

/-- `free(ap)` -/
def free (ap : Nat) (h : Heap) : Except Stop Heap := do
  let bp := (ap + (2 ^ 32 - 8)) % 2 ^ 32
  let p ← freeLoop h.mem bp LOOPS h.freep
  .ok { h with mem := joinPrev (joinNext h.mem bp p) bp p, freep := p }

/-! ## `malloc` -/

/-- `morecore(nu)` -/
def morecore (P : Process) (nu : Nat) (h : Heap) : Except Stop (Nat × Heap) :=
  let nu := if nu < 4096 then 4096 else nu
  let n := nu * 8 % 2 ^ 32
  if 2 ^ 31 ≤ n then .error .shrinks
  else match sbrk P n h with
    | (none, h) => .ok (0, h)
    | (some hp, h) => do
      let h ← free ((hp + 8) % 2 ^ 32) { h with mem := setSize h.mem hp nu }
      .ok (h.freep, h)

/-- `malloc` takes `nunits` of the block at `p`, which comes after `prevp`. -/
def take (m : Nat → UInt8) (nunits prevp p : Nat) : Nat × (Nat → UInt8) :=
  if size m p = nunits then (p, setPtr m prevp (ptr m p))
  else
    let m := setSize m p (size m p - nunits)
    let p := plus p (size m p)
    (p, setSize m p nunits)

/-- What the loop of `malloc` does with the block that it has found. -/
def found (h : Heap) (nunits prevp p : Nat) : Nat × Heap :=
  let (p, m) := take h.mem nunits prevp p
  ((p + 8) % 2 ^ 32, { h with mem := m, freep := prevp })

/-- `nunits` in `malloc(nbytes)`. -/
def units (nbytes : Nat) : Nat := (nbytes + 7) % 2 ^ 32 / 8 + 1

section
variable {ε : Type} (stuck : ε)

/-- The loop of `malloc`, with any `morecore(nunits)`; `stuck` is the outcome of a loop that takes
too long. -/
def mallocLoop (more : Heap → Except ε (Nat × Heap)) (nunits : Nat) :
    Nat → Nat → Nat → Heap → Except ε (Nat × Heap)
  | 0, _, _, _ => .error stuck
  | n + 1, prevp, p, h =>
    if nunits ≤ size h.mem p then .ok (found h nunits prevp p)
    else if p = h.freep then do
      let (p, h) ← more h
      if p = 0 then .ok (0, h) else mallocLoop more nunits n p (ptr h.mem p) h
    else mallocLoop more nunits n p (ptr h.mem p) h

/-- `malloc(nbytes)`, with any `morecore`. -/
def mallocWith (morecore : Nat → Heap → Except ε (Nat × Heap)) (P : Process) (nbytes : Nat)
    (h : Heap) : Except ε (Nat × Heap) :=
  let h := if h.freep = 0 then
      { h with mem := setSize (setPtr h.mem P.base P.base) P.base 0, freep := P.base }
    else h
  mallocLoop stuck (morecore (units nbytes)) (units nbytes) LOOPS h.freep (ptr h.mem h.freep) h

end

/-- `malloc(nbytes)` -/
def malloc (P : Process) : Nat → Heap → Except Stop (Nat × Heap) := mallocWith .loops (morecore P) P

end Msboss.Malloc
