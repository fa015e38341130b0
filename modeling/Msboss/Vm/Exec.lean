import Msboss.Vm.Shm
import Msboss.Lib.Bytes

/-!
# `exec`

`exec` of `exec.c` with `loaduvm`, `clearpteu`, `uva2ka` and `copyout` of `vm.c`, on a regular file
given by its bytes and an argument vector of strings. The arguments are pushed through the new page
directory while the kernel still runs in the old one (`cur`); where a page table is missing,
`uva2ka` reads the entry at the user address 0 of the old image.

A write is `wild` when it goes to kernel addresses, or to wherever such an entry points.
-/

namespace Msboss.Vm

/-- `readi(ip, _, off, n)` on a regular file: the bytes read, or `none` for `-1`. -/
def readi (file : List UInt8) (off n : Nat) : Option (List UInt8) :=
  if off > file.length ∨ (off + n) % 2 ^ 32 < off then none else some ((file.drop off).take n)

/-- The field of `n` bytes at `off` of a header. -/
def field (bytes : List UInt8) (off n : Nat) : Nat := Bytes.leNat ((bytes.drop off).take n)

/-- `struct proghdr`, as far as it is read. -/
structure ProgHdr where
  type : Nat
  off : Nat
  vaddr : Nat
  filesz : Nat
  memsz : Nat
  deriving DecidableEq, Repr

/-- The header in 32 bytes of the file. -/
def ProgHdr.read (b : List UInt8) : ProgHdr where
  type := field b 0 4
  off := field b 4 4
  vaddr := field b 8 4
  filesz := field b 16 4
  memsz := field b 20 4

namespace Memory

/-- Bytes are stored in the frame `f` from `off` on. -/
def write (m : Memory) (f : Frame) (off : Nat) (bytes : List UInt8) : Memory :=
  { m with page := Function.update m.page f (Bytes.write (m.page f) off bytes) }

/-- The loop of `loaduvm` over `n` pages, at the offset `i`; `false` is the result `-1`. -/
def loadLoop (d : PageDir) (addr : Nat) (file : List UInt8) (offset sz : Nat) :
    Nat → Memory → Nat → Except Stop (Bool × Memory)
  | 0, m, _ => .ok (true, m)
  | n + 1, m, i =>
    let va := (addr + i) % 2 ^ 32
    match d.pte va with
    | none => .error (.panic .loaduvmExist)
    | some e =>
      let count := min (sz - i) PGSIZE
      match readi file ((offset + i) % 2 ^ 32) count with
      | none => .ok (false, m)
      | some bytes =>
        if va ≥ KERNBASE ∧ bytes ≠ [] then .error .wild
        else
          let m := m.write e.frame 0 bytes
          if bytes.length = count then loadLoop d addr file offset sz n m (i + PGSIZE)
          else .ok (false, m)

/-- `loaduvm(d, addr, ip, offset, sz)`. -/
def loaduvm (m : Memory) (d : PageDir) (addr : Nat) (file : List UInt8) (offset sz : Nat) :
    Except Stop (Bool × Memory) :=
  if addr % PGSIZE ≠ 0 then .error (.panic .loaduvmAlign)
  else loadLoop d addr file offset sz ((sz + (PGSIZE - 1)) / PGSIZE) m 0

/-- `clearpteu(d, uva)`. -/
def clearpteu (d : PageDir) (uva : Nat) : Except Stop PageDir :=
  match d.pte uva with
  | none => .error (.panic .clearpteu)
  | some e => .ok (d.setPte uva { e with u := false })

/-- `uva2ka(d, uva)`: the frame, or `none` for a null pointer. -/
def uva2ka (m : Memory) (cur d : PageDir) (uva : Nat) : Except Stop (Option Frame) :=
  match d.pte uva with
  | some e => .ok (if e.p ∧ e.u then some e.frame else none)
  | none => do
    let e ← m.nullPte cur
    if e.p ∧ e.u then .error .wild else .ok none

/-- The loop of `copyout`, of at most as many turns as there are bytes; `false` is the result
`-1`. -/
def copyLoopOut (cur d : PageDir) :
    Nat → Memory → Nat → List UInt8 → Except Stop (Bool × Memory)
  | 0, m, _, _ => .ok (true, m)
  | n + 1, m, va, buf =>
    if buf = [] then .ok (true, m)
    else do
      let va0 := PGROUNDDOWN va
      match ← m.uva2ka cur d va0 with
      | none => .ok (false, m)
      | some f =>
        let count := min (PGSIZE - (va - va0)) buf.length
        if va ≥ KERNBASE then .error .wild
        else
          copyLoopOut cur d n (m.write f (va - va0) (buf.take count)) ((va0 + PGSIZE) % 2 ^ 32)
            (buf.drop count)

/-- `copyout(d, va, p, len)`. -/
def copyout (m : Memory) (cur d : PageDir) (va : Nat) (buf : List UInt8) :
    Except Stop (Bool × Memory) :=
  copyLoopOut cur d buf.length m va buf

/-! ## The phases of `exec` -/

/-- The loop over `n` program headers from the file offset `off`, with the size so far; `none` is
the jump to `bad`. -/
def execLoad (file : List UInt8) :
    Nat → Memory → PageDir → Nat → Nat → Except Stop (Option Nat × Memory × PageDir)
  | 0, m, d, sz, _ => .ok (some sz, m, d)
  | n + 1, m, d, sz, off =>
    match readi file off 32 with
    | none => .ok (none, m, d)
    | some b =>
      let ph := ProgHdr.read b
      if b.length ≠ 32 then .ok (none, m, d)
      else if ph.type ≠ 1 then execLoad file n m d sz ((off + 32) % 2 ^ 32)
      else if ph.memsz < ph.filesz then .ok (none, m, d)
      else do
        let (sz, m, d) ← m.allocuvm d sz ((ph.vaddr + ph.memsz) % 2 ^ 32)
        if sz = 0 then .ok (none, m, d)
        else do
          let (ok, m) ← m.loaduvm d ph.vaddr file ph.off ph.filesz
          if ok then execLoad file n m d sz ((off + 32) % 2 ^ 32) else .ok (none, m, d)

/-- The loop over the arguments, with the stack pointer and the pointers pushed so far. -/
def execArgs (cur d : PageDir) :
    List (List UInt8) → Memory → Nat → List Nat → Except Stop (Option (Nat × List Nat) × Memory)
  | [], m, sp, ustack => .ok (some (sp, ustack), m)
  | arg :: args, m, sp, ustack =>
    if ustack.length ≥ MAXARG then .ok (none, m)
    else do
      let sp := (sp + (2 ^ 32 - (arg.length + 1))) % 2 ^ 32 / 4 * 4
      match ← m.copyout cur d sp (arg ++ [0]) with
      | (false, m) => .ok (none, m)
      | (true, m) => execArgs cur d args m sp (ustack ++ [sp])

/-- The stack and the arguments, once the segments are loaded: the new size, or `none` for the
jump to `bad`. -/
def execStack (cur : PageDir) (m : Memory) (d : PageDir) (sz : Nat) (argv : List (List UInt8)) :
    Except Stop (Option Nat × Memory × PageDir) := do
  let sz := PGROUNDUP sz
  let (sz, m, d) ← m.allocuvm d sz ((sz + 2 * PGSIZE) % 2 ^ 32)
  if sz = 0 then .ok (none, m, d)
  else do
    let d ← clearpteu d ((sz + (2 ^ 32 - 2 * PGSIZE)) % 2 ^ 32)
    match ← execArgs cur d argv m sz [] with
    | (none, m) => .ok (none, m, d)
    | (some (sp, ptrs), m) =>
      let argc := ptrs.length
      let ustack := [0xffffffff, argc, (sp + (2 ^ 32 - (argc + 1) * 4)) % 2 ^ 32] ++ ptrs ++ [0]
      let sp := (sp + (2 ^ 32 - (3 + argc + 1) * 4)) % 2 ^ 32
      let (ok, m) ← m.copyout cur d sp (ustack.flatMap (Bytes.leBytes 4))
      .ok (if ok then some sz else none, m, d)

/-- What follows the check of the ELF header: the new image, or `none` for the jump to `bad`. -/
def execImage (cur : PageDir) (m : Memory) (d : PageDir) (file hdr : List UInt8)
    (argv : List (List UInt8)) : Except Stop (Option Nat × Memory × PageDir) := do
  match ← execLoad file (field hdr 44 2) m d 0 (field hdr 28 4) with
  | (none, m, d) => .ok (none, m, d)
  | (some sz, m, d) => execStack cur m d sz argv

/-- `exec(path, argv)`, where `path` names `file`; `false` is the result `-1`. -/
def exec (m : Memory) (P : Proc) (file : Option (List UInt8)) (argv : List (List UInt8)) :
    Except Stop (Bool × Memory × Proc) :=
  match file with
  | none => .ok (false, m, P)
  | some file =>
    let hdr := (readi file 0 52).getD []
    if hdr.length < 52 ∨ field hdr 0 4 ≠ 0x464C457F then .ok (false, m, P)
    else do
      match ← m.setupkvm with
      | (none, m) => .ok (false, m, P)
      | (some d, m) =>
        match ← execImage P.pgdir m d file hdr argv with
        | (none, m, d) =>
          let m ← m.freevm d 0
          .ok (false, m, P)
        | (some sz, m, d) =>
          let m ← m.freevm P.pgdir 0
          .ok (true, m, { P with pgdir := d, sz })

end Memory

end Msboss.Vm
