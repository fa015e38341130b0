import Msboss.Param
import Msboss.Lib.Tally

/-!
# Page directories and physical memory

The part of `vm.c` and `kalloc.c` below the system calls: the free list, page directories with
their page tables, `walkpgdir` and `mappages`.

A page directory is a value: it carries the frame it is in and its page tables, each with its own
frame. That a frame in use as a page table is in no other use is what the ownership theorem says;
as long as it holds, what is written to user pages does not show in a page table. The contents of
user pages are in `Memory.page`.

Physical addresses are multiples of `PGSIZE` wherever a frame is meant, and a `Frame` is such an
address divided by it.
-/

namespace Msboss.Vm

open Function

/-- A physical page number. -/
abbrev Frame := Nat

/-- The panics of the modelled code. -/
inductive Panic
  /-- `kfree` -/
  | kfree
  /-- `remap` -/
  | remap
  /-- `PHYSTOP too high` -/
  | phystop
  /-- `userinit: out of memory?` -/
  | userinit
  /-- `inituvm: more than a page` -/
  | inituvm
  /-- `loaduvm: addr must be page aligned` -/
  | loaduvmAlign
  /-- `loaduvm: address should exist` -/
  | loaduvmExist
  /-- `clearpteu` -/
  | clearpteu
  /-- `copyuvm: pte should exist` -/
  | copyuvmExist
  /-- `copyuvm: page not present` -/
  | copyuvmPresent
  /-- `init exiting` -/
  | initExiting
  /-- A page fault in the kernel: `trap`. -/
  | trap
  deriving DecidableEq, Repr

/-- How a system call can end the model's account of the machine: it panics, or it writes to
memory that is not its to write, and anything may follow. -/
inductive Stop
  | panic (p : Panic)
  | wild
  deriving DecidableEq, Repr

/-- A page-table entry: `PTE_ADDR` and the flags `PTE_P`, `PTE_W`, `PTE_U`. -/
structure Pte where
  frame : Frame
  p : Bool
  w : Bool
  u : Bool
  deriving DecidableEq, Repr

/-- The entry 0. -/
def Pte.zero : Pte := { frame := 0, p := false, w := false, u := false }

/-- `PTE_ADDR(*pte)`. -/
def Pte.addr (e : Pte) : Nat := e.frame * PGSIZE

/-- A page table. -/
structure PageTable where
  frame : Frame
  pte : Fin 1024 → Pte

/-- A page directory; an entry without `PTE_P` is `none`. -/
structure PageDir where
  frame : Frame
  pde : Fin 1024 → Option PageTable

/-- `struct shm`; its `name_length` is never read. -/
structure Shm where
  name : List UInt8
  numAccess : Int
  shmPhys : Nat
  deriving DecidableEq, Repr

/-- An index of `shm_arr`, or of a process's own tables. -/
abbrev Slot := Fin SHM_MAXNUM

instance : NeZero SHM_MAXNUM := ⟨by decide⟩

/-- `kmem.freelist`, the contents of the frames, and the table of shared regions. `oom` records that
`kalloc` has returned 0. -/
structure Memory where
  freelist : List Frame
  page : Frame → Nat → UInt8
  shm_arr : Slot → Shm
  used : Int
  oom : Bool

/-! ## `kalloc.c` -/

/-- The first address after the kernel (`kernel.sym`). -/
def END : Nat := 0x80124fdc

/-- `p2v`. -/
def p2v (pa : Nat) : Nat := (pa + KERNBASE) % 2 ^ 32

/-- `v2p`. -/
def v2p (va : Nat) : Nat := (va + (2 ^ 32 - KERNBASE)) % 2 ^ 32

/-- `memset(p2v(f * PGSIZE), b, PGSIZE)`. -/
def Memory.fill (m : Memory) (f : Frame) (b : UInt8) : Memory :=
  { m with page := update m.page f fun _ => b }

/-- `kalloc`. -/
def Memory.kalloc (m : Memory) : Option Frame × Memory :=
  match m.freelist with
  | [] => (none, { m with oom := true })
  | f :: fs => (some f, { m with freelist := fs })

/-- `kfree(p2v(pa))`. -/
def Memory.kfree (m : Memory) (pa : Nat) : Except Stop Memory :=
  let v := p2v pa
  if v % PGSIZE ≠ 0 ∨ v < END ∨ v2p v ≥ PHYSTOP then .error (.panic .kfree)
  else .ok { m.fill (pa / PGSIZE) 1 with freelist := pa / PGSIZE :: m.freelist }

/-! ## Page tables -/

instance neZeroEntries : NeZero 1024 := ⟨by decide⟩

/-- `PDX(va)`. -/
def PDX (va : Nat) : Fin 1024 := Fin.ofNat 1024 (va / PGSIZE / 1024)

/-- `PTX(va)`. -/
def PTX (va : Nat) : Fin 1024 := Fin.ofNat 1024 (va / PGSIZE)

/-- `PGROUNDUP(a)`. -/
def PGROUNDUP (a : Nat) : Nat := (a + (PGSIZE - 1)) % 2 ^ 32 / PGSIZE * PGSIZE

/-- `PGROUNDDOWN(a)`. -/
def PGROUNDDOWN (a : Nat) : Nat := a / PGSIZE * PGSIZE

namespace PageDir

/-- `*walkpgdir(d, va, 0)`, and `none` for a null pointer. -/
def pte (d : PageDir) (va : Nat) : Option Pte := (d.pde (PDX va)).map fun t => t.pte (PTX va)

/-- `*walkpgdir(d, va, 0) = e`, where the pointer is not null. -/
def setPte (d : PageDir) (va : Nat) (e : Pte) : PageDir :=
  match d.pde (PDX va) with
  | none => d
  | some t => { d with
      pde := update d.pde (PDX va)
        (some { t with pte := update t.pte (PTX va) e }) }

end PageDir

/-- `walkpgdir(d, va, 1)`: makes the page table for `va`; `false` is the null pointer. -/
def Memory.walkpgdir (m : Memory) (d : PageDir) (va : Nat) : Bool × Memory × PageDir :=
  match d.pde (PDX va) with
  | some _ => (true, m, d)
  | none =>
    match m.kalloc with
    | (none, m) => (false, m, d)
    | (some f, m) => (true, m, { d with
        pde := update d.pde (PDX va) (some { frame := f, pte := fun _ => .zero }) })

/-- The loop of `mappages` over `n` pages; `false` is the result `-1`. -/
def Memory.mapLoop (w u : Bool) : Nat → Memory → PageDir → Nat → Nat →
    Except Stop (Bool × Memory × PageDir)
  | 0, m, d, _, _ => .ok (true, m, d)
  | n + 1, m, d, a, pa =>
    match m.walkpgdir d a with
    | (false, m, d) => .ok (false, m, d)
    | (true, m, d) =>
      if (d.pte a).any (·.p) then .error (.panic .remap)
      else mapLoop w u n m (d.setPte a { frame := pa / PGSIZE, p := true, w, u })
        ((a + PGSIZE) % 2 ^ 32) (pa + PGSIZE)

/-- `mappages(d, va, size, pa, perm)` with the flags `PTE_W` and `PTE_U` of `perm`. The loop ends
when its address has come to the last page, which it reaches after the distance in pages. -/
def Memory.mappages (m : Memory) (d : PageDir) (va size pa : Nat) (w u : Bool) :
    Except Stop (Bool × Memory × PageDir) :=
  let a := PGROUNDDOWN va
  let last := PGROUNDDOWN ((va + size + (2 ^ 32 - 1)) % 2 ^ 32)
  mapLoop w u ((last + (2 ^ 32 - a)) % 2 ^ 32 / PGSIZE + 1) m d a pa

/-! ## `setupkvm` -/

/-- The start of the kernel's writable data (`kernel.sym`). -/
def DATA : Nat := 0x8010c000

/-- `struct kmap`, with the flag `PTE_W`. -/
structure Kmap where
  virt : Nat
  phys_start : Nat
  phys_end : Nat
  w : Bool

/-- The kernel's mappings. -/
def kmap : List Kmap :=
  [{ virt := KERNBASE, phys_start := 0, phys_end := EXTMEM, w := true },
    { virt := KERNBASE + EXTMEM, phys_start := EXTMEM, phys_end := DATA - KERNBASE, w := false },
    { virt := DATA, phys_start := DATA - KERNBASE, phys_end := PHYSTOP, w := true },
    { virt := DEVSPACE, phys_start := DEVSPACE, phys_end := 0, w := true }]

/-- The loop of `setupkvm`. A failure leaves what was allocated behind. -/
def Memory.kmapLoop : List Kmap → Memory → PageDir → Except Stop (Option PageDir × Memory)
  | [], m, d => .ok (some d, m)
  | k :: ks, m, d => do
    let size := (k.phys_end + (2 ^ 32 - k.phys_start)) % 2 ^ 32
    match ← m.mappages d k.virt size k.phys_start k.w false with
    | (false, m, _) => .ok (none, m)
    | (true, m, d) => kmapLoop ks m d

/-- `setupkvm`. -/
def Memory.setupkvm (m : Memory) : Except Stop (Option PageDir × Memory) :=
  match m.kalloc with
  | (none, m) => .ok (none, m)
  | (some f, m) =>
    if p2v PHYSTOP > DEVSPACE then .error (.panic .phystop)
    else kmapLoop kmap m { frame := f, pde := fun _ => none }

end Msboss.Vm
