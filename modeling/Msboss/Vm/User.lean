import Msboss.Vm.Paging

/-!
# User memory

The functions of `vm.c` that grow, shrink, copy and fill the user half of a page directory, with
the search for shared regions (`shm_arr_findPA` of `shm.h`) that `deallocuvm` and `copyuvm` make.

Sizes and addresses are below `2 ^ 32`. The loops run over pages; a loop whose number of turns is
not known in advance has that many turns at most as its first argument.
-/

namespace Msboss.Vm

namespace Memory

/-- Replaces an entry of `shm_arr`. -/
def setShm (m : Memory) (i : Slot) (r : Shm) : Memory :=
  { m with shm_arr := Function.update m.shm_arr i r }

/-- `shm_arr[i].numAccess += c`. -/
def addAccess (m : Memory) (i : Slot) (c : Int) : Memory :=
  m.setShm i { m.shm_arr i with numAccess := (m.shm_arr i).numAccess + c }

/-- `shm_arr_findPA(pa, refChange)`; `none` is the result `-1`, and a found region's address is
`pa`. -/
def shm_arr_findPA (m : Memory) (pa : Nat) (refChange : Int) : Option Memory :=
  ((List.finRange SHM_MAXNUM).find? fun i => decide (pa = (m.shm_arr i).shmPhys)).map fun i =>
    m.addAccess i refChange

/-- The loop of `deallocuvm` from the address `a`. A missing page table skips `NPTENTRIES` pages, a
shared page is counted and left mapped. -/
def deallocLoop (oldsz : Nat) (accChange : Int) :
    Nat → Memory → PageDir → Nat → Except Stop (Memory × PageDir)
  | 0, m, d, _ => .ok (m, d)
  | n + 1, m, d, a =>
    if a < oldsz then
      match d.pte a with
      | none => deallocLoop oldsz accChange n m d (a + (NPTENTRIES - 1) * PGSIZE + PGSIZE)
      | some e =>
        if e.p then
          if e.addr = 0 then .error (.panic .kfree)
          else match m.shm_arr_findPA e.addr accChange with
            | some m => deallocLoop oldsz accChange n m d (a + PGSIZE)
            | none => do
              let m ← m.kfree e.addr
              deallocLoop oldsz accChange n m (d.setPte a .zero) (a + PGSIZE)
        else deallocLoop oldsz accChange n m d (a + PGSIZE)
    else .ok (m, d)

/-- `deallocuvm(d, oldsz, newsz, accChange)`. -/
def deallocuvm (m : Memory) (d : PageDir) (oldsz newsz : Nat) (accChange : Int) :
    Except Stop (Nat × Memory × PageDir) :=
  if newsz ≥ oldsz then .ok (oldsz, m, d)
  else do
    let (m, d) ← deallocLoop oldsz accChange (oldsz / PGSIZE + 1) m d (PGROUNDUP newsz)
    .ok (newsz, m, d)

/-- The loop of `allocuvm` over `n` pages from the address `a`. That `mappages` fails goes
unnoticed. -/
def allocLoop (oldsz newsz : Nat) :
    Nat → Memory → PageDir → Nat → Except Stop (Nat × Memory × PageDir)
  | 0, m, d, _ => .ok (newsz, m, d)
  | n + 1, m, d, a =>
    match m.kalloc with
    | (none, m) => do
      let (_, m, d) ← m.deallocuvm d newsz oldsz 0
      .ok (0, m, d)
    | (some f, m) => do
      let (_, m, d) ← (m.fill f 0).mappages d a PGSIZE (f * PGSIZE) true true
      allocLoop oldsz newsz n m d (a + PGSIZE)

/-- `allocuvm(d, oldsz, newsz)`; the result 0 is a failure. -/
def allocuvm (m : Memory) (d : PageDir) (oldsz newsz : Nat) :
    Except Stop (Nat × Memory × PageDir) :=
  if newsz ≥ KERNBASE then .ok (0, m, d)
  else if newsz < oldsz then .ok (oldsz, m, d)
  else
    let a := PGROUNDUP oldsz
    allocLoop oldsz newsz ((newsz - a + (PGSIZE - 1)) / PGSIZE) m d a

/-- The second loop of `freevm`. -/
def freeTables (d : PageDir) : List (Fin 1024) → Memory → Except Stop Memory
  | [], m => .ok m
  | i :: is, m =>
    match d.pde i with
    | none => freeTables d is m
    | some t => do
      let m ← m.kfree (t.frame * PGSIZE)
      freeTables d is m

/-- `freevm(d, accessChange)`. -/
def freevm (m : Memory) (d : PageDir) (accessChange : Int) : Except Stop Memory := do
  let (_, m, d) ← m.deallocuvm d KERNBASE 0 accessChange
  let m ← freeTables d (List.finRange 1024) m
  m.kfree (d.frame * PGSIZE)

/-- `memmove(p2v(f * PGSIZE), p2v(g * PGSIZE), PGSIZE)`. -/
def copyFrame (m : Memory) (f g : Frame) : Memory :=
  { m with page := Function.update m.page f (m.page g) }

/-- The loop of `copyuvm` over `n` pages of `pgdir` from the address `i`; `false` is the jump to
`bad`. -/
def copyLoop (pgdir : PageDir) : Nat → Memory → PageDir → Nat →
    Except Stop (Bool × Memory × PageDir)
  | 0, m, d, _ => .ok (true, m, d)
  | n + 1, m, d, i =>
    match pgdir.pte i with
    | none => .error (.panic .copyuvmExist)
    | some e =>
      if e.p then
        match m.shm_arr_findPA e.addr 1 with
        | some m => do
          match ← m.mappages d i PGSIZE e.addr e.w e.u with
          | (false, m, d) => .ok (false, m, d)
          | (true, m, d) => copyLoop pgdir n m d (i + PGSIZE)
        | none =>
          match m.kalloc with
          | (none, m) => .ok (false, m, d)
          | (some f, m) => do
            match ← (m.copyFrame f e.frame).mappages d i PGSIZE (f * PGSIZE) e.w e.u with
            | (false, m, d) => .ok (false, m, d)
            | (true, m, d) => copyLoop pgdir n m d (i + PGSIZE)
      else .error (.panic .copyuvmPresent)

/-- `copyuvm(pgdir, sz)`. -/
def copyuvm (m : Memory) (pgdir : PageDir) (sz : Nat) : Except Stop (Option PageDir × Memory) := do
  match ← m.setupkvm with
  | (none, m) => .ok (none, m)
  | (some d, m) =>
    match ← copyLoop pgdir ((sz + (PGSIZE - 1)) / PGSIZE) m d 0 with
    | (true, m, d) => .ok (some d, m)
    | (false, m, d) =>
      let m ← m.freevm d 0
      .ok (none, m)

/-- `inituvm(d, init, sz)`. An empty free list is not noticed, and `init` would be copied over
the kernel's own memory. -/
def inituvm (m : Memory) (d : PageDir) (init : List UInt8) : Except Stop (Memory × PageDir) :=
  if init.length ≥ PGSIZE then .error (.panic .inituvm)
  else match m.kalloc with
    | (none, _) => .error .wild
    | (some f, m) => do
      let (_, m, d) ← (m.fill f 0).mappages d 0 PGSIZE (f * PGSIZE) true true
      .ok ({ m with page := Function.update m.page f fun i => init.getD i 0 }, d)

/-- The word at the user address 0, read as a page-table entry: what `*pte` is when `pte` is a null
pointer, in the address space `cur` the kernel runs in. -/
def nullPte (m : Memory) (cur : PageDir) : Except Stop Pte :=
  match cur.pte 0 with
  | some e =>
    if e.p then
      let byte (i : Nat) := (m.page e.frame i).toNat
      let word := byte 0 + 2 ^ 8 * byte 1 + 2 ^ 16 * byte 2 + 2 ^ 24 * byte 3
      .ok { frame := word / PGSIZE, p := word.testBit 0, w := word.testBit 1, u := word.testBit 2 }
    else .error (.panic .trap)
  | none => .error (.panic .trap)

end Memory

end Msboss.Vm
