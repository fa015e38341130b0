import Msboss.Vm.User

/-!
# Shared memory

`shm.h` and the two system calls of `sysproc.c` on top of it. A region is an entry of `shm_arr` with
a name other than `DNE`; a process records the regions it has attached in three parallel tables.

A name is the list of the bytes before its NUL. The calls compare sixteen of them, `strncpy` keeps
sixteen and `safestrcpy` fifteen. `allocshm` stores an uninitialised pointer when it attaches to a
region; its value is an argument (`junk`), as a physical address.
-/

namespace Msboss.Vm

/-- A slot of `ptable.proc`. -/
abbrev Pid := Fin NPROC

/-- What the modelled calls use of `struct proc`. The addresses in `shm_vir` are taken modulo
`2 ^ 32`. -/
structure Proc where
  sz : Nat
  pgdir : PageDir
  kstack : Frame
  parent : Option Pid
  zombie : Bool
  shm_name : Slot → List UInt8
  shm_vir : Slot → Nat
  shm_phys : Slot → Nat

/-- The name of an entry out of use. -/
def DNE : List UInt8 := [68, 78, 69]

/-- `strncmp(s, t, n) == 0`. -/
def strncmp (s t : List UInt8) (n : Nat) : Bool := s.take n == t.take n

/-- `strncpy(_, t, n)`, read back as a string of at most `n` bytes. -/
def strncpy (t : List UInt8) (n : Nat) : List UInt8 := t.take n

/-- `safestrcpy(_, t, n)`. -/
def safestrcpy (t : List UInt8) (n : Nat) : List UInt8 := t.take (n - 1)

/-! ## The tables -/

/-- `shm_find(str)`. -/
def Memory.shm_find (m : Memory) (str : List UInt8) : Option Slot :=
  (List.finRange SHM_MAXNUM).find? fun i => strncmp (m.shm_arr i).name str 16

/-- `shm_findFree()`. -/
def Memory.shm_findFree (m : Memory) : Option Slot := m.shm_find DNE

/-- `procSHM_nameFind(str)`. -/
def Proc.procSHM_nameFind (P : Proc) (str : List UInt8) : Option Slot :=
  (List.finRange SHM_MAXNUM).find? fun i => strncmp (P.shm_name i) str 16

/-- `procSHM_findFree()`. -/
def Proc.procSHM_findFree (P : Proc) : Option Slot := P.procSHM_nameFind DNE

/-- Gives slot `ref` a name. -/
def Proc.setName (P : Proc) (ref : Slot) (name : List UInt8) : Proc :=
  { P with shm_name := Function.update P.shm_name ref name }

/-- Records where slot `ref` is mapped. -/
def Proc.setMap (P : Proc) (ref : Slot) (vir phys : Nat) : Proc :=
  { P with
    shm_vir := Function.update P.shm_vir ref vir
    shm_phys := Function.update P.shm_phys ref phys }

/-- The slot `ref` is out of use. -/
def Proc.dropSlot (P : Proc) (ref : Slot) : Proc := (P.setMap ref 0 0).setName ref DNE

/-- `proc->sz - PGSIZE`. -/
def Proc.szLess (P : Proc) : Nat := (P.sz + (2 ^ 32 - PGSIZE)) % 2 ^ 32

/-! ## Giving a page back -/

/-- The loop of `deallocshm` that maps every page above the region one page lower. A missing page
table skips ahead and goes on with a null pointer. -/
def Memory.remapLoop (sz : Nat) : Nat → Memory → PageDir → Nat → Except Stop (Memory × PageDir)
  | 0, m, d, _ => .ok (m, d)
  | n + 1, m, d, a =>
    if a < sz then do
      let (a, e) ← match d.pte a with
        | some e => .ok (a, e)
        | none => do
          let e ← m.nullPte d
          .ok ((a + (NPTENTRIES - 1) * PGSIZE) % 2 ^ 32, e)
      let (_, m, d) ← m.mappages d ((a + (2 ^ 32 - PGSIZE)) % 2 ^ 32) PGSIZE e.addr true true
      remapLoop sz n m d ((a + PGSIZE) % 2 ^ 32)
    else .ok (m, d)

/-- `deallocshm(proc->pgdir, oldsz, newsz, ref, shmMap)`; `none` is the result `-1`. The second
test reads through a pointer that is still null. -/
def Memory.deallocshm (m : Memory) (P : Proc) (oldsz newsz : Nat) (ref : Slot) (shmMap : Nat) :
    Except Stop (Option Nat × Memory × Proc) :=
  if newsz ≥ oldsz then .ok (some oldsz, m, P)
  else if (P.pgdir.pte (P.shm_vir ref)).isNone then .ok (none, m, P)
  else
    let cleared := P.pgdir.setPte (P.shm_vir ref) .zero
    if shmMap = 0 then
      if P.shm_vir ref = P.szLess then
        .ok (some newsz, m, { P.dropSlot ref with pgdir := cleared, sz := P.szLess })
      else do
        let (m, d) ← remapLoop P.sz (2 ^ 20) m cleared ((P.shm_vir ref + PGSIZE) % 2 ^ 32)
        .ok (some newsz, m, { P.dropSlot ref with pgdir := d, sz := P.szLess })
    else do
      let e ← m.nullPte P.pgdir
      if e.p ∧ P.shm_vir ref = P.szLess then
        let m ← m.kfree shmMap
        .ok (some newsz, m, { P.dropSlot ref with pgdir := cleared })
      else .ok (some newsz, m, P)

/-! ## Taking a page -/

/-- The loop of `allocshm` over `n` pages from the address `a`, with the value of `v2p(mem)`;
`none` in place of that is the result 0. -/
def Memory.allocshmLoop (oldsz newsz shmMap : Nat) :
    Nat → Memory → Proc → Nat → Nat → Except Stop (Option Nat × Memory × Proc × Nat)
  | 0, m, P, a, mem => .ok (some mem, m, P, a)
  | n + 1, m, P, a, mem =>
    if shmMap = 0 then
      match m.kalloc with
      | (none, m) => do
        let (_, m, P) ← m.deallocshm P newsz oldsz 0 0
        .ok (none, m, P, a)
      | (some f, m) => do
        let (_, m, d) ← (m.fill f 0).mappages P.pgdir a PGSIZE (f * PGSIZE) true true
        allocshmLoop oldsz newsz shmMap n m { P with pgdir := d } (a + PGSIZE) (f * PGSIZE)
    else do
      let (_, m, d) ← m.mappages P.pgdir a PGSIZE shmMap true true
      allocshmLoop oldsz newsz shmMap n m { P with pgdir := d } (a + PGSIZE) mem

/-- `allocshm(proc->pgdir, oldsz, newsz, ref, shmMap)`. -/
def Memory.allocshm (m : Memory) (P : Proc) (oldsz newsz : Nat) (ref : Slot) (shmMap junk : Nat) :
    Except Stop (Nat × Memory × Proc) :=
  if newsz ≥ KERNBASE then .ok (0, m, P)
  else if newsz < oldsz then .ok (oldsz, m, P)
  else do
    let a := PGROUNDUP oldsz
    match ← allocshmLoop oldsz newsz shmMap ((newsz - a + (PGSIZE - 1)) / PGSIZE) m P a junk with
    | (none, m, P, _) => .ok (0, m, P)
    | (some mem, m, P, a) =>
      .ok (newsz, m, P.setMap ref ((a + (2 ^ 32 - (newsz - oldsz))) % 2 ^ 32) mem)

/-- `shm_alloc(n, ref, shmMap)`; `false` is the result `-1`. -/
def Memory.shm_alloc (m : Memory) (P : Proc) (n : Int) (ref : Slot) (shmMap junk : Nat) :
    Except Stop (Bool × Memory × Proc) := do
  let newsz := ((P.sz + n) % 2 ^ 32).toNat
  if n > 0 then
    match ← m.allocshm P P.sz newsz ref shmMap junk with
    | (0, m, P) => .ok (false, m, P)
    | (sz, m, P) => .ok (true, m, { P with sz })
  else if n < 0 then
    match ← m.deallocshm P P.sz newsz ref shmMap with
    | (none, m, P) => .ok (false, m, P)
    | (some sz, m, P) => .ok (true, m, { P with sz })
  else .ok (true, m, P)

/-! ## The calls -/

/-- `shm_get(name, _)`; the address, or 0. -/
def Memory.shm_get (m : Memory) (P : Proc) (name : List UInt8) (junk : Nat) :
    Except Stop (Nat × Memory × Proc) :=
  match P.procSHM_nameFind name with
  | some i => .ok (P.shm_vir i, m, P)
  | none =>
    match P.procSHM_findFree with
    | none => .ok (0, m, P)
    | some ref =>
      match m.shm_find name with
      | none =>
        if m.used < SHM_MAXNUM then do
          match ← m.shm_alloc P 4096 ref 0 junk with
          | (false, m, P) => .ok (0, m, P)
          | (true, m, P) =>
            let P := P.setName ref (safestrcpy name 16)
            -- `used` counts the entries in use, so there is a free one
            match m.shm_findFree with
            | none => .error .wild
            | some i =>
              let m := m.setShm i
                { name := strncpy name 16
                  numAccess := (m.shm_arr i).numAccess + 1
                  shmPhys := P.shm_phys ref }
              .ok (P.shm_vir ref, { m with used := m.used + 1 }, P)
        else .ok (0, m, P)
      | some i => do
        match ← m.shm_alloc P 4096 ref (m.shm_arr i).shmPhys junk with
        | (false, m, P) => .ok (0, m, P)
        | (true, m, P) =>
          .ok (P.shm_vir ref, m.addAccess i 1, P.setName ref (strncpy name 16))

/-- `shm_rem(name, _)`. -/
def Memory.shm_rem (m : Memory) (P : Proc) (name : List UInt8) :
    Except Stop (Int × Memory × Proc) :=
  match m.shm_find name, P.procSHM_nameFind name with
  | none, _ => .ok (-1, m, P)
  | some _, none => .ok (-1, m, P)
  | some i, some ref =>
    if (m.shm_arr i).numAccess > 1 then do
      match ← m.shm_alloc P (-4096) ref 0 0 with
      | (false, m, P) => .ok (-1, m, P)
      | (true, m, P) => .ok (1, m.addAccess i (-1), P)
    else do
      match ← m.shm_alloc P (-4096) ref (m.shm_arr i).shmPhys 0 with
      | (false, m, P) => .ok (0, m, P)
      | (true, m, P) =>
        let m := m.setShm i { name := safestrcpy DNE 16, numAccess := 0, shmPhys := 0 }
        .ok (1, { m with used := m.used - 1 }, P)

/-- What the two system calls refuse: a length above sixteen, and the name `DNE`. -/
def refused (name : List UInt8) (length : Int) : Bool := length > 16 || strncmp name DNE 4

/-- `sys_shm_get`. -/
def Memory.sys_shm_get (m : Memory) (P : Proc) (name : List UInt8) (length : Int) (junk : Nat) :
    Except Stop (Nat × Memory × Proc) :=
  if refused name length then .ok (0, m, P) else m.shm_get P name junk

/-- `sys_shm_rem`. -/
def Memory.sys_shm_rem (m : Memory) (P : Proc) (name : List UInt8) (length : Int) :
    Except Stop (Int × Memory × Proc) :=
  if refused name length then .ok (0, m, P) else m.shm_rem P name

end Msboss.Vm
