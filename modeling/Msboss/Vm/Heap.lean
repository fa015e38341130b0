import Msboss.Vm.Tame

/-!
# The heap and the shared pages of one process

`sbrk` and `shm_get` both hand out the addresses at the end of the process: `sbrk` those from `sz`
on, `shm_get` those of the page at `PGROUNDUP(sz)`. Both then add to `sz` what they were asked for,
`shm_get` one page. If `sz` is not a multiple of the page size, the shared page ends above the new
`sz`, and the next `sbrk` hands out the rest of it again.

A run is any sequence of successful calls by one process, of any size and with any regions attached
that lie inside it. The state records what was handed out: the ranges of the `sbrk` calls and those
of the first `shm_get` of each name. They are disjoint and inside the process (`Separate`) on the
runs that meet `OnPage`: a page is added only where one begins, and names have at most fifteen
bytes. A name of sixteen is kept without its last byte, so that the process is given its region
under the shorter name, too.
-/

namespace Msboss.Vm

open Function Memory

/-- An address and a number of bytes. -/
structure Range where
  start : Nat
  size : Nat
  deriving DecidableEq, Repr

/-- The addresses of the range. -/
def Range.addrs (r : Range) : Set Nat := Set.Ico r.start (r.start + r.size)

/-- One range ends before the other begins. -/
def Range.Apart (r t : Range) : Prop := r.start + r.size ≤ t.start ∨ t.start + t.size ≤ r.start

theorem Range.Apart.symm {r t : Range} (h : r.Apart t) : t.Apart r := Or.symm h

/-- Ranges apart have no address in common. -/
theorem Range.Apart.disjoint {r t : Range} (h : r.Apart t) : Disjoint r.addrs t.addrs := by
  refine Set.disjoint_left.2 fun x hr ht => ?_
  obtain ⟨h1, h2⟩ := hr
  obtain ⟨h3, h4⟩ := ht
  rcases h with h | h <;> omega

/-- The page that the process has recorded in the slot. -/
def Proc.region (P : Proc) (i : Slot) : Range := ⟨P.shm_vir i, PGSIZE⟩

/-- The regions that the process has attached lie inside it, apart from each other. -/
structure Proc.Settled (P : Proc) : Prop where
  inside : ∀ i, P.shm_name i ≠ DNE → P.shm_vir i + PGSIZE ≤ P.sz
  apart : ∀ i j, i ≠ j → P.shm_name i ≠ DNE → P.shm_name j ≠ DNE → (P.region i).Apart (P.region j)

/-- `used` is the number of entries in use. -/
def Memory.CountsUsed (m : Memory) : Prop :=
  m.used = (Finset.univ.filter fun i => (m.shm_arr i).Named).card

/-! ## The model -/

/-- A process, with the names that `shm_get` was called with and what it was given. -/
structure Heap where
  mem : Memory
  proc : Proc
  names : List (List UInt8)
  ranges : List Range

/-- A call. -/
inductive Request
  | sbrk (n : Nat)
  | shm_get (name : List UInt8) (length : Int) (junk : Nat)
  deriving DecidableEq, Repr

/-- The argument of `sbrk` is an `int`. -/
def Request.Valid : Request → Prop
  | .sbrk n => n < 2 ^ 31
  | .shm_get .. => True

instance (c : Request) : Decidable c.Valid :=
  match c with
  | .sbrk n => inferInstanceAs (Decidable (n < 2 ^ 31))
  | .shm_get .. => inferInstanceAs (Decidable True)

namespace Heap

/-- `sys_sbrk` and `sys_shm_get`; `none` is a call that fails. -/
def call (h : Heap) : Request → Except Stop (Option Heap)
  | .sbrk n => do
    let addr := h.proc.sz
    let (ok, m, P) ← h.mem.growproc h.proc n
    .ok (if ok then some { h with mem := m, proc := P, ranges := ⟨addr, n⟩ :: h.ranges } else none)
  | .shm_get name length junk => do
    let (va, m, P) ← h.mem.sys_shm_get h.proc name length junk
    .ok (if va ≠ 0 then some
        { mem := m
          proc := P
          names := name :: h.names
          ranges := if name ∈ h.names then h.ranges else ⟨va, PGSIZE⟩ :: h.ranges }
      else none)

/-- The process before its first call. -/
structure Start (h : Heap) : Prop where
  size : h.proc.sz < KERNBASE
  settled : h.proc.Settled
  used : h.mem.CountsUsed
  names : h.names = []
  ranges : h.ranges = []

/-- A successful call, or a wild one, after which there is no telling. -/
inductive Step (h : Heap) (c : Request) : Heap → Prop
  | ok {h' : Heap} : c.Valid → h.call c = .ok (some h') → Step h c h'
  | wild {h' : Heap} : c.Valid → h.call c = .error .wild → Step h c h'

/-- Every sequence of successful calls. -/
def system : System Heap Request where
  init := Start
  step := Step

/-- What was handed out is disjoint and inside the process. -/
def Separate (h : Heap) : Prop :=
  h.ranges.Pairwise (fun r t => Disjoint r.addrs t.addrs) ∧
    ∀ r ∈ h.ranges, r.addrs ⊆ Set.Ico 0 h.proc.sz

/-- A `shm_get` is given a name of at most fifteen bytes, and where it adds a page the process ends
with a page. -/
def OnPage (h : Heap) : Request → Prop
  | .sbrk _ => True
  | .shm_get name _ _ => name.length < 16 ∧
      (h.proc.procSHM_nameFind name = none → h.proc.sz % PGSIZE = 0)

instance (h : Heap) (c : Request) : Decidable (h.OnPage c) :=
  match c with
  | .sbrk _ => inferInstanceAs (Decidable True)
  | .shm_get name _ _ => inferInstanceAs (Decidable (name.length < 16 ∧
      (h.proc.procSHM_nameFind name = none → h.proc.sz % PGSIZE = 0)))

end Heap

/-! ## What the calls do to the process -/

section
variable {m m' : Memory} {P P' : Proc} {ref : Slot} {junk : Nat} {name : List UInt8}

/-- `allocuvm` returns the new size or 0. -/
theorem allocLoop_sz : ∀ {n : Nat} {m m' : Memory} {d d' : PageDir} {a : Nat},
    allocLoop oldsz newsz n m d a = .ok (sz, m', d') → sz = newsz ∨ sz = 0
  | 0, _, _, _, _, _, h => by cases h; exact .inl rfl
  | n + 1, m, m', d, d', a, h => by
    simp only [allocLoop] at h
    split at h
    · obtain ⟨_, -, h⟩ := bind_eq_ok.1 h
      cases h
      exact .inr rfl
    · obtain ⟨_, -, h⟩ := bind_eq_ok.1 h
      exact allocLoop_sz h

/-- A successful `growproc(n)` adds `n` to the size, and changes nothing else that is recorded. -/
theorem growproc_grown {n : Nat} (hsz : P.sz < KERNBASE) (hn : n < 2 ^ 31)
    (h : m.growproc P n = .ok (true, m', P')) :
    P'.sz = P.sz + n ∧ P'.shm_name = P.shm_name ∧ P'.shm_vir = P.shm_vir := by
  have hnew : (((P.sz : Int) + (n : Int)) % 2 ^ 32).toNat = P.sz + n := by
    simp only [KERNBASE] at hsz
    omega
  unfold growproc at h
  simp only [hnew] at h
  rcases Nat.eq_zero_or_pos n with rfl | hpos
  · cases h
    exact ⟨rfl, rfl, rfl⟩
  rw [if_pos (by omega)] at h
  obtain ⟨⟨sz, m1, d1⟩, ha, h⟩ := bind_eq_ok.1 h
  have hres : sz = P.sz + n ∨ sz = 0 := by
    unfold allocuvm at ha
    split at ha
    · cases ha
      exact .inr rfl
    · rw [if_neg (by omega)] at ha
      exact allocLoop_sz ha
  rcases sz with - | sz
  · cases h
  · cases h
    exact ⟨hres.resolve_right (Nat.succ_ne_zero sz), rfl, rfl⟩

/-- A successful `shm_alloc(4096, ref, _)` adds a page. -/
theorem shm_alloc_within (hsz : P.sz < KERNBASE)
    (h : m.shm_alloc P 4096 ref shmMap junk = .ok (true, m', P')) :
    P.sz + PGSIZE < KERNBASE ∧ (∃ d phys, P' = P.within ref d phys) ∧
      m'.shm_arr = m.shm_arr ∧ m'.used = m.used := by
  rcases eq_or_ne shmMap 0 with rfl | h0
  · rcases shm_alloc_new hsz h with ⟨hb, -⟩ | ⟨hb, -⟩ | ⟨-, hlt, f, m1, c, d, hk, hmap, rfl⟩
    · cases hb
    · cases hb
    obtain ⟨d1, hW, -, -⟩ := mappages_page (PGROUNDUP_mod _)
      (((PGROUNDUP_lt hlt).trans hlt).trans (by decide)) hmap
    refine ⟨hlt, ⟨d, _, rfl⟩, ?_, ?_⟩
    · rw [hW.shm_arr, (kalloc_some hk).2]
      rfl
    · rw [hW.used, (kalloc_some hk).2]
      rfl
  · rcases shm_alloc_attach hsz h0 h with ⟨hb, -⟩ | ⟨-, hlt, c, d, hmap, rfl⟩
    · cases hb
    obtain ⟨d1, hW, -, -⟩ := mappages_page (PGROUNDUP_mod _)
      (((PGROUNDUP_lt hlt).trans hlt).trans (by decide)) hmap
    exact ⟨hlt, ⟨d, _, rfl⟩, hW.shm_arr, hW.used⟩

/-- A successful `shm_get` finds the name among those of the process, or adds a page at its end. -/
theorem shm_get_placed (hsz : P.sz < KERNBASE) (hva : va ≠ 0)
    (h : m.shm_get P name junk = .ok (va, m', P')) :
    (∃ i, P.procSHM_nameFind name = some i ∧ va = P.shm_vir i ∧ m' = m ∧ P' = P) ∨
      P.procSHM_nameFind name = none ∧ P.sz + PGSIZE < KERNBASE ∧ va = PGROUNDUP P.sz ∧
        ∃ ref d phys stored, P' = (P.within ref d phys).setName ref stored ∧
          (stored = safestrcpy name 16 ∨ stored = strncpy name 16) := by
  unfold shm_get at h
  split at h
  · next i hi =>
    cases h
    exact .inl ⟨i, hi, rfl, rfl, rfl⟩
  next hname =>
  split at h
  · cases h
    exact absurd rfl hva
  next ref href =>
  split at h
  · split at h
    swap
    · cases h
      exact absurd rfl hva
    obtain ⟨⟨b, m1, P1⟩, ha, h⟩ := bind_eq_ok.1 h
    cases b with
    | false =>
      cases h
      exact absurd rfl hva
    | true =>
      obtain ⟨hlt, ⟨d, phys, rfl⟩, -⟩ := shm_alloc_within hsz ha
      simp only at h
      split at h
      · cases h
      · cases h
        exact .inr ⟨hname, hlt, update_self .., ref, d, phys, _, rfl, .inl rfl⟩
  · obtain ⟨⟨b, m1, P1⟩, ha, h⟩ := bind_eq_ok.1 h
    cases b with
    | false =>
      cases h
      exact absurd rfl hva
    | true =>
      obtain ⟨hlt, ⟨d, phys, rfl⟩, -⟩ := shm_alloc_within hsz ha
      cases h
      exact .inr ⟨hname, hlt, update_self .., ref, d, phys, _, rfl, .inr rfl⟩

/-- A successful `shm_get` keeps `used` right. -/
theorem shm_get_countsUsed (hsz : P.sz < KERNBASE) (hva : va ≠ 0)
    (hr : refused name length = false) (hu : m.CountsUsed)
    (h : m.shm_get P name junk = .ok (va, m', P')) : m'.CountsUsed := by
  have hsame {m1 : Memory} (hs : m1.shm_arr = m.shm_arr) (hu1 : m1.used = m.used) :
      m1.CountsUsed := by
    rw [Memory.CountsUsed, hs, hu1]
    exact hu
  unfold shm_get at h
  split at h
  · cases h
    exact hu
  split at h
  · cases h
    exact hu
  next ref href =>
  split at h
  · split at h
    swap
    · cases h
      exact hu
    obtain ⟨⟨b, m1, P1⟩, ha, h⟩ := bind_eq_ok.1 h
    cases b with
    | false =>
      cases h
      exact absurd rfl hva
    | true =>
      obtain ⟨-, -, hs, hu1⟩ := shm_alloc_within hsz ha
      simp only at h
      split at h
      · cases h
      · next i hi =>
        cases h
        exact used_enrol (hsame hs hu1) (not_named_of_findFree hi) (take_ne_of_not_refused hr)
  · next i hfind =>
    obtain ⟨⟨b, m1, P1⟩, ha, h⟩ := bind_eq_ok.1 h
    cases b with
    | false =>
      cases h
      exact absurd rfl hva
    | true =>
      obtain ⟨-, -, hs, hu1⟩ := shm_alloc_within hsz ha
      cases h
      have hnamed (j : Slot) : ((m1.addAccess i 1).shm_arr j).Named ↔ (m1.shm_arr j).Named :=
        (sameRegions_addAccess m1 i 1).named j
      have := hsame hs hu1
      simp only [Memory.CountsUsed, hnamed] at this ⊢
      exact this

/-- The slot in which a name of at most fifteen bytes is found has that name. -/
theorem nameFind_eq (hn : name.length < 16) (h : P.procSHM_nameFind name = some i) :
    P.shm_name i = name := by
  have h1 : (P.shm_name i).take 16 = name.take 16 := by
    have := List.find?_some h
    simpa [strncmp] using this
  rw [List.take_of_length_le hn.le] at h1
  have hlen := congrArg List.length h1
  rw [List.length_take] at hlen
  rwa [List.take_of_length_le (by omega)] at h1

theorem PGROUNDUP_eq (ha : a % PGSIZE = 0) (hlt : a < KERNBASE) : PGROUNDUP a = a := by
  simp only [PGROUNDUP, KERNBASE, PGSIZE] at *
  omega

end

/-! ## The invariant -/

namespace Heap

/-- A range that is handed out is apart from the others, and from the regions whose names are still
to be asked for. -/
structure Kept (h : Heap) : Prop where
  size : h.proc.sz < KERNBASE
  used : h.mem.CountsUsed
  settled : h.proc.Settled
  apart : h.ranges.Pairwise Range.Apart
  inside : ∀ r ∈ h.ranges, r.start + r.size ≤ h.proc.sz
  unasked : ∀ i, h.proc.shm_name i ≠ DNE → h.proc.shm_name i ∉ h.names →
    ∀ r ∈ h.ranges, (h.proc.region i).Apart r

section
variable {h h' : Heap} {name : List UInt8}

/-- The invariant holds at the start. -/
theorem Start.kept (hs : Start h) : Kept h where
  size := hs.size
  used := hs.used
  settled := hs.settled
  apart := by rw [hs.ranges]; exact .nil
  inside := by rw [hs.ranges]; nofun
  unasked := by rw [hs.ranges]; nofun

/-- The invariant keeps ranges apart. -/
theorem Kept.separate (hk : Kept h) : Separate h := by
  refine ⟨hk.apart.imp Range.Apart.disjoint, fun r hr x hx => ⟨Nat.zero_le x, ?_⟩⟩
  exact hx.2.trans_le (hk.inside r hr)

/-- `sbrk` hands out what follows the end of the process. -/
theorem Kept.sbrk {n : Nat} (hk : Kept h) (hn : n < 2 ^ 31)
    (hg : h.mem.growproc h.proc n = .ok (true, m, P)) :
    Kept { h with mem := m, proc := P, ranges := ⟨h.proc.sz, n⟩ :: h.ranges } := by
  obtain ⟨hsz, hname, hvir⟩ := growproc_grown hk.size hn hg
  obtain ⟨hM, hs, -, hlt⟩ := growproc_moves hk.size hg
  have hregion (i : Slot) : P.region i = h.proc.region i := by rw [Proc.region, hvir]; rfl
  have hle : h.proc.sz ≤ P.sz := by omega
  refine ⟨hlt, ?_, ⟨?_, ?_⟩, ?_, ?_, ?_⟩
  · rw [Memory.CountsUsed, hs, hM.used]
    exact hk.used
  · intro i hi
    rw [hname] at hi
    rw [hvir]
    exact (hk.settled.inside i hi).trans hle
  · intro i j hij hi hj
    rw [hname] at hi hj
    rw [hregion, hregion]
    exact hk.settled.apart i j hij hi hj
  · exact .cons (fun r hr => .inr (hk.inside r hr)) hk.apart
  · intro r hr
    rcases List.mem_cons.1 hr with rfl | hr
    · exact hsz.ge
    · exact (hk.inside r hr).trans hle
  · intro i hi hnot r hr
    rw [hname] at hi hnot
    rw [hregion]
    rcases List.mem_cons.1 hr with rfl | hr
    · exact .inl (hk.settled.inside i hi)
    · exact hk.unasked i hi hnot r hr

/-- The first `shm_get` of a region that the process has. -/
theorem Kept.known (hk : Kept h) (hi : h.proc.shm_name i = name) (hd : name ≠ DNE)
    (hnew : name ∉ h.names) :
    Kept { h with names := name :: h.names, ranges := h.proc.region i :: h.ranges } := by
  have hi' : h.proc.shm_name i ≠ DNE := hi ▸ hd
  refine ⟨hk.size, hk.used, hk.settled, ?_, ?_, ?_⟩
  · exact .cons (hk.unasked i hi' (hi ▸ hnew)) hk.apart
  · intro r hr
    rcases List.mem_cons.1 hr with rfl | hr
    · exact hk.settled.inside i hi'
    · exact hk.inside r hr
  · intro j hj hnot r hr
    rw [List.mem_cons, not_or] at hnot
    rcases List.mem_cons.1 hr with rfl | hr
    · have hne : j ≠ i := by
        rintro rfl
        exact hnot.1 hi
      exact hk.settled.apart j i hne hj hi'
    · exact hk.unasked j hj hnot.2 r hr

/-- Another name that was asked for. -/
theorem Kept.asked (hk : Kept h) : Kept { h with names := name :: h.names } :=
  ⟨hk.size, hk.used, hk.settled, hk.apart, hk.inside, fun i hi hnot =>
    hk.unasked i hi fun hmem => hnot (.tail _ hmem)⟩

/-- A new page at the end of a process that ends with a page. -/
theorem Kept.grown (hk : Kept h)
    (hu : m.CountsUsed) (hlt : h.proc.sz + PGSIZE < KERNBASE) (hal : h.proc.sz % PGSIZE = 0) :
    Kept
      { mem := m
        proc := (h.proc.within ref d phys).setName ref name
        names := name :: h.names
        ranges := if name ∈ h.names then h.ranges else ⟨h.proc.sz, PGSIZE⟩ :: h.ranges } := by
  set P := (h.proc.within ref d phys).setName ref name with hP
  have hsz : P.sz = h.proc.sz + PGSIZE := rfl
  have hround := PGROUNDUP_eq hal hk.size
  have hvir : P.region ref = ⟨h.proc.sz, PGSIZE⟩ := by
    simp only [Proc.region, hP, Proc.setName, Proc.within, Proc.setMap, update_self, hround]
  have hname : P.shm_name ref = name := update_self ..
  have hvir' {i : Slot} (hi : i ≠ ref) : P.region i = h.proc.region i := by
    simp only [Proc.region, hP, Proc.setName, Proc.within, Proc.setMap, update_of_ne hi]
  have hname' {i : Slot} (hi : i ≠ ref) : P.shm_name i = h.proc.shm_name i :=
    update_of_ne hi ..
  have hold {i : Slot} (hi : i ≠ ref) (hd : P.shm_name i ≠ DNE) :
      (h.proc.region i).Apart ⟨h.proc.sz, PGSIZE⟩ :=
    .inl (hk.settled.inside i (hname' hi ▸ hd))
  have hinside (i : Slot) (hd : P.shm_name i ≠ DNE) :
      (P.region i).start + (P.region i).size ≤ P.sz := by
    rcases eq_or_ne i ref with rfl | hi
    · rw [hvir, hsz]
    · rw [hvir' hi, hsz]
      exact Nat.le_add_right_of_le (hk.settled.inside i (hname' hi ▸ hd))
  refine ⟨hlt, hu, ⟨hinside, fun i j hij hi hj => ?_⟩, ?_, fun r hr => ?_, fun i hi hnot r hr => ?_⟩
  · rcases eq_or_ne i ref with rfl | hir
    · rw [hvir, hvir' hij.symm]
      exact (hold hij.symm hj).symm
    rw [hvir' hir]
    rcases eq_or_ne j ref with rfl | hjr
    · rw [hvir]
      exact hold hir hi
    · rw [hvir' hjr]
      exact hk.settled.apart i j hij (hname' hir ▸ hi) (hname' hjr ▸ hj)
  · show List.Pairwise _ (if _ then _ else _)
    split
    · exact hk.apart
    · exact .cons (fun r hr => .inr (hk.inside r hr)) hk.apart
  · have hcases : r = ⟨h.proc.sz, PGSIZE⟩ ∨ r ∈ h.ranges := by
      simp only at hr
      split at hr
      · exact .inr hr
      · exact List.mem_cons.1 hr
    show r.start + r.size ≤ P.sz
    rcases hcases with rfl | hr
    · exact hsz.ge
    · rw [hsz]
      exact Nat.le_add_right_of_le (hk.inside r hr)
  · rw [List.mem_cons, not_or] at hnot
    have hir : i ≠ ref := by
      rintro rfl
      exact hnot.1 hname
    have hi' : P.shm_name i ≠ DNE := hi
    have hnot' : h.proc.shm_name i ∉ h.names := hname' hir ▸ hnot.2
    show (P.region i).Apart r
    rw [hvir' hir]
    simp only at hr
    split at hr
    · exact hk.unasked i (hname' hir ▸ hi') hnot' r hr
    · rcases List.mem_cons.1 hr with rfl | hr
      · exact hold hir hi'
      · exact hk.unasked i (hname' hir ▸ hi') hnot' r hr

/-- `shm_get` keeps the invariant. -/
theorem Kept.shm_get (hk : Kept h)
    (hon : h.OnPage (.shm_get name length junk)) (hr : refused name length = false) (hva : va ≠ 0)
    (hg : h.mem.shm_get h.proc name junk = .ok (va, m, P)) :
    Kept
      { mem := m
        proc := P
        names := name :: h.names
        ranges := if name ∈ h.names then h.ranges else ⟨va, PGSIZE⟩ :: h.ranges } := by
  obtain ⟨hshort, hal⟩ := hon
  rcases shm_get_placed hk.size hva hg with ⟨i, hi, rfl, rfl, rfl⟩ |
    ⟨hnone, hlt, rfl, ref, d, phys, stored, rfl, hstored⟩
  · split
    · exact hk.asked
    next hnew =>
    have hd : name ≠ DNE := by
      have := take_ne_of_not_refused hr
      rwa [List.take_of_length_le hshort.le] at this
    exact hk.known (nameFind_eq hshort hi) hd hnew
  · have hname : stored = name := by
      rcases hstored with rfl | rfl
      · exact List.take_of_length_le (Nat.le_of_lt_succ hshort)
      · exact List.take_of_length_le hshort.le
    rw [hname, PGROUNDUP_eq (hal hnone) hk.size]
    exact hk.grown (shm_get_countsUsed hk.size hva hr hk.used hg) hlt (hal hnone)

/-- No call of the process is wild. -/
theorem Kept.call_ne_wild (hk : Kept h) (c : Request) : h.call c ≠ .error .wild := by
  cases c with
  | sbrk n => exact ((tame_growproc ..).bind fun _ _ => tame_ok _).ne_wild
  | shm_get name length junk =>
    refine (Tame.bind ?_ fun _ _ => tame_ok _).ne_wild
    unfold sys_shm_get
    split
    · exact tame_ok _
    · exact tame_shm_get hk.used name junk

/-- One call keeps the invariant. -/
theorem Kept.step {c : Request} (hk : Kept h) (hon : h.OnPage c) (hst : Step h c h') : Kept h' := by
  cases hst with
  | wild _ hw => exact absurd hw (hk.call_ne_wild c)
  | ok hv hc =>
    cases c with
    | sbrk n =>
      obtain ⟨⟨b, m, P⟩, hg, hc⟩ := bind_eq_ok.1 hc
      cases b with
      | false => cases hc
      | true =>
        cases hc
        exact hk.sbrk hv hg
    | shm_get name length junk =>
      obtain ⟨⟨va, m, P⟩, hg, hc⟩ := bind_eq_ok.1 hc
      simp only [Except.ok.injEq] at hc
      split at hc
      · next hva =>
        cases hc
        unfold sys_shm_get at hg
        split at hg
        · cases hg
          exact absurd rfl hva
        · next hr => exact hk.shm_get hon (by simpa using hr) hva hg
      · cases hc

end

/-! ## The theorem -/

/-- **Heap and shared memory.** In every sequence of successful `sbrk` and `shm_get` calls that meet
`OnPage`, what was handed out is disjoint and inside the process. -/
theorem heap_separate {h : Heap} (hr : (system.restrict OnPage).Reach h) : Separate h := by
  refine Kept.separate (hr.invariant (I := Kept) (fun h hs => ?_) fun h c h' hk hst => ?_)
  · exact hs.kept
  · exact hk.step hst.1 hst.2

/-- The successful calls, evaluated. -/
def next (h : Heap) (c : Request) : Option Heap :=
  if c.Valid then
    match h.call c with
    | .ok r => r
    | .error _ => none
  else none

/-- `next` takes steps of the heap. -/
theorem step_of_next (hn : h.next c = some h') : Step h c h' := by
  unfold next at hn
  split at hn
  · next hv =>
    split at hn
    · next hc => exact .ok hv (hn ▸ hc)
    · cases hn
  · cases hn

/-- A process of the given size, without pages, and frames enough. -/
def sized (sz : Nat) : Heap where
  mem :=
    { freelist := [1000, 1001, 1002, 1003]
      page := fun _ _ => 0
      shm_arr := shm_init
      used := 0
      oom := false }
  proc :=
    { sz
      pgdir := { frame := 900, pde := fun _ => some { frame := 901, pte := fun _ => .zero } }
      kstack := 902
      parent := none
      zombie := false
      shm_name := fun _ => DNE
      shm_vir := fun _ => 0
      shm_phys := fun _ => 0 }
  names := []
  ranges := []

theorem start_sized (hsz : sz < KERNBASE) : Start (sized sz) where
  size := hsz
  settled := ⟨fun _ h => absurd rfl h, fun _ _ _ h => absurd rfl h⟩
  used := show (0 : Int) = (Finset.univ.filter fun i => (shm_init i).Named).card by decide
  names := rfl
  ranges := rfl

/-- A run with memory for every call. -/
theorem reach_of_next (hr : ((System.ofNext Start next).restrict G).Reach h) :
    (system.restrict G).Reach h := by
  refine hr.mono ?_ ?_
  · exact fun _ hi => hi
  · exact fun _ _ _ hst => ⟨hst.1, step_of_next hst.2⟩

/-- A heap below and above a shared page. -/
theorem heap_separate_around : ∃ h, (system.restrict OnPage).Reach h ∧
    h.ranges = [⟨12288, 100⟩, ⟨8192, 4096⟩, ⟨4096, 4096⟩] ∧ Separate h := by
  obtain ⟨h, hr, hranges⟩ := (System.ofNext Start next).exists_reach OnPage next (sized 4096)
    [.sbrk 4096, .shm_get [97] 1 0, .sbrk 100, .shm_get [97] 1 0]
    (Q := fun h => h.ranges = [⟨12288, 100⟩, ⟨8192, 4096⟩, ⟨4096, 4096⟩])
    rfl (start_sized (by decide)) (by decide +kernel)
  exact ⟨h, reach_of_next hr, hranges, heap_separate (reach_of_next hr)⟩

/-- A process of one byte gets a shared page, which is the one at 4096, and then 4095 bytes from
4097 on. -/
theorem heap_shared_overlap : ∃ h, system.Reach h ∧ ¬ Separate h := by
  obtain ⟨h, hr, hranges⟩ := (System.ofNext Start next).exists_reach (fun _ _ => True) next
    (sized 1) [.shm_get [97] 1 0, .sbrk 4095]
    (Q := fun h => h.ranges = [⟨4097, 4095⟩, ⟨4096, 4096⟩])
    rfl (start_sized (by decide)) (by decide +kernel)
  refine ⟨h, (reach_of_next hr).of_restrict, ?_⟩
  rintro ⟨hd, -⟩
  rw [hranges, List.pairwise_pair] at hd
  have h1 : 4097 ∈ Range.addrs ⟨4097, 4095⟩ := ⟨le_rfl, by decide⟩
  have h2 : 4097 ∈ Range.addrs ⟨4096, 4096⟩ := ⟨by decide, by decide⟩
  exact Set.disjoint_left.1 hd h1 h2

end Heap

end Msboss.Vm
