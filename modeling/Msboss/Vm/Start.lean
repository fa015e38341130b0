import Msboss.Vm.Attach
import Msboss.Vm.KernelMap

/-!
# Runs of the first process

The lemmas so far say what has happened when a call succeeds. To show runs, this module goes the
other way, from a state to its successor: `boot` succeeds on a long enough free list
(`exists_booted`), and leaves the first process with a page table whose other entries are empty, so
that the calls it then makes (`solo`) can be followed step by step.
-/

namespace Msboss.Vm

open Function Memory PageDir

/-! ## One page -/

section
variable {m : Memory} {d : PageDir} {w u : Bool} {va pa : Nat}

/-- `mappages` on a page whose page table is there and whose entry is empty. -/
theorem mappages_empty (hva : va % PGSIZE = 0) (hlt : va < 2 ^ 32) (h : d.pte va = some .zero) :
    m.mappages d va PGSIZE pa w u =
      .ok (true, m, d.setPte va { frame := pa / PGSIZE, p := true, w, u }) := by
  obtain ⟨t, ht, -⟩ := Option.map_eq_some_iff.1 h
  have hw : m.walkpgdir d va = (true, m, d) := by simp only [walkpgdir, ht]
  rw [mappages_one hva hlt]
  simp only [mapLoop, hw, h, Option.any_some, Pte.zero, Bool.false_eq_true, if_false]

/-- Pages of one page table have different entries. -/
theorem pte_setPte_ne (hne : vp ≠ vq) (hp : vp < 2 ^ 20) (hq : vq < 2 ^ 20) (e : Pte) :
    (d.setPte (vp * PGSIZE) e).pte (vq * PGSIZE) = d.pte (vq * PGSIZE) := by
  unfold setPte
  split
  · rfl
  next t ht =>
  simp only [pte]
  rcases eq_or_ne (PDX (vq * PGSIZE)) (PDX (vp * PGSIZE)) with h1 | h1
  · have h2 : PTX (vq * PGSIZE) ≠ PTX (vp * PGSIZE) := fun h2 =>
      hne (page_eq hp hq h1.symm h2.symm)
    rw [h1, ht, update_self]
    simp [h2]
  · rw [update_of_ne h1]

theorem pte_setPte_self (h : d.pte a = some x) : (d.setPte a e).pte a = some e := by
  obtain ⟨t, ht, -⟩ := Option.map_eq_some_iff.1 h
  simp [setPte, pte, ht]

end

/-! ## Boot -/

/-- A state in which only the first process runs. -/
def solo (kp : PageDir) (m : Memory) (P : Proc) : State where
  mem := m
  kpgdir := kp
  proc := update (fun _ => none) 0 (some P)

/-- The pages of the first page table from `n` on are not mapped. -/
def PageDir.EmptyFrom (d : PageDir) (n : Nat) : Prop :=
  ∀ vp, n ≤ vp → vp < NPTENTRIES → d.pte (vp * PGSIZE) = some .zero

/-- `mappages` on the first page, without a page table for it. -/
theorem mappages_first {m : Memory} (w u : Bool)
    (pa : Nat) (h0 : d.pde 0 = none) (hfl : m.freelist = f :: fs) :
    ∃ d', m.mappages d 0 PGSIZE pa w u = .ok (true, { m with freelist := fs }, d') ∧
      d'.EmptyFrom 1 := by
  let d1 : PageDir := { d with
    pde := update d.pde 0 (some { frame := f, pte := fun _ => .zero }) }
  have hpx : PDX 0 = 0 := rfl
  have hw : m.walkpgdir d 0 = (true, { m with freelist := fs }, d1) := by
    simp only [walkpgdir, hpx, h0, kalloc, hfl]
    rfl
  have hpte (vp : Nat) (hvp : vp < NPTENTRIES) : d1.pte (vp * PGSIZE) = some .zero := by
    have : PDX (vp * PGSIZE) = 0 := by
      rw [PageDir.PDX_page, Nat.div_eq_of_lt (show vp < 1024 from hvp)]
      rfl
    simp [pte, d1, this]
  have h00 : d1.pte 0 = some .zero := hpte 0 (by decide)
  refine ⟨d1.setPte 0 { frame := pa / PGSIZE, p := true, w, u }, ?_, fun vp h1 h2 => ?_⟩
  · rw [mappages_one (by decide) (by decide)]
    simp only [mapLoop, hw, h00, Option.any_some, Pte.zero, Bool.false_eq_true, if_false]
  · have hne : 0 ≠ vp := by omega
    have hlt : vp < 2 ^ 20 := h2.trans (by decide)
    exact (pte_setPte_ne hne (by decide) hlt _).trans (hpte vp h2)

/-- The frames that `exists_booted` starts with. -/
def frames : List Frame := List.range' 1024 4096

theorem usable_of_mem_frames {f : Nat} (h : f ∈ frames) : Usable f := by
  obtain ⟨h1, h2⟩ := List.mem_range'_1.1 h
  show 0x80124fdc ≤ f * 4096 + 0x80000000 ∧ f * 4096 < 0xE000000
  omega

theorem not_usable_zero : ¬ Usable 0 := by
  simp [Usable, END, KERNBASE]

/-- `kfree` accepts a usable frame. -/
theorem kfree_usable {f : Nat} (h : Usable f) (m : Memory) : ∃ m',
    m.kfree (f * PGSIZE) = .ok m' := by
  have h1 : END ≤ f * PGSIZE + KERNBASE := h.1
  have h2 : f * PGSIZE < PHYSTOP := h.2
  have hok : ¬ (p2v (f * PGSIZE) % PGSIZE ≠ 0 ∨ p2v (f * PGSIZE) < END ∨
      v2p (p2v (f * PGSIZE)) ≥ PHYSTOP) := by
    simp only [p2v, v2p, END, KERNBASE, PHYSTOP, PGSIZE] at *
    omega
  unfold kfree
  dsimp only
  rw [if_neg hok]
  exact ⟨_, rfl⟩

/-- There is a boot, and it leaves free frames and an empty page table. -/
theorem exists_booted : ∃ kp m ks d, Booted (solo kp m (initproc ks d)) ∧ m.shm_arr = shm_init ∧
    m.used = 0 ∧ m.oom = false ∧ m.freelist.Nodup ∧ (∀ f ∈ m.freelist, Usable f) ∧
    1028 ≤ m.freelist.length ∧ d.EmptyFrom 1 := by
  let m0 : Memory :=
    { freelist := frames, page := fun _ _ => 0, shm_arr := shm_init, used := 0, oom := false }
  have hlen : m0.freelist.length = 4096 := List.length_range'
  have htables : KTABLES = 64 := rfl
  obtain ⟨m1, kp, hk1, hl1, -⟩ := setupkvm_room (m := m0) (by omega)
  obtain ⟨hs1, hu1, -, ho1, hc1, -⟩ := setupkvm_some hk1
  obtain ⟨ks, fs, hf1⟩ := List.exists_cons_of_length_pos (l := m1.freelist) (by omega)
  have hk : m1.kalloc = (some ks, { m1 with freelist := fs }) := by
    simp only [kalloc, hf1]
  rw [hf1, List.length_cons] at hl1
  obtain ⟨m2, d, hk2, hl2, h512⟩ := setupkvm_room (m := { m1 with freelist := fs }) (by
    show KTABLES < fs.length
    omega)
  obtain ⟨hs2, hu2, -, ho2, hc2, -⟩ := setupkvm_some hk2
  dsimp only at hl2 hc2
  obtain ⟨f, fs2, hf2⟩ := List.exists_cons_of_length_pos (l := m2.freelist) (by omega)
  rw [hf2, List.length_cons] at hl2
  obtain ⟨g, fs3, hf3⟩ := List.exists_cons_of_length_pos (l := fs2) (by omega)
  rw [hf3, List.length_cons] at hl2
  have hk3 : m2.kalloc = (some f, { m2 with freelist := fs2 }) := by
    simp only [kalloc, hf2]
  obtain ⟨d', hmap, hempty⟩ := mappages_first (m := fill { m2 with freelist := fs2 } f 0)
    true true (f * PGSIZE) (h512 0 (by decide)) hf3
  let m4 : Memory := { fill { m2 with freelist := fs2 } f 0 with
    freelist := fs3
    page := update (fill { m2 with freelist := fs2 } f 0).page f fun _ => 0 }
  -- What is left is a part of what was there.
  have hcount (x : Frame) : fs3.count x ≤ frames.count x := by
    have h1 := hc1 x
    have h2 := hc2 x
    rw [hf1, List.count_cons] at h1
    rw [hf2, hf3, List.count_cons, List.count_cons] at h2
    have : m0.freelist.count x = frames.count x := rfl
    omega
  refine ⟨kp, m4, ks, d', ⟨frames, fun _ _ => 0, [], List.nodup_range', fun f hf =>
    usable_of_mem_frames hf, ?_⟩, hs2.trans hs1, hu2.trans hu1, ho2.trans ho1,
    List.nodup_iff_count_le_one.2 fun x =>
      (hcount x).trans (List.nodup_iff_count_le_one.1 List.nodup_range' x),
    fun x hx => ?_, show 1028 ≤ fs3.length by omega, hempty⟩
  · refine bind_eq_ok.2 ⟨_, hk1, ?_⟩
    simp only [hk]
    refine bind_eq_ok.2 ⟨_, hk2, ?_⟩
    refine bind_eq_ok.2 ⟨(_, d'), ?_, rfl⟩
    unfold inituvm
    rw [if_neg (by decide)]
    simp only [hk3]
    exact bind_eq_ok.2 ⟨_, hmap, rfl⟩
  · have hx : x ∈ frames := List.count_pos_iff.1 ((List.count_pos_iff.2 hx).trans_le (hcount x))
    exact usable_of_mem_frames hx

/-! ## Calls -/

section
variable {kp : PageDir} {m m' : Memory} {P P' : Proc} {name : List UInt8} {junk : Nat}

/-- A call of the only process. -/
@[simp] theorem solo_set (kp : PageDir) (m m' : Memory) (P P' : Proc) :
    (solo kp m P).set m' 0 (some P') = solo kp m' P' := by
  simp [solo, State.set]

/-- The calls of the first process. -/
theorem solo_outcome (ha : a.pid = 0) (hoom : m.oom = false) (hz : P.zombie = false) :
    (solo kp m P).outcome a = (solo kp m P).call P a := by
  have hP : (solo kp m P).proc a.pid = some P := by rw [ha]; simp [solo]
  have hm : ({ solo kp m P with mem := { (solo kp m P).mem with oom := false } } : State) =
      solo kp m P := by
    cases m
    cases hoom
    rfl
  unfold State.outcome
  rw [hP]
  simp only [hz, Bool.false_eq_true, if_false, hm]

/-- What a process needs to get one more page. -/
structure Growable (m : Memory) (P : Proc) (f : Frame) (fs : List Frame) : Prop where
  free : m.freelist = f :: fs
  size : P.sz + PGSIZE < KERNBASE
  empty : P.pgdir.pte (PGROUNDUP P.sz) = some .zero

/-- The directory with the page at the end mapped to the frame. -/
def Proc.mapNext (P : Proc) (f : Frame) : PageDir :=
  P.pgdir.setPte (PGROUNDUP P.sz) { frame := f, p := true, w := true, u := true }

/-- The next page is mapped if its table is there. -/
theorem mappages_next {f : Frame} (hsz : P.sz + PGSIZE < KERNBASE)
    (he : P.pgdir.pte (PGROUNDUP P.sz) = some .zero) :
    m.mappages P.pgdir (PGROUNDUP P.sz) PGSIZE (f * PGSIZE) true true =
      .ok (true, m, P.mapNext f) := by
  have hlt : PGROUNDUP P.sz < 2 ^ 32 := ((PGROUNDUP_lt hsz).trans hsz).trans (by decide)
  rw [mappages_empty (PGROUNDUP_mod _) hlt he, Nat.mul_div_cancel f (by decide)]
  rfl

/-- `shm_get` of a new name. -/
theorem shm_get_new (junk : Nat) (hg : Growable m P f fs)
    (hname : P.procSHM_nameFind name = none) (href : P.procSHM_findFree = some ref)
    (hfind : m.shm_find name = none) (hused : m.used < SHM_MAXNUM) (hi : m.shm_findFree = some i) :
    m.shm_get P name junk = .ok (PGROUNDUP P.sz,
      (fill { m with freelist := fs } f 0).enrol i (strncpy name 16) (f * PGSIZE),
      (P.within ref (P.mapNext f) (f * PGSIZE)).setName ref (safestrcpy name 16)) := by
  have hsz := (Nat.le_add_right _ _).trans_lt hg.size
  have hk : m.kalloc = (some f, { m with freelist := fs }) := by
    simp only [kalloc, hg.free]
  have hloop : allocshmLoop P.sz (P.sz + PGSIZE) 0 1 m P (PGROUNDUP P.sz) junk =
      .ok (some (f * PGSIZE), fill { m with freelist := fs } f 0,
        { P with pgdir := P.mapNext f }, PGROUNDUP P.sz + PGSIZE) := by
    simp only [allocshmLoop, if_true, hk]
    exact bind_eq_ok.2 ⟨_, mappages_next hg.size hg.empty, rfl⟩
  have halloc : m.shm_alloc P 4096 ref 0 junk = .ok (true,
      fill { m with freelist := fs } f 0, P.within ref (P.mapNext f) (f * PGSIZE)) := by
    unfold shm_alloc
    simp only [grow_toNat hsz, show (4096 : Int) > 0 by decide, if_true]
    have hnz : P.sz + PGSIZE ≠ 0 := by simp only [PGSIZE]; omega
    refine bind_eq_ok.2 ⟨(P.sz + PGSIZE, fill { m with freelist := fs } f 0,
      Proc.setMap { P with pgdir := P.mapNext f } ref (PGROUNDUP P.sz) (f * PGSIZE)), ?_, ?_⟩
    · unfold allocshm
      rw [if_neg (by have := hg.size; omega), if_neg (by omega)]
      simp only [one_turn hg.size]
      refine bind_eq_ok.2 ⟨_, hloop, ?_⟩
      simp only [recorded_va hg.size]
    · split
      · next h => exact absurd (congrArg Prod.fst h) hnz
      · next h => cases h; rfl
  unfold shm_get
  simp only [hname, href, hfind, hused, if_true]
  refine bind_eq_ok.2 ⟨_, halloc, ?_⟩
  have hfree : (fill { m with freelist := fs } f 0).shm_findFree = some i := hi
  simp only [hfree]
  simp [Proc.within, Proc.setName, Proc.setMap, enrol, setShm]

/-- `shm_get` of a region that is there. -/
theorem shm_get_attach {f : Frame} {ref i : Slot} (junk : Nat) (hf : 0 < f)
    (hsize : P.sz + PGSIZE < KERNBASE) (hempty : P.pgdir.pte (PGROUNDUP P.sz) = some .zero)
    (hname : P.procSHM_nameFind name = none) (href : P.procSHM_findFree = some ref)
    (hfind : m.shm_find name = some i) (hphys : (m.shm_arr i).shmPhys = f * PGSIZE) :
    m.shm_get P name junk = .ok (PGROUNDUP P.sz, m.addAccess i 1,
      (P.within ref (P.mapNext f) junk).setName ref (strncpy name 16)) := by
  have hsz := (Nat.le_add_right _ _).trans_lt hsize
  have h0 : f * PGSIZE ≠ 0 := (Nat.mul_pos hf (by decide)).ne'
  have hloop : allocshmLoop P.sz (P.sz + PGSIZE) (f * PGSIZE) 1 m P (PGROUNDUP P.sz) junk =
      .ok (some junk, m, { P with pgdir := P.mapNext f }, PGROUNDUP P.sz + PGSIZE) := by
    simp only [allocshmLoop, if_neg h0]
    exact bind_eq_ok.2 ⟨_, mappages_next hsize hempty, rfl⟩
  have halloc : m.shm_alloc P 4096 ref (f * PGSIZE) junk =
      .ok (true, m, P.within ref (P.mapNext f) junk) := by
    unfold shm_alloc
    simp only [grow_toNat hsz, show (4096 : Int) > 0 by decide, if_true]
    have hnz : P.sz + PGSIZE ≠ 0 := by simp only [PGSIZE]; omega
    refine bind_eq_ok.2 ⟨(P.sz + PGSIZE, m,
      Proc.setMap { P with pgdir := P.mapNext f } ref (PGROUNDUP P.sz) junk), ?_, ?_⟩
    · unfold allocshm
      rw [if_neg (by omega), if_neg (by omega)]
      simp only [one_turn hsize]
      refine bind_eq_ok.2 ⟨_, hloop, ?_⟩
      simp only [recorded_va hsize]
    · split
      · next h => exact absurd (congrArg Prod.fst h) hnz
      · next h => cases h; rfl
  unfold shm_get
  simp only [hname, href, hfind, hphys]
  refine bind_eq_ok.2 ⟨_, halloc, ?_⟩
  simp [Proc.within, Proc.setName, Proc.setMap]

/-- `growproc` by a page. -/
theorem growproc_page (hg : Growable m P f fs) :
    m.growproc P 4096 = .ok (true, fill { m with freelist := fs } f 0,
      { P with pgdir := P.mapNext f, sz := P.sz + PGSIZE }) := by
  have hsz := (Nat.le_add_right _ _).trans_lt hg.size
  have hk : m.kalloc = (some f, { m with freelist := fs }) := by
    simp only [kalloc, hg.free]
  have hnz : P.sz + PGSIZE ≠ 0 := by simp only [PGSIZE]; omega
  unfold growproc
  simp only [grow_toNat hsz, show (4096 : Int) > 0 by decide, if_true]
  refine bind_eq_ok.2 ⟨(P.sz + PGSIZE, fill { m with freelist := fs } f 0, P.mapNext f),
    ?_, ?_⟩
  · unfold allocuvm
    rw [if_neg (by have := hg.size; omega), if_neg (by omega)]
    simp only [one_turn hg.size, allocLoop, hk]
    exact bind_eq_ok.2 ⟨_, mappages_next hg.size hg.empty, rfl⟩
  · split
    · next h => exact absurd (congrArg Prod.fst h) hnz
    · next h => cases h; rfl

/-- Mapping the next page, when the process ends with page `n` of the first page table. -/
theorem mapNext_pte (hsz : P.sz = n * PGSIZE) (hn : n < NPTENTRIES)
    (he : P.pgdir.EmptyFrom n) (f : Frame) :
    (P.mapNext f).pte (n * PGSIZE) = some { frame := f, p := true, w := true, u := true } ∧
      (∀ vp < NPTENTRIES, vp ≠ n → (P.mapNext f).pte (vp * PGSIZE) = P.pgdir.pte (vp * PGSIZE)) ∧
      (P.mapNext f).EmptyFrom (n + 1) := by
  have hlt (vp : Nat) (h : vp < NPTENTRIES) : vp < 2 ^ 20 := h.trans (by decide)
  have hup : PGROUNDUP P.sz = n * PGSIZE := by
    rw [hsz]
    simp only [PGROUNDUP, NPTENTRIES, PGSIZE] at *
    omega
  have hother (vp : Nat) (h : vp < NPTENTRIES) (hne : vp ≠ n) :
      (P.mapNext f).pte (vp * PGSIZE) = P.pgdir.pte (vp * PGSIZE) := by
    rw [Proc.mapNext, hup]
    exact pte_setPte_ne hne.symm (hlt n hn) (hlt vp h) _
  refine ⟨?_, hother, fun vp h1 h2 => ?_⟩
  · rw [Proc.mapNext, hup]
    exact pte_setPte_self (he n le_rfl hn)
  · rw [hother vp h2 (by omega)]
    exact he vp (by omega) h2

/-- A process that ends with page `n` of the first page table can grow. -/
theorem growable (hfl : m.freelist = f :: fs)
    (hsz : P.sz = n * PGSIZE) (hn : n < NPTENTRIES) (he : P.pgdir.EmptyFrom n) :
    Growable m P f fs := by
  refine ⟨hfl, ?_, ?_⟩
  · rw [hsz]
    simp only [NPTENTRIES, KERNBASE, PGSIZE] at *
    omega
  · have hup : PGROUNDUP P.sz = n * PGSIZE := by
      rw [hsz]
      simp only [PGROUNDUP, NPTENTRIES, PGSIZE] at *
      omega
    rw [hup]
    exact he n le_rfl hn

/-- A successful `shm_get` as a step. -/
theorem solo_shm_get (hoom : m.oom = false) (hz : P.zombie = false)
    (hr : refused name length = false) (h : m.shm_get P name junk = .ok (va, m', P'))
    (hva : va ≠ 0) :
    (solo kp m P).outcome (.shm_get 0 name length junk) = some (.ok (true, solo kp m' P')) := by
  rw [solo_outcome rfl hoom hz]
  refine congrArg some (bind_eq_ok.2 ⟨(va, m', P'), ?_, ?_⟩)
  · rw [sys_shm_get, hr]
    exact h
  · simp only [solo_set, ne_eq, hva, not_false_eq_true, decide_true]

/-- `growproc` as a step. -/
theorem solo_growproc (hoom : m.oom = false) (hz : P.zombie = false)
    (h : m.growproc P n = .ok (b, m', P')) :
    (solo kp m P).outcome (.growproc 0 n) = some (.ok (b, solo kp m' P')) := by
  rw [solo_outcome rfl hoom hz]
  refine congrArg some (bind_eq_ok.2 ⟨(b, m', P'), h, ?_⟩)
  simp only [solo_set]

/-- A successful `shm_rem` as a step. -/
theorem solo_shm_rem (hoom : m.oom = false) (hz : P.zombie = false)
    (hr : refused name length = false) (h : m.shm_rem P name = .ok (1, m', P')) :
    (solo kp m P).outcome (.shm_rem 0 name length) = some (.ok (true, solo kp m' P')) := by
  rw [solo_outcome rfl hoom hz]
  refine congrArg some (bind_eq_ok.2 ⟨(1, m', P'), ?_, ?_⟩)
  · rw [sys_shm_rem, hr]
    exact h
  · simp only [solo_set, decide_true]

end

/-! ## A region is created -/

/-- The first process has created the region `name` with the frame `f`. -/
structure Created (name : List UInt8) (m : Memory) (P : Proc) (f : Frame) : Prop where
  shm_arr : m.shm_arr = update shm_init 0
    { name := strncpy name 16, numAccess := 1, shmPhys := f * PGSIZE }
  used : m.used = 1
  oom : m.oom = false
  zombie : P.zombie = false
  sz : P.sz = 2 * PGSIZE
  shm_name : P.shm_name = update (fun _ => DNE) 0 (safestrcpy name 16)
  shm_vir : P.shm_vir = update (fun _ => 0) 0 (1 * PGSIZE)
  shm_phys : P.shm_phys = update (fun _ => 0) 0 (f * PGSIZE)
  page : P.pgdir.pte (1 * PGSIZE) = some { frame := f, p := true, w := true, u := true }
  empty : P.pgdir.EmptyFrom 2

/-- The first call of the first process creates a region. -/
theorem exists_created (hr : refused name length = false) (hn : name.take 16 ≠ DNE) :
    ∃ kp m0 P0 m P f fs, Booted (solo kp m0 P0) ∧ m0.freelist = f :: fs ∧
      (solo kp m0 P0).outcome (.shm_get 0 name length 0) = some (.ok (true, solo kp m P)) ∧
      Created name m P f ∧ m.freelist = fs ∧ (f :: fs).Nodup ∧ 0 < f ∧ 3 ≤ fs.length := by
  obtain ⟨kp, m0, ks, d, hb, hshm, hused, hoom, hnd, husable, hlen, hempty⟩ := exists_booted
  obtain ⟨f, fs, hfl⟩ := List.exists_cons_of_length_pos (l := m0.freelist) (by omega)
  have hsz : (initproc ks d).sz = 1 * PGSIZE := rfl
  have hup : PGROUNDUP (initproc ks d).sz = 1 * PGSIZE := show PGROUNDUP PGSIZE = _ by decide
  have hg : Growable m0 (initproc ks d) f fs := growable hfl hsz (by decide) hempty
  have hne : (DNE.take 16 == name.take 16) = false := beq_false_of_ne fun h => hn h.symm
  have hname : (initproc ks d).procSHM_nameFind name = none := by
    refine List.find?_eq_none.2 fun i _ => ?_
    exact ne_true_of_eq_false hne
  have hfind : m0.shm_find name = none := by
    refine List.find?_eq_none.2 fun i _ => ?_
    rw [hshm]
    exact ne_true_of_eq_false hne
  have href : (initproc ks d).procSHM_findFree = some 0 := rfl
  have hi : m0.shm_findFree = some 0 := by
    rw [shm_findFree, shm_find, hshm]
    rfl
  have hget := shm_get_new 0 hg hname href hfind (by rw [hused]; decide) hi
  obtain ⟨hpage, -, hempty'⟩ := mapNext_pte hsz (by decide) hempty f
  refine ⟨kp, m0, _, _, _, f, fs, hb, hfl,
    solo_shm_get hoom rfl hr hget (by rw [hup]; decide), ?_, rfl, hfl ▸ hnd,
    Nat.pos_of_ne_zero fun h => not_usable_zero (h ▸ husable f (by rw [hfl]; exact .head _)), ?_⟩
  · refine ⟨?_, ?_, hoom, rfl, rfl, rfl, ?_, rfl, hpage, hempty'⟩
    · show update m0.shm_arr 0 _ = _
      rw [hshm]
      rfl
    · show m0.used + 1 = 1
      rw [hused]
      rfl
    · rw [← hup]
      rfl
  · rw [hfl, List.length_cons] at hlen
    omega

/-- A name of sixteen bytes: the longest that the calls accept. -/
def longName : List UInt8 := .replicate 16 97

/-- The first process has created the region `longName` and attached to it, since it did not find it
in its own table. -/
structure Attached (m : Memory) (P : Proc) (f : Frame) : Prop where
  shm_arr : m.shm_arr = update shm_init 0
    { name := longName, numAccess := 2, shmPhys := f * PGSIZE }
  oom : m.oom = false
  zombie : P.zombie = false
  sz : P.sz = 3 * PGSIZE
  shm_name : P.shm_name =
    update (update (fun _ => DNE) 0 (safestrcpy longName 16)) 1 longName
  shm_vir : P.shm_vir = update (update (fun _ => 0) 0 (1 * PGSIZE)) 1 (2 * PGSIZE)
  shm_phys : P.shm_phys = update (update (fun _ => 0) 0 (f * PGSIZE)) 1 0
  page : P.pgdir.pte (2 * PGSIZE) = some { frame := f, p := true, w := true, u := true }
  empty : P.pgdir.EmptyFrom 3

/-- The name of sixteen bytes is attached again. -/
theorem Created.again (h : Created longName m P f) (kp : PageDir) (hf : 0 < f) :
    ∃ m' P', (solo kp m P).outcome (.shm_get 0 longName 16 0) = some (.ok (true, solo kp m' P')) ∧
      Attached m' P' f ∧ m'.freelist = m.freelist := by
  have hup : PGROUNDUP P.sz = 2 * PGSIZE := by rw [h.sz]; decide
  have hname : P.procSHM_nameFind longName = none := by
    rw [Proc.procSHM_nameFind, h.shm_name]
    decide +kernel
  have href : P.procSHM_findFree = some 1 := by
    rw [Proc.procSHM_findFree, Proc.procSHM_nameFind, h.shm_name]
    decide +kernel
  have hfind : m.shm_find longName = some 0 := by
    rw [shm_find, h.shm_arr]
    simp only [update_apply, apply_ite Shm.name]
    decide +kernel
  have hphys : (m.shm_arr 0).shmPhys = f * PGSIZE := by rw [h.shm_arr, update_self]
  obtain ⟨-, hsize, hempty⟩ := growable (m := { m with freelist := [0] })
    rfl h.sz (by decide) h.empty
  have hget := shm_get_attach 0 hf hsize hempty hname href hfind hphys
  obtain ⟨hpage, -, hempty'⟩ := mapNext_pte h.sz (by decide) h.empty f
  refine ⟨_, _, solo_shm_get h.oom h.zombie (by decide) hget (by rw [hup]; decide), ?_, rfl⟩
  refine ⟨?_, h.oom, h.zombie, ?_, ?_, ?_, ?_, hpage, hempty'⟩
  · funext j
    rw [addAccess_apply, h.shm_arr]
    rcases eq_or_ne j 0 with rfl | hj
    · simp only [if_true, update_self]
      rfl
    · simp only [if_neg hj, update_of_ne hj]
  · show P.sz + PGSIZE = 3 * PGSIZE
    rw [h.sz]
    rfl
  · rw [← h.shm_name]
    rfl
  · rw [← h.shm_vir, ← hup]
    rfl
  · rw [← h.shm_phys]
    rfl

end Msboss.Vm
