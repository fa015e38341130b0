import Msboss.Vm.Heap
import Msboss.Vm.Start
import Msboss.Lib.Table

/-!
# What `shm_get` leaves behind

`shm_get` in any state at all, sound or not: case by case what it does to the process that calls it
(`Tried`, `Asked`). Two things follow.

A call that fails should leave everything as it was. It does so where it fails for want of a slot,
an entry or addresses; where it finds no memory, it takes the page of slot 0 from the process
instead, whatever that page is (`failed_get_iff`). It also returns 0, which is to be read as a
failure, from a success where that is the address of the page.

And a name should stand for one address. It does (`get_again`) unless the name is longer than the
fifteen bytes that a process keeps of a name it has created, a longer name that begins with it is
put in front of it, or the slot is lost in the way above.
-/

namespace Msboss.Vm

open Function Memory

/-- The size that `shm_get` asks for. -/
def Proc.szMore (P : Proc) : Nat := (P.sz + PGSIZE) % 2 ^ 32

/-- The address that `shm_get` has mapped; 0 for a new frame. -/
def Memory.target (m : Memory) (name : List UInt8) : Nat :=
  (m.shm_find name).elim 0 fun i => (m.shm_arr i).shmPhys

/-- There is no frame for the new page. -/
structure Starved (m : Memory) (P : Proc) (shmMap : Nat) : Prop where
  new : shmMap = 0
  free : m.freelist = []
  size : P.sz ≤ P.szMore

/-- What `shm_alloc(4096, ref, shmMap)` can do. -/
inductive Tried (m : Memory) (P : Proc) (ref : Slot) (shmMap : Nat) : Bool → Memory → Proc → Prop
  /-- No addresses. -/
  | refused : KERNBASE ≤ P.szMore → Tried m P ref shmMap false m P
  /-- No memory, and no page table where slot 0 says its page is. -/
  | spared : P.szMore < KERNBASE → Starved m P shmMap → P.pgdir.pte (P.shm_vir 0) = none →
      Tried m P ref shmMap false { m with oom := true } P
  /-- No memory, and slot 0 is given up. -/
  | spoiled {m' : Memory} {P' : Proc} : P.szMore < KERNBASE → Starved m P shmMap →
      P.pgdir.pte (P.shm_vir 0) ≠ none → P'.sz = P.szLess →
      P'.shm_name = update P.shm_name 0 DNE →
      P'.shm_vir = update P.shm_vir 0 0 → Tried m P ref shmMap false m' P'
  | taken {m' : Memory} {P' : Proc} : P.szMore < KERNBASE → ¬ Starved m P shmMap →
      m'.shm_arr = m.shm_arr → m'.used = m.used → P'.shm_name = P.shm_name →
      (∀ j ≠ ref, P'.shm_vir j = P.shm_vir j) → Tried m P ref shmMap true m' P'

section
variable {m m' : Memory} {P P' : Proc} {ref : Slot} {shmMap junk : Nat} {b : Bool}

theorem szMore_toNat (P : Proc) : (((P.sz : Int) + 4096) % 2 ^ 32).toNat = P.szMore := by
  simp only [Proc.szMore, PGSIZE]
  omega

theorem szMore_eq (h : P.sz < KERNBASE) : P.szMore = P.sz + PGSIZE := by
  simp only [Proc.szMore, KERNBASE, PGSIZE] at *
  omega

/-- What `allocshm` does when it finds no memory. -/
theorem deallocshm_starved {r : Option Nat} (hlt : newsz < oldsz)
    (h : m.deallocshm P oldsz newsz 0 0 = .ok (r, m', P')) :
    P.pgdir.pte (P.shm_vir 0) = none ∧ m' = m ∧ P' = P ∨
      P.pgdir.pte (P.shm_vir 0) ≠ none ∧ P'.sz = P.szLess ∧ P'.shm_name = update P.shm_name 0 DNE ∧
        P'.shm_vir = update P.shm_vir 0 0 := by
  unfold deallocshm at h
  rw [if_neg (Nat.not_le.2 hlt)] at h
  split at h
  · next hnone =>
    cases h
    exact .inl ⟨Option.isNone_iff_eq_none.1 hnone, rfl, rfl⟩
  next hsome =>
  have hsome : P.pgdir.pte (P.shm_vir 0) ≠ none := mt Option.isNone_iff_eq_none.2 hsome
  dsimp only at h
  rw [if_pos rfl] at h
  split at h
  · cases h
    exact .inr ⟨hsome, rfl, rfl, rfl⟩
  · obtain ⟨⟨m1, d⟩, -, h⟩ := bind_eq_ok.1 h
    cases h
    exact .inr ⟨hsome, rfl, rfl, rfl⟩

/-- `mappages` leaves the tables of regions alone. -/
theorem mappages_tables_same {m1 : Memory} (hva : va % PGSIZE = 0) (hlt : va < 2 ^ 32)
    (h : m1.mappages d va PGSIZE pa true true = .ok (c, m', d')) :
    m'.shm_arr = m1.shm_arr ∧ m'.used = m1.used := by
  obtain ⟨d1, hW, -, -⟩ := mappages_page hva hlt h
  exact ⟨hW.shm_arr, hW.used⟩

/-- What `shm_alloc` does. -/
theorem shm_alloc_tried (h : m.shm_alloc P 4096 ref shmMap junk = .ok (b, m', P')) :
    Tried m P ref shmMap b m' P' := by
  unfold shm_alloc at h
  simp only [szMore_toNat, show (4096 : Int) > 0 by decide, if_true] at h
  obtain ⟨⟨sz, m1, P1⟩, ha, h⟩ := bind_eq_ok.1 h
  unfold allocshm at ha
  split at ha
  · next hge =>
    cases ha
    cases h
    exact .refused hge
  next hlt =>
  have hlt := Nat.not_le.1 hlt
  split at ha
  · -- the size wraps around, and nothing is mapped
    next hwrap =>
    cases ha
    have hpos : P.sz ≠ 0 := by omega
    obtain ⟨k, hk⟩ := Nat.exists_eq_succ_of_ne_zero hpos
    rw [hk] at h
    cases h
    exact .taken hlt (fun hs => absurd hs.size (Nat.not_le.2 hwrap)) rfl rfl rfl fun _ _ => rfl
  next hle =>
  have hle := Nat.not_lt.1 hle
  have hmore : P.szMore = P.sz + PGSIZE := szMore_eq (hle.trans_lt hlt)
  have hroom : P.sz + PGSIZE < KERNBASE := hmore ▸ hlt
  have hva : PGROUNDUP P.sz < 2 ^ 32 := ((PGROUNDUP_lt hroom).trans hroom).trans (by decide)
  simp only [hmore, one_turn hroom] at ha
  obtain ⟨⟨o, m2, P2, a⟩, hl, ha⟩ := bind_eq_ok.1 ha
  simp only [allocshmLoop] at hl
  split at hl
  · next h0 =>
    split at hl
    · next m3 hk =>
      obtain ⟨hf, rfl⟩ := kalloc_none hk
      obtain ⟨⟨r, m4, P4⟩, hd, hl⟩ := bind_eq_ok.1 hl
      cases hl
      cases ha
      cases h
      have hlow : P.sz < P.sz + PGSIZE := Nat.lt_add_of_pos_right (by decide)
      rcases deallocshm_starved hlow hd with ⟨hn, rfl, rfl⟩ | ⟨hn, h1, h2, h3⟩
      · exact .spared hlt ⟨h0, hf, hle⟩ hn
      · exact .spoiled hlt ⟨h0, hf, hle⟩ hn h1 h2 h3
    · next f m3 hk =>
      obtain ⟨⟨c, m4, d⟩, hmap, hl⟩ := bind_eq_ok.1 hl
      obtain ⟨harr, hused⟩ := mappages_tables_same (PGROUNDUP_mod _) hva hmap
      obtain ⟨hfree, hm3⟩ := kalloc_some hk
      cases hl
      cases ha
      cases h
      refine .taken hlt (fun hs => ?_) ?_ ?_ rfl fun j hj => update_of_ne hj _ _
      · rw [hs.free] at hfree
        cases hfree
      · rw [harr, hm3]
        rfl
      · rw [hused, hm3]
        rfl
  · next h0 =>
    obtain ⟨⟨c, m4, d⟩, hmap, hl⟩ := bind_eq_ok.1 hl
    obtain ⟨harr, hused⟩ := mappages_tables_same (PGROUNDUP_mod _) hva hmap
    cases hl
    cases ha
    cases h
    exact .taken hlt (fun hs => h0 hs.new) harr hused rfl fun j hj => update_of_ne hj _ _

end

/-- What `shm_get(name)` can do. -/
inductive Asked (m : Memory) (P : Proc) (name : List UInt8) : Nat → Memory → Proc → Prop
  /-- The process has the region. -/
  | known {i : Slot} : P.procSHM_nameFind name = some i → Asked m P name (P.shm_vir i) m P
  /-- No slot, or no entry. -/
  | full : P.procSHM_nameFind name = none →
      P.procSHM_findFree = none ∨ m.shm_find name = none ∧ (SHM_MAXNUM : Int) ≤ m.used →
      Asked m P name 0 m P
  /-- No page. -/
  | failed {ref : Slot} {m' : Memory} {P' : Proc} : P.procSHM_nameFind name = none →
      P.procSHM_findFree = some ref → (m.shm_find name = none → m.used < SHM_MAXNUM) →
      Tried m P ref (m.target name) false m' P' → Asked m P name 0 m' P'
  | created {ref i : Slot} {m1 : Memory} {P1 : Proc} : P.procSHM_nameFind name = none →
      P.procSHM_findFree = some ref → m.shm_find name = none → m.used < SHM_MAXNUM →
      Tried m P ref 0 true m1 P1 → m1.shm_findFree = some i →
      Asked m P name (P1.shm_vir ref) (m1.enrol i (strncpy name 16) (P1.shm_phys ref))
        (P1.setName ref (safestrcpy name 16))
  | attached {ref i : Slot} {m1 : Memory} {P1 : Proc} : P.procSHM_nameFind name = none →
      P.procSHM_findFree = some ref → m.shm_find name = some i →
      Tried m P ref (m.shm_arr i).shmPhys true m1 P1 →
      Asked m P name (P1.shm_vir ref) (m1.addAccess i 1) (P1.setName ref (strncpy name 16))

section
variable {m m' : Memory} {P P' : Proc} {name : List UInt8} {junk va : Nat}

/-- What `shm_get` does to the slots. -/
theorem shm_get_asked (h : m.shm_get P name junk = .ok (va, m', P')) : Asked m P name va m' P' := by
  unfold shm_get at h
  split at h
  · next i hi =>
    cases h
    exact .known hi
  next hname =>
  split at h
  · next hfree =>
    cases h
    exact .full hname (.inl hfree)
  next ref href =>
  split at h
  · next hfind =>
    have htarget : m.target name = 0 := by rw [target, hfind]; rfl
    split at h
    swap
    · next hused =>
      cases h
      exact .full hname (.inr ⟨hfind, Int.not_lt.1 hused⟩)
    next hused =>
    obtain ⟨⟨b, m1, P1⟩, ha, h⟩ := bind_eq_ok.1 h
    have htried := shm_alloc_tried ha
    cases b with
    | false =>
      cases h
      refine .failed hname href (fun _ => hused) ?_
      rw [htarget]
      exact htried
    | true =>
      simp only at h
      split at h
      · cases h
      · next i hi =>
        cases h
        exact .created hname href hfind hused htried hi
  · next i hfind =>
    have htarget : m.target name = (m.shm_arr i).shmPhys := by rw [target, hfind]; rfl
    obtain ⟨⟨b, m1, P1⟩, ha, h⟩ := bind_eq_ok.1 h
    have htried := shm_alloc_tried ha
    cases b with
    | false =>
      cases h
      refine .failed hname href (fun hnone => ?_) ?_
      · rw [hfind] at hnone
        cases hnone
      · rw [htarget]
        exact htried
    | true =>
      cases h
      exact .attached hname href hfind htried

end

/-! ## Calls that fail -/

/-- What a call that fails should leave as it was. -/
structure Untouched (m : Memory) (P : Proc) (m' : Memory) (P' : Proc) : Prop where
  sz : P'.sz = P.sz
  pte : ∀ va, P'.pgdir.pte va = P.pgdir.pte va
  shm_name : P'.shm_name = P.shm_name
  shm_vir : P'.shm_vir = P.shm_vir
  shm_phys : P'.shm_phys = P.shm_phys
  shm_arr : m'.shm_arr = m.shm_arr
  used : m'.used = m.used

/-- `shm_get(name)` stops before it changes anything: the process has the region, or there is no
slot, no entry or no address for it; or there is no memory, and no page table where slot 0 says its
page is. -/
inductive FailsClean (m : Memory) (P : Proc) (name : List UInt8) : Prop
  | known : P.procSHM_nameFind name ≠ none → FailsClean m P name
  | slots : P.procSHM_findFree = none → FailsClean m P name
  | entries : m.shm_find name = none → (SHM_MAXNUM : Int) ≤ m.used → FailsClean m P name
  | addresses : KERNBASE ≤ P.szMore → FailsClean m P name
  | memory : Starved m P (m.target name) → P.pgdir.pte (P.shm_vir 0) = none → FailsClean m P name

section
variable {m m' : Memory} {P P' : Proc} {ref : Slot} {name : List UInt8} {junk : Nat} {b : Bool}

theorem Untouched.refl (m : Memory) (P : Proc) (c : Bool) : Untouched m P { m with oom := c } P :=
  ⟨rfl, fun _ => rfl, rfl, rfl, rfl, rfl, rfl⟩

theorem szLess_ne (P : Proc) : P.szLess ≠ P.sz := by
  simp only [Proc.szLess, PGSIZE]
  omega

/-- A page that is asked for is not refused cleanly. -/
theorem not_clean (hname : P.procSHM_nameFind name = none) (href : P.procSHM_findFree = some ref)
    (hused : m.shm_find name = none → m.used < SHM_MAXNUM) (hlt : P.szMore < KERNBASE)
    (hpage : Starved m P (m.target name) → P.pgdir.pte (P.shm_vir 0) ≠ none) :
    ¬ FailsClean m P name := by
  intro hclean
  cases hclean with
  | known h => exact h hname
  | slots h =>
    rw [href] at h
    cases h
  | entries h h' => exact absurd (hused h) (Int.not_lt.2 h')
  | addresses h => exact absurd hlt (Nat.not_lt.2 h)
  | memory h h' => exact hpage h h'

/-- When a failed `shm_alloc` leaves no trace. -/
theorem Tried.untouched_iff (hname : P.procSHM_nameFind name = none)
    (href : P.procSHM_findFree = some ref) (hused : m.shm_find name = none → m.used < SHM_MAXNUM)
    (h : Tried m P ref (m.target name) false m' P') : Untouched m P m' P' ↔
      FailsClean m P name := by
  cases h with
  | refused hge => exact iff_of_true (.refl m P m.oom) (.addresses hge)
  | spared hlt hs hn => exact iff_of_true (.refl m P true) (.memory hs hn)
  | spoiled hlt hs hn h1 _ _ =>
    refine iff_of_false (fun hu => ?_) (not_clean hname href hused hlt fun _ => hn)
    exact szLess_ne P (h1.symm.trans hu.sz)

/-- Where `shm_get` returns 0, everything is as before exactly if it stopped before it changed
anything. -/
theorem failed_get_iff (h : m.shm_get P name junk = .ok (0, m', P')) :
    Untouched m P m' P' ↔ FailsClean m P name := by
  have hasked := shm_get_asked h
  generalize 0 = va at hasked
  cases hasked with
  | known hi => exact iff_of_true (.refl m P m.oom) (.known (by rw [hi]; exact nofun))
  | full hname hfull =>
    refine iff_of_true (.refl m P m.oom) ?_
    rcases hfull with hfree | ⟨hfind, hused⟩
    · exact .slots hfree
    · exact .entries hfind hused
  | failed hname href hused htried => exact htried.untouched_iff hname href hused
  | created hname href hfind hused htried hi =>
    have htarget : m.target name = 0 := by rw [target, hfind]; rfl
    cases htried with
    | taken hlt hs harr hu _ _ =>
      refine iff_of_false (fun hsame => ?_)
        (not_clean hname href (fun _ => hused) hlt fun hs' => ?_)
      · have h1 : _ + 1 = m.used := hsame.used
        rw [hu] at h1
        omega
      · rw [htarget] at hs'
        exact absurd hs' hs
  | attached hname href hfind htried =>
    next i m1 P1 =>
    have htarget : m.target name = (m.shm_arr i).shmPhys := by rw [target, hfind]; rfl
    have hused : m.shm_find name = none → m.used < SHM_MAXNUM := by
      rw [hfind]
      exact nofun
    cases htried with
    | taken hlt hs harr hu _ _ =>
      refine iff_of_false (fun hsame => ?_) (not_clean hname href hused hlt fun hs' => ?_)
      · have h1 := congrArg (fun a => (a i).numAccess) hsame.shm_arr
        simp only [addAccess_apply, if_true, harr] at h1
        omega
      · rw [htarget] at hs'
        exact absurd hs' hs

end

namespace Lone

/-- A process with one page, without regions. -/
def proc : Proc where
  sz := PGSIZE
  pgdir :=
    { frame := 900
      pde := fun _ => some
        { frame := 901
          pte := update (fun _ => .zero) 0 { frame := 1000, p := true, w := true, u := true } } }
  kstack := 902
  parent := none
  zombie := false
  shm_name _ := DNE
  shm_vir _ := 0
  shm_phys _ := 0

/-- A memory without regions. -/
def mem (freelist : List Frame) : Memory where
  freelist := freelist
  page _ _ := 0
  shm_arr := shm_init
  used := 0
  oom := false

end Lone

/-- A process that has all addresses is left alone. -/
theorem failed_get_iff_addresses :
    (Lone.mem []).shm_get { Lone.proc with sz := KERNBASE - PGSIZE } [97] 0 =
      .ok (0, Lone.mem [], { Lone.proc with sz := KERNBASE - PGSIZE }) ∧
    Untouched (Lone.mem []) { Lone.proc with sz := KERNBASE - PGSIZE } (Lone.mem [])
      { Lone.proc with sz := KERNBASE - PGSIZE } := by
  have hget : (Lone.mem []).shm_get { Lone.proc with sz := KERNBASE - PGSIZE } [97] 0 =
      .ok (0, Lone.mem [], { Lone.proc with sz := KERNBASE - PGSIZE }) := rfl
  exact ⟨hget, (failed_get_iff hget).2 (.addresses (by decide))⟩

/-- Where there is no memory for a region, the process loses its only page. -/
theorem failed_get_spoils : ∃ m' P', (Lone.mem []).shm_get Lone.proc [97] 0 = .ok (0, m', P') ∧
    P'.sz = 0 ∧ P'.pgdir.pte 0 = some .zero ∧ ¬ Untouched (Lone.mem []) Lone.proc m' P' := by
  have hrun : (match (Lone.mem []).shm_get Lone.proc [97] 0 with
      | .ok (va, _, P') => decide (va = 0 ∧ P'.sz = 0 ∧ P'.pgdir.pte 0 = some .zero)
      | .error _ => false) = true := by decide +kernel
  split at hrun
  · next va m' P' heq =>
    obtain ⟨rfl, hsz, hpte⟩ := of_decide_eq_true hrun
    refine ⟨m', P', heq, hsz, hpte, fun h => ?_⟩
    have := h.sz
    rw [hsz] at this
    cases this
  · cases hrun

/-! ## One name, one address -/

/-- A call of `shm_get`, with the memory that it finds: other processes may have run before. -/
structure Ask where
  mem : Memory
  name : List UInt8
  length : Int
  junk : Nat

/-- All sequences of calls by one process. -/
def asking (P1 : Proc) : System Proc Ask where
  init P := P = P1
  step P a P' := ∃ va m', a.mem.sys_shm_get P a.name a.length a.junk = .ok (va, m', P')

/-- The name is not the one that the call loses or puts something in front of: memory does not run
out while it is in slot 0, and a name whose first fifteen bytes are this one is not given a slot
before. This is asked of the calls that are not refused and are for another name. -/
def Spares (name : List UInt8) (P : Proc) (a : Ask) : Prop :=
  refused a.name a.length = false → a.name.take 16 ≠ name.take 16 →
    ∀ i, P.procSHM_nameFind name = some i → (i = 0 → a.mem.freelist ≠ []) ∧
      ∀ ref, P.procSHM_findFree = some ref → ref < i → safestrcpy a.name 16 ≠ name.take 16

/-- The process has the name, at this address. -/
def Proc.Answers (P : Proc) (name : List UInt8) (v : Nat) : Prop :=
  ∃ i, P.procSHM_nameFind name = some i ∧ P.shm_vir i = v

section
variable {m m' : Memory} {P P' : Proc} {name : List UInt8} {i ref : Slot} {v : Nat}

/-- The slot that `procSHM_nameFind` finds. -/
theorem nameFind_eq_some : P.procSHM_nameFind name = some i ↔
    (P.shm_name i).take 16 = name.take 16 ∧ ∀ j < i, (P.shm_name j).take 16 ≠ name.take 16 := by
  simp [Proc.procSHM_nameFind, find?_finRange_eq_some, strncmp]

/-- When it finds none. -/
theorem nameFind_eq_none :
    P.procSHM_nameFind name = none ↔ ∀ j, (P.shm_name j).take 16 ≠ name.take 16 := by
  simp [Proc.procSHM_nameFind, strncmp]

/-- The slot of another name is filled. -/
theorem nameFind_other (h : P.procSHM_nameFind name = some i) (hne : ref ≠ i)
    (hstored : ref < i → stored.take 16 ≠ name.take 16)
    (hP' : P'.shm_name = update P.shm_name ref stored) : P'.procSHM_nameFind name = some i := by
  rw [nameFind_eq_some] at h ⊢
  rw [hP']
  refine ⟨by rw [update_of_ne hne.symm]; exact h.1, fun j hj => ?_⟩
  rcases eq_or_ne j ref with rfl | hjr
  · rw [update_self]
    exact hstored hj
  · rw [update_of_ne hjr]
    exact h.2 j hj

/-- The slot of the name is filled. -/
theorem nameFind_new (h : P.procSHM_nameFind name = none) (hstored : stored.take 16 = name.take 16)
    (hP' : P'.shm_name = update P.shm_name ref stored) : P'.procSHM_nameFind name = some ref := by
  rw [nameFind_eq_none] at h
  rw [nameFind_eq_some, hP']
  refine ⟨by rw [update_self]; exact hstored, fun j hj => ?_⟩
  rw [update_of_ne hj.ne]
  exact h j

/-- After a successful call the process has the name, unless it has just created a region of a
longer name than it keeps. -/
theorem Asked.answers
    (hshort : name.length ≤ 15 ∨ P.procSHM_nameFind name ≠ none ∨ m.shm_find name ≠ none)
    (hv : v ≠ 0) (h : Asked m P name v m' P') : P'.Answers name v := by
  cases h with
  | known hi => exact ⟨_, hi, rfl⟩
  | full => exact absurd rfl hv
  | failed => exact absurd rfl hv
  | created hname href hfind hused htried hi =>
    have hlen : name.length ≤ 15 := by
      rcases hshort with hlen | hknown | hfound
      · exact hlen
      · exact absurd hname hknown
      · exact absurd hfind hfound
    cases htried with
    | taken _ _ _ _ hnames _ =>
      refine ⟨_, nameFind_new hname ?_ (congrArg (update · _ _) hnames), rfl⟩
      rw [safestrcpy, List.take_of_length_le hlen]
  | attached hname href hfind htried =>
    cases htried with
    | taken _ _ _ _ hnames _ =>
      refine ⟨_, nameFind_new hname ?_ (congrArg (update · _ _) hnames), rfl⟩
      rw [strncpy, List.take_take, Nat.min_self]

/-- A later call leaves the name where it is. -/
theorem Proc.Answers.step (hr : refused name length = false)
    (ha : refused a.name a.length = false) (hP : P.Answers name v) (hs : Spares name P a)
    (h : Asked a.mem P a.name va m' P') : P'.Answers name v := by
  obtain ⟨i, hi, hvir⟩ := hP
  have hDNE : name.take 16 ≠ DNE := take_ne_of_not_refused hr
  have hslot := (nameFind_eq_some.1 hi).1
  -- a free slot is not the one of the name
  have hne {ref : Slot} (href : P.procSHM_findFree = some ref) : ref ≠ i := by
    rintro rfl
    exact hDNE (hslot.symm.trans (nameFind_eq_some.1 href).1)
  -- a name that is looked for in vain is another one
  have hother (hname : P.procSHM_nameFind a.name = none) : a.name.take 16 ≠ name.take 16 :=
    fun h => nameFind_eq_none.1 hname i (hslot.trans h.symm)
  cases h with
  | known | full => exact ⟨i, hi, hvir⟩
  | failed hname href hused htried =>
    cases htried with
    | refused | spared => exact ⟨i, hi, hvir⟩
    | spoiled _ hst _ _ hnames hvirs =>
      have h0 : (0 : Slot) ≠ i := fun h0 => (hs ha (hother hname) i hi).1 h0.symm hst.free
      refine ⟨i, nameFind_other hi h0 (fun _ => show DNE.take 16 ≠ _ from hDNE.symm) hnames, ?_⟩
      rw [hvirs, update_of_ne h0.symm]
      exact hvir
  | created hname href hfind hused htried hi' =>
    cases htried with
    | taken _ _ _ _ hnames hvirs =>
      refine ⟨i, nameFind_other hi (hne href) (fun hlt => ?_)
        (congrArg (update · _ _) hnames), (hvirs i (hne href).symm).trans hvir⟩
      have := (hs ha (hother hname) i hi).2 _ href hlt
      rwa [safestrcpy, List.take_take, show min 16 (16 - 1) = 16 - 1 from rfl]
  | attached hname href hfind htried =>
    cases htried with
    | taken _ _ _ _ hnames hvirs =>
      refine ⟨i, nameFind_other hi (hne href) (fun _ heq => ?_)
        (congrArg (update · _ _) hnames), (hvirs i (hne href).symm).trans hvir⟩
      rw [strncpy, List.take_take, Nat.min_self] at heq
      exact hother hname heq

/-- Once `shm_get(name)` has returned an address, every later call returns it again and changes
nothing, after any calls for other names that spare this one. -/
theorem get_again {m1 : Memory} {P1 P2 : Proc} {length : Int} {junk : Nat}
    (hr : refused name length = false)
    (hshort : name.length ≤ 15 ∨ P.procSHM_nameFind name ≠ none ∨ m.shm_find name ≠ none)
    (h : m.sys_shm_get P name length junk = .ok (v, m1, P1)) (hv : v ≠ 0)
    (hrun : ((asking P1).restrict (Spares name)).Reach P2) (m2 : Memory) {length2 : Int}
    (hr2 : refused name length2 = false) (junk2 : Nat) :
    m2.sys_shm_get P2 name length2 junk2 = .ok (v, m2, P2) := by
  have hanswers : P2.Answers name v := by
    refine hrun.invariant (I := fun P => P.Answers name v) (fun P hi => ?_) fun P a P' hP hst => ?_
    · rw [show P = P1 from hi]
      unfold sys_shm_get at h
      rw [hr] at h
      exact (shm_get_asked h).answers hshort hv
    · obtain ⟨hs, va, m', hcall⟩ := hst
      unfold sys_shm_get at hcall
      split at hcall
      · cases hcall
        exact hP
      · next ha => exact hP.step hr (Bool.eq_false_of_not_eq_true ha) hs (shm_get_asked hcall)
  obtain ⟨i, hi, rfl⟩ := hanswers
  unfold sys_shm_get shm_get
  rw [hr2, hi]
  rfl

/-- `get_again` for a region and another one. -/
theorem get_again_twice : ∃ m1 P1 P2,
    (Lone.mem [1001, 1002]).sys_shm_get Lone.proc [97] 1 0 = .ok (1 * PGSIZE, m1, P1) ∧
      ((asking P1).restrict (Spares [97])).Reach P2 ∧ P2.sz = 3 * PGSIZE ∧
      m1.sys_shm_get P2 [97] 1 0 = .ok (1 * PGSIZE, m1, P2) := by
  have hrun : (match (Lone.mem [1001, 1002]).sys_shm_get Lone.proc [97] 1 0 with
      | .ok (va, m1, P1) => match m1.sys_shm_get P1 [98] 1 0 with
        | .ok (_, _, P2) => decide (va = 1 * PGSIZE ∧ m1.freelist ≠ [] ∧
            P1.procSHM_nameFind [97] = some 0 ∧ P2.sz = 3 * PGSIZE)
        | .error _ => false
      | .error _ => false) = true := by decide +kernel
  split at hrun
  swap
  · cases hrun
  next va m1 P1 hget =>
  split at hrun
  swap
  · cases hrun
  next va2 m2 P2 hget2 =>
  obtain ⟨rfl, hfree, hfind, hsz⟩ := of_decide_eq_true hrun
  have hspares : Spares [97] P1 ⟨m1, [98], 1, 0⟩ := by
    intro _ _ i hi
    rw [hfind] at hi
    cases hi
    exact ⟨fun _ => hfree, fun ref _ hlt => absurd hlt (Fin.not_lt_zero ref)⟩
  have hreach : ((asking P1).restrict (Spares [97])).Reach P2 :=
    .step (.init rfl) ⟨hspares, va2, m2, hget2⟩
  exact ⟨m1, P1, P2, hget, hreach, hsz,
    get_again (by decide) (.inl (by decide)) hget (by decide) hreach m1 (by decide) 0⟩

/-- The first process creates a region with a name of sixteen bytes and asks for it again: it gets
another page, and is counted once more. -/
theorem longName_again : ∃ s s1 s2 P1 P2, system.Reach s ∧
    s.outcome (.shm_get 0 longName 16 0) = some (.ok (true, s1)) ∧ s1.proc 0 = some P1 ∧
    s1.outcome (.shm_get 0 longName 16 0) = some (.ok (true, s2)) ∧ s2.proc 0 = some P2 ∧
    P2.sz ≠ P1.sz ∧ (s2.mem.shm_arr 0).numAccess ≠ (s1.mem.shm_arr 0).numAccess := by
  obtain ⟨kp, m0, P0, m1, P1, f, fs, hb, -, hout1, hc, -, -, hf, -⟩ :=
    exists_created (show refused longName 16 = false by decide) (by decide)
  obtain ⟨m2, P2, hout2, ha, -⟩ := hc.again kp hf
  refine ⟨_, _, _, P1, P2, .init hb, hout1, rfl, hout2, rfl, ?_, ?_⟩
  · rw [ha.sz, hc.sz]
    decide
  · change (m2.shm_arr 0).numAccess ≠ (m1.shm_arr 0).numAccess
    rw [ha.shm_arr, hc.shm_arr, update_self, update_self]
    exact show (2 : Int) ≠ 1 by decide

end

end Msboss.Vm
