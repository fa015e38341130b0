import Msboss.Vm.Access
import Msboss.Vm.Calls

/-!
# The ledger of physical frames

Every use of a frame is counted over the whole state: by the kernel (`State.kernel`: on the free
list, as a page table or directory, as a kernel stack) and by user pages (`State.mapped`). `Ledger`
is the invariant on the counts: a frame of no shared region has one use at most; a frame of a
region is used by user pages only, by no more than its access count.

Most calls do not touch the list of regions. `Shift` is what such a call may do to the counts, and
`Ledger.shift` that it keeps the ledger.
-/

namespace Msboss.Vm

open Function

/-- The entry of `shm_arr` is in use. -/
def Shm.Named (r : Shm) : Prop := r.name ≠ DNE

instance (r : Shm) : Decidable r.Named := inferInstanceAs (Decidable (_ ≠ _))

/-- The kernel's uses of the frame for a process. -/
def Proc.own (P : Proc) (f : Frame) : Nat := (if P.kstack = f then 1 else 0) + P.pgdir.tables f

/-- What a slot of the process table counts for. It has lemmas of its own, since a count of pages
should never be evaluated. -/
def slot (F : Proc → Nat) : Option Proc → Nat
  | none => 0
  | some P => F P

@[simp] theorem slot_none (F : Proc → Nat) : slot F none = 0 := rfl

@[simp] theorem slot_some (F : Proc → Nat) (P : Proc) : slot F (some P) = F P := rfl

theorem slot_of_eq {o : Option Proc} (h : o = some P) (F : Proc → Nat) :
    slot F o = F P := by rw [h, slot_some]

namespace State

/-- The kernel's uses of the frame. -/
def kernel (s : State) (f : Frame) : Nat :=
  s.mem.freelist.count f + s.kpgdir.tables f + ∑ p, slot (·.own f) (s.proc p)

/-- How many user pages map the frame, over all processes not yet reaped. -/
def mapped (s : State) (f : Frame) : Nat := ∑ p, slot (·.pgdir.user f) (s.proc p)

variable {s : State} {p : Pid} {P P' : Proc}

/-- A sum over the process table after one slot has changed. -/
theorem sum_slot_set (F : Proc → Nat) (s : State) (p : Pid) (o : Option Proc) :
    ∑ q, slot F (update s.proc p o q) + slot F (s.proc p) = ∑ q, slot F (s.proc q) + slot F o := by
  have h := sum_change (Finset.mem_univ p) (g := fun q => slot F (s.proc q))
    (k := fun q => slot F (update s.proc p o q)) fun q _ hq => by
      simp only [update_of_ne hq]
  simp only [update_self] at h
  exact h

/-- A process counts at most as much as all. -/
theorem slot_le_sum (F : Proc → Nat) (h : s.proc p = some P) : F P ≤ ∑ q, slot F (s.proc q) := by
  rw [← slot_of_eq h F]
  exact Finset.single_le_sum (f := fun q => slot F (s.proc q)) (fun _ _ => Nat.zero_le _)
    (Finset.mem_univ p)

/-- The kernel's uses after one process and the free list have changed. -/
theorem kernel_set (s : State) (m : Memory) (p : Pid) (o : Option Proc) (f : Frame) :
    (s.set m p o).kernel f + s.mem.freelist.count f + slot (·.own f) (s.proc p) =
      s.kernel f + m.freelist.count f + slot (·.own f) o := by
  have h := sum_slot_set (·.own f) s p o
  simp only [kernel, set]
  omega

/-- The mappings after one process has changed. -/
theorem mapped_set (s : State) (m : Memory) (p : Pid) (o : Option Proc) (f : Frame) :
    (s.set m p o).mapped f + slot (·.pgdir.user f) (s.proc p) =
      s.mapped f + slot (·.pgdir.user f) o :=
  sum_slot_set (·.pgdir.user f) s p o

/-- What one process maps is mapped. -/
theorem user_le_mapped (h : s.proc p = some P) (f : Frame) : P.pgdir.user f ≤ s.mapped f :=
  slot_le_sum (·.pgdir.user f) h

/-- What one process owns is the kernel's. -/
theorem own_le_kernel (h : s.proc p = some P) (f : Frame) :
    s.mem.freelist.count f + P.own f ≤ s.kernel f := by
  have := slot_le_sum (·.own f) h
  simp only [kernel]
  omega

end State

/-- The table of regions: an entry out of use is clear, one in use has a frame of its own, and
`used` counts the latter. -/
structure Memory.Tidy (m : Memory) : Prop where
  unused : ∀ i, ¬ (m.shm_arr i).Named → (m.shm_arr i).shmPhys = 0 ∧ (m.shm_arr i).numAccess = 0
  placed : ∀ i, (m.shm_arr i).Named → ∃ f, 0 < f ∧ (m.shm_arr i).shmPhys = f * PGSIZE
  distinct : m.Distinct
  used : m.used = (Finset.univ.filter fun i => (m.shm_arr i).Named).card

/-- No two entries in use have one name. -/
def Memory.NamesDiffer (m : Memory) : Prop :=
  ∀ i j, (m.shm_arr i).Named → (m.shm_arr j).Named →
    strncmp (m.shm_arr i).name (m.shm_arr j).name 16 = true → i = j

/-- The invariant. -/
structure Ledger (s : State) : Prop where
  tidy : s.mem.Tidy
  names : s.mem.NamesDiffer
  once : ∀ f, ¬ s.mem.Region f → s.kernel f + s.mapped f ≤ 1
  shared : ∀ f, s.mem.Region f → s.kernel f = 0
  zero : s.kernel 0 + s.mapped 0 = 0
  access : ∀ {i : Slot} {f : Frame}, 0 < f → (s.mem.shm_arr i).shmPhys = f * PGSIZE →
    (s.mapped f : Int) ≤ (s.mem.shm_arr i).numAccess
  size : ∀ {p : Pid} {P : Proc}, s.proc p = some P → P.sz < KERNBASE

/-- What a call that leaves the regions where they are may do to the counts. -/
structure Shift (s s' : State) : Prop where
  total : ∀ f, ¬ s.mem.Region f → s'.kernel f + s'.mapped f ≤ s.kernel f + s.mapped f
  keep : ∀ f, s.mem.Region f → s'.kernel f ≤ s.kernel f
  used : s'.mem.used = s.mem.used
  regions : SameRegions s.mem s'.mem
  unused : ∀ i, (s.mem.shm_arr i).shmPhys = 0 → s'.mem.shm_arr i = s.mem.shm_arr i
  access : ∀ {i : Slot} {f : Frame}, 0 < f → (s.mem.shm_arr i).shmPhys = f * PGSIZE →
    (s'.mapped f : Int) + (s.mem.shm_arr i).numAccess ≤
      s.mapped f + (s'.mem.shm_arr i).numAccess
  size : (∀ {p : Pid} {P : Proc}, s.proc p = some P → P.sz < KERNBASE) →
    ∀ {p : Pid} {P : Proc}, s'.proc p = some P → P.sz < KERNBASE

section
variable {s s' : State} {m m' : Memory}

theorem SameRegions.named (h : SameRegions m m') (i : Slot) :
    (m'.shm_arr i).Named ↔ (m.shm_arr i).Named := by
  rw [Shm.Named, Shm.Named, (h i).1]

/-- The table stays tidy while the regions stay. -/
theorem Memory.Tidy.same (ht : m.Tidy) (h : SameRegions m m') (hu : m'.used = m.used)
    (h0 : ∀ i, (m.shm_arr i).shmPhys = 0 → m'.shm_arr i = m.shm_arr i) : m'.Tidy where
  unused i hi := by
    have hi := mt (h.named i).2 hi
    rw [h0 i (ht.unused i hi).1]
    exact ht.unused i hi
  placed i hi := by
    rw [(h i).2]
    exact ht.placed i ((h.named i).1 hi)
  distinct := h.distinct ht.distinct
  used := by
    rw [hu, ht.used]
    simp only [h.named]

theorem Memory.NamesDiffer.same (hn : m.NamesDiffer) (h : SameRegions m m') : m'.NamesDiffer := by
  intro i j hi hj hcmp
  rw [(h i).1, (h j).1] at hcmp
  exact hn i j ((h.named i).1 hi) ((h.named j).1 hj) hcmp

/-- A region has an entry in use. -/
theorem Memory.Tidy.named_of_region (ht : m.Tidy) {i : Slot} {f : Frame} (hf : 0 < f)
    (hi : (m.shm_arr i).shmPhys = f * PGSIZE) : (m.shm_arr i).Named := by
  by_contra hn
  have := (ht.unused i hn).1
  rw [hi] at this
  exact (Nat.mul_pos hf (by decide)).ne' this

/-- Calls that leave the regions alone keep the ledger. -/
theorem Ledger.shift (hl : Ledger s) (h : Shift s s') : Ledger s' where
  tidy := hl.tidy.same h.regions h.used h.unused
  names := hl.names.same h.regions
  once f hf := by
    have hf := mt h.regions.region.2 hf
    exact (h.total f hf).trans (hl.once f hf)
  shared f hf := by
    have hf := h.regions.region.1 hf
    have h1 := h.keep f hf
    have h2 := hl.shared f hf
    omega
  zero := by
    have h1 := h.total 0 fun h => absurd h.1 (by decide)
    have h2 := hl.zero
    omega
  access {i f} hf hi := by
    rw [(h.regions i).2] at hi
    have h1 := h.access hf hi
    have h2 := hl.access hf hi
    omega
  size := h.size hl.size

/-- The contents of the pages, and whether `kalloc` has failed, are not in the ledger. -/
theorem Ledger.page (hl : Ledger s) (page : Frame → Nat → UInt8) (oom : Bool) :
    Ledger { s with mem := { s.mem with page, oom } } :=
  ⟨⟨hl.tidy.unused, hl.tidy.placed, hl.tidy.distinct, hl.tidy.used⟩, hl.names, hl.once, hl.shared,
    hl.zero, hl.access, hl.size⟩

/-- A user page that is present maps a frame other than 0. -/
theorem Ledger.entry_pos (hl : Ledger s) (hP : s.proc p = some P) :
    ∀ vp < UPAGES, (P.pgdir.entry vp).p = true → 0 < (P.pgdir.entry vp).frame := by
  intro vp hvp hp
  by_contra h0
  have h0 : (P.pgdir.entry vp).frame = 0 := Nat.eq_zero_of_not_pos h0
  have h1 : (P.pgdir.entry vp).count 0 ≤ P.pgdir.user 0 :=
    Finset.single_le_sum (f := fun vp => (P.pgdir.entry vp).count 0) (fun _ _ => Nat.zero_le _)
      (Finset.mem_range.2 hvp)
  have h2 := s.user_le_mapped hP 0
  have h3 := hl.zero
  rw [Pte.count, if_pos ⟨hp, h0⟩] at h1
  omega

/-- The frames of regions are on no free list. -/
theorem Ledger.free_of_region (hl : Ledger s) (hf : s.mem.Region f) :
    s.mem.freelist.count f = 0 := by
  have := hl.shared f hf
  simp only [State.kernel] at this
  omega

/-- Free frames belong to no region. -/
theorem Ledger.not_region_of_free (hl : Ledger s) : ∀ f ∈ s.mem.freelist, ¬ s.mem.Region f := by
  intro f hf hr
  have h1 := hl.free_of_region hr
  have h2 := List.count_pos_iff.2 hf
  omega

/-- The frames of regions are no page tables. -/
theorem Ledger.own_of_region (hl : Ledger s) (hf : s.mem.Region f)
    (hP : s.proc p = some P) : s.mem.freelist.count f + P.own f = 0 := by
  have h1 := hl.shared f hf
  have h2 := s.own_le_kernel hP f
  omega

end

end Msboss.Vm
