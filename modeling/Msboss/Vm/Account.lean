import Msboss.Vm.User

/-!
# Counting frames

How often a frame is in use in a page directory: as the directory itself or one of its page tables
(`PageDir.tables`), and as a page mapped in its user half (`PageDir.user`). The lemmas say how the
counts change when an entry is stored and when `walkpgdir` makes a page table: what leaves the free
list turns up in the counts.
-/

namespace Msboss.Vm

open Memory PageDir Finset

/-- Pages below `KERNBASE`. -/
def UPAGES : Nat := KERNBASE / PGSIZE

/-- 1 if the entry maps the frame, else 0. -/
def Pte.count (e : Pte) (f : Frame) : Nat := if e.p ∧ e.frame = f then 1 else 0

@[simp] theorem Pte.count_zero (f : Frame) : Pte.zero.count f = 0 := rfl

/-- A page that is not present maps nothing. -/
theorem Pte.count_of_not_present {e : Pte} (h : e.p = false) (f : Frame) : e.count f = 0 := by
  simp [Pte.count, h]

namespace PageDir

/-- The entry of the virtual page `vp`; the zero entry if its page table is missing. -/
def entry (d : PageDir) (vp : Nat) : Pte := (d.pte (vp * PGSIZE)).getD .zero

/-- How often the user half maps the frame. -/
def user (d : PageDir) (f : Frame) : Nat := ∑ vp ∈ range UPAGES, (d.entry vp).count f

/-- How often the frame is the directory or one of its page tables. -/
def tables (d : PageDir) (f : Frame) : Nat :=
  (if d.frame = f then 1 else 0) +
    ∑ i, (d.pde i).elim 0 fun t => if t.frame = f then 1 else 0

variable {d : PageDir} {a vp : Nat} {e : Pte} {f : Frame}

theorem PDX_page (vp : Nat) : PDX (vp * PGSIZE) = Fin.ofNat 1024 (vp / 1024) := by
  simp [PDX, PGSIZE]

theorem PTX_page (vp : Nat) : PTX (vp * PGSIZE) = Fin.ofNat 1024 vp := by
  simp [PTX, PGSIZE]

theorem PDX_round (a : Nat) : PDX (a / PGSIZE * PGSIZE) = PDX a := PDX_page _

theorem PTX_round (a : Nat) : PTX (a / PGSIZE * PGSIZE) = PTX a := PTX_page _

/-- An address and its page have the same entry. -/
theorem pte_page (d : PageDir) (a : Nat) : d.pte (a / PGSIZE * PGSIZE) = d.pte a := by
  rw [pte, pte, PDX_round, PTX_round]

/-- The entry of the page of an address. -/
theorem entry_div (d : PageDir) (a : Nat) : d.entry (a / PGSIZE) = (d.pte a).getD .zero := by
  rw [entry, pte_page]

theorem entry_of_pte (h : d.pte a = some e) : d.entry (a / PGSIZE) = e := by
  rw [entry_div, h]; rfl

/-- Two pages of the address space with the same indices are the same page. -/
theorem page_eq (hp : vp < 2 ^ 20) (hq : vq < 2 ^ 20)
    (h1 : PDX (vp * PGSIZE) = PDX (vq * PGSIZE)) (h2 : PTX (vp * PGSIZE) = PTX (vq * PGSIZE)) :
    vp = vq := by
  rw [PDX_page, PDX_page, Fin.ext_iff] at h1
  rw [PTX_page, PTX_page, Fin.ext_iff] at h2
  simp only [Fin.val_ofNat] at h1 h2
  omega

/-- What storing an entry does to the entries. -/
theorem entry_setPte (ha : a < 2 ^ 32) (hvp : vp < 2 ^ 20) (hs : (d.pte a).isSome = true) :
    (d.setPte a e).entry vp = if vp = a / PGSIZE then e else d.entry vp := by
  obtain ⟨t, ht⟩ : ∃ t, d.pde (PDX a) = some t := by
    simpa [pte, Option.isSome_iff_exists] using hs
  have hq : a / PGSIZE < 2 ^ 20 := by simp only [PGSIZE]; omega
  simp only [setPte, ht, entry, pte]
  by_cases h1 : PDX (vp * PGSIZE) = PDX a
  · by_cases h2 : PTX (vp * PGSIZE) = PTX a
    · rw [if_pos (page_eq hvp hq (h1.trans (PDX_round a).symm) (h2.trans (PTX_round a).symm))]
      simp [h1, h2]
    · rw [if_neg (by rintro rfl; exact h2 (PTX_round a))]
      simp [h1, h2, ht]
  · rw [if_neg (by rintro rfl; exact h1 (PDX_round a))]
    simp [h1]

/-- Setting an entry makes none and removes none. -/
theorem pte_setPte_isSome (d : PageDir) (a b : Nat) (e : Pte) :
    ((d.setPte a e).pte b).isSome = (d.pte b).isSome := by
  unfold setPte
  split
  · rfl
  next t ht =>
  simp only [pte, Option.isSome_map]
  rcases eq_or_ne (PDX b) (PDX a) with h | h
  · simp [h, ht]
  · simp [h]

@[simp] theorem setPte_frame (d : PageDir) (a : Nat) (e : Pte) :
    (d.setPte a e).frame = d.frame := by
  unfold setPte; split <;> rfl

/-- Storing an entry makes no page table. -/
theorem tables_setPte (d : PageDir) (a : Nat) (e : Pte) : (d.setPte a e).tables = d.tables := by
  funext f
  rw [tables, tables, setPte_frame]
  refine congrArg _ (sum_congr rfl fun i _ => ?_)
  unfold setPte
  split
  · rfl
  · next t ht =>
    rcases eq_or_ne i (PDX a) with rfl | hi
    · simp [ht]
    · simp [hi]

/-- An entry that is stored, at whatever address, replaces that entry and no other. -/
theorem entry_setPte_cases (he : d.pte a = some e) (vp : Nat) :
    (d.setPte a x).entry vp = x ∧ d.entry vp = e ∨ (d.setPte a x).entry vp = d.entry vp := by
  obtain ⟨t, ht, rfl⟩ := Option.map_eq_some_iff.1 he
  simp only [setPte, ht, entry, pte]
  by_cases h1 : PDX (vp * PGSIZE) = PDX a
  · by_cases h2 : PTX (vp * PGSIZE) = PTX a
    · simp [h1, h2, ht]
    · simp [h1, h2, ht]
  · simp [h1]

/-- An entry whose replacement counts the same. -/
theorem user_setPte_same (he : d.pte a = some e) (h : e'.count = e.count) :
    (d.setPte a e').user = d.user := by
  funext f
  refine sum_congr rfl fun vp _ => ?_
  rcases entry_setPte_cases (x := e') he vp with ⟨h1, h2⟩ | h1
  · rw [h1, h2, h]
  · rw [h1]

/-- Clearing an entry, at whatever address, maps nothing more. -/
theorem user_clear_le (he : d.pte a = some e) (f : Frame) :
    (d.setPte a .zero).user f ≤ d.user f := by
  refine sum_le_sum fun vp _ => ?_
  rcases entry_setPte_cases (x := .zero) he vp with ⟨h1, -⟩ | h1
  · rw [h1]; exact Nat.zero_le _
  · rw [h1]

/-- Storing an entry in the user half changes the count by the old and the new entry. -/
theorem user_setPte (ha : a < KERNBASE) (hs : (d.pte a).isSome = true) (f : Frame) :
    (d.setPte a e).user f + (d.entry (a / PGSIZE)).count f = d.user f + e.count f := by
  have hlt : a < 2 ^ 32 := lt_trans ha (by decide)
  have hU : UPAGES ≤ 2 ^ 20 := by decide
  have hmem : a / PGSIZE ∈ range UPAGES := by
    simp only [mem_range, UPAGES, KERNBASE, PGSIZE] at ha ⊢; omega
  have hchange := sum_change (g := fun vp => (d.entry vp).count f)
    (k := fun vp => ((d.setPte a e).entry vp).count f) hmem fun vp hvp hne => by
      simp only [entry_setPte hlt (lt_of_lt_of_le (mem_range.1 hvp) hU) hs, if_neg hne]
  rw [entry_setPte hlt (lt_of_lt_of_le (mem_range.1 hmem) hU) hs, if_pos rfl] at hchange
  exact hchange

end PageDir

/-! ## `kalloc`, `kfree` and `walkpgdir` -/

section
variable {m m' : Memory} {d d' : PageDir}

/-- `kalloc` fails if the list is empty. -/
theorem kalloc_none (h : m.kalloc = (none, m')) :
    m.freelist = [] ∧ m' = { m with oom := true } := by
  unfold kalloc at h
  split at h
  · next hf => cases h; exact ⟨hf, rfl⟩
  · cases h

/-- `kalloc` takes the first frame. -/
theorem kalloc_some (h : m.kalloc = (some f, m')) :
    m.freelist = f :: m'.freelist ∧ m' = { m with freelist := m'.freelist } := by
  unfold kalloc at h
  split at h
  · cases h
  · next hf => cases h; exact ⟨hf, rfl⟩

/-- `kfree` puts the frame on the list. -/
theorem kfree_ok (h : m.kfree pa = .ok m') :
    m'.freelist = pa / PGSIZE :: m.freelist ∧ m'.shm_arr = m.shm_arr ∧ m'.used = m.used ∧
      m'.oom = m.oom := by
  unfold kfree at h
  simp only at h
  split at h
  · cases h
  · cases h; exact ⟨rfl, rfl, rfl, rfl⟩

/-- A change of memory and one page directory that only turns free frames into page tables. -/
structure Walked (m : Memory) (d : PageDir) (m' : Memory) (d' : PageDir) : Prop where
  shm_arr : m'.shm_arr = m.shm_arr
  used : m'.used = m.used
  page : m'.page = m.page
  frame : d'.frame = d.frame
  tables : ∀ f, m'.freelist.count f + d'.tables f = m.freelist.count f + d.tables f
  entry : d'.entry = d.entry
  isSome : ∀ a, (d.pte a).isSome = true → (d'.pte a).isSome = true

/-- `walkpgdir` maps no page. -/
theorem Walked.user (h : Walked m d m' d') : d'.user = d.user := by
  funext f
  simp only [PageDir.user, h.entry]

/-- What `walkpgdir` does: it fails for want of memory, or there is a page table. -/
theorem walkpgdir_spec (h : m.walkpgdir d a = (b, m', d')) :
    Walked m d m' d' ∧ (b = true → (d'.pte a).isSome = true ∧ m'.oom = m.oom) ∧
      (b = false → m.freelist = [] ∧ m'.oom = true ∧ m'.freelist = [] ∧ d' = d) := by
  unfold walkpgdir at h
  split at h
  · next t ht =>
    cases h
    exact ⟨⟨rfl, rfl, rfl, rfl, fun _ => rfl, rfl, fun _ => id⟩,
      fun _ => ⟨by simp [pte, ht], rfl⟩, nofun⟩
  next hn =>
  split at h
  · next m1 hk =>
    cases h
    obtain ⟨hf, rfl⟩ := kalloc_none hk
    exact ⟨⟨rfl, rfl, rfl, rfl, fun _ => rfl, rfl, fun _ => id⟩, nofun,
      fun _ => ⟨hf, rfl, hf, rfl⟩⟩
  next f m1 hk =>
  cases h
  obtain ⟨hf, hm⟩ := kalloc_some hk
  have hoom : m'.oom = m.oom := by rw [hm]
  refine ⟨⟨by rw [hm], by rw [hm], by rw [hm], rfl, fun g => ?_, ?_, fun b hb => ?_⟩,
    fun _ => ⟨by simp [pte], hoom⟩, nofun⟩
  · have hsum := sum_change (s := univ) (i := PDX a)
      (g := fun i => (d.pde i).elim 0 fun t => if t.frame = g then 1 else 0)
      (k := fun i => (Function.update d.pde (PDX a)
        (some { frame := f, pte := fun _ => .zero }) i).elim 0 fun t =>
          if t.frame = g then 1 else 0)
      (mem_univ _) fun i _ hi => by simp [hi]
    simp only [hn, Function.update_self, Option.elim_none, Option.elim_some] at hsum
    rw [hf, List.count_cons]
    simp only [tables, beq_iff_eq]
    omega
  · funext vp
    simp only [PageDir.entry, pte]
    rcases eq_or_ne (PDX (vp * PGSIZE)) (PDX a) with h | h
    · simp [h, hn]
    · simp [h]
  · simp only [pte, Option.isSome_map] at hb ⊢
    rcases eq_or_ne (PDX b) (PDX a) with h | h
    · simp [h]
    · simpa [h] using hb

end

end Msboss.Vm
