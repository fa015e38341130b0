import Mathlib

/-!
# Extents

Ranges `[lo, hi)` of addresses, and lists of them up to cutting a range in two and joining two
ranges that meet. Two such lists are alike if they cover each address equally often
(`Extent.cover`); a list that covers no address twice is disjoint, and lists that are alike have one
total size. -/

namespace Msboss

/-- The addresses from `lo` to below `hi`. -/
structure Extent where
  lo : Nat
  hi : Nat
  deriving DecidableEq, Repr

namespace Extent

/-- The address is in the extent. -/
def Has (e : Extent) (x : Nat) : Prop := e.lo ≤ x ∧ x < e.hi

instance (e : Extent) (x : Nat) : Decidable (e.Has x) := inferInstanceAs (Decidable (_ ∧ _))

/-- How many of the extents have the address. -/
def cover (l : List Extent) (x : Nat) : Nat := l.countP fun e => decide (e.Has x)

/-- The sizes together. -/
def total (l : List Extent) : Nat := (l.map fun e => e.hi - e.lo).sum

section
variable {l l' : List Extent} {e f : Extent} {x a b c : Nat}

@[simp] theorem cover_nil (x : Nat) : cover [] x = 0 := rfl

theorem cover_cons (e : Extent) (l : List Extent) (x : Nat) :
    cover (e :: l) x = cover l x + if e.Has x then 1 else 0 := by
  rw [cover, List.countP_cons]
  simp only [decide_eq_true_eq]
  rfl

@[simp] theorem cover_append (l l' : List Extent) (x : Nat) :
    cover (l ++ l') x = cover l x + cover l' x := List.countP_append

theorem cover_pos : 0 < cover l x ↔ ∃ e ∈ l, e.Has x := by
  simp only [cover, List.countP_pos_iff, decide_eq_true_eq]

/-- Two extents that meet are one. -/
theorem cover_join (hab : a ≤ b) (hbc : b ≤ c) (l : List Extent) (x : Nat) :
    cover (⟨a, b⟩ :: ⟨b, c⟩ :: l) x = cover (⟨a, c⟩ :: l) x := by
  have h : (if Has ⟨b, c⟩ x then 1 else 0) + (if Has ⟨a, b⟩ x then 1 else 0) =
      if Has ⟨a, c⟩ x then 1 else 0 := by
    split_ifs with h1 h2 h3 h3 h2 h3 h3 <;> simp only [Has] at * <;> omega
  rw [cover_cons, cover_cons, cover_cons, Nat.add_assoc, h]

/-- What covers no address twice is disjoint. -/
theorem pairwise_disjoint (h : ∀ x, cover l x ≤ 1) :
    l.Pairwise fun e f => ∀ x, ¬ (e.Has x ∧ f.Has x) := by
  induction l with
  | nil => exact .nil
  | cons e l ih =>
    refine .cons (fun f hf x hx => ?_) (ih fun x => ?_)
    · have hpos : 0 < cover l x := cover_pos.2 ⟨f, hf, hx.2⟩
      have hle := h x
      rw [cover_cons, if_pos hx.1] at hle
      omega
    · exact le_trans (by rw [cover_cons]; omega) (h x)

/-- Where no address is covered twice, one extent has it. -/
theorem eq_of_has (h : ∀ x, cover l x ≤ 1) (he : e ∈ l) (hf : f ∈ l) (hex : e.Has x)
    (hfx : f.Has x) : e = f := by
  induction l with
  | nil => cases he
  | cons g l ih =>
    have hg := h x
    rw [cover_cons] at hg
    have hpos : ∀ {e'}, e' ∈ l → e'.Has x → 0 < cover l x := fun he' hx => cover_pos.2 ⟨_, he', hx⟩
    obtain rfl | hel := List.mem_cons.1 he
    · obtain rfl | hfl := List.mem_cons.1 hf
      · rfl
      · have := hpos hfl hfx
        rw [if_pos hex] at hg
        omega
    · obtain rfl | hfl := List.mem_cons.1 hf
      · have := hpos hel hex
        rw [if_pos hfx] at hg
        omega
      · exact ih (fun y => le_trans (by rw [cover_cons]; omega) (h y)) hel hfl

@[simp] theorem total_append (l l' : List Extent) : total (l ++ l') = total l + total l' := by
  rw [total, List.map_append, List.sum_append]
  rfl

theorem card_has (e : Extent) {n : Nat} (h : e.hi ≤ n) :
    (∑ x ∈ Finset.range n, if e.Has x then 1 else 0) = e.hi - e.lo := by
  have hico : (Finset.range n).filter e.Has = Finset.Ico e.lo e.hi := by
    ext x
    simp only [Finset.mem_filter, Finset.mem_range, Finset.mem_Ico, Has]
    omega
  rw [← Finset.card_filter, hico, Nat.card_Ico]

theorem sum_cover {n : Nat} (h : ∀ e ∈ l, e.hi ≤ n) : ∑ x ∈ Finset.range n,
    cover l x = total l := by
  induction l with
  | nil => exact Finset.sum_const_zero
  | cons e l ih =>
    obtain ⟨he, hl⟩ := List.forall_mem_cons.1 h
    simp only [cover_cons, Finset.sum_add_distrib, ih hl, card_has e he]
    rw [total, total, List.map_cons, List.sum_cons, Nat.add_comm]

theorem exists_bound (l : List Extent) : ∃ n, ∀ e ∈ l, e.hi ≤ n := by
  induction l with
  | nil => exact ⟨0, nofun⟩
  | cons e l ih =>
    obtain ⟨n, hn⟩ := ih
    refine ⟨max e.hi n, List.forall_mem_cons.2 ⟨le_max_left _ _, fun f hf => ?_⟩⟩
    exact (hn f hf).trans (le_max_right _ _)

/-- What covers the same addresses has the same size. -/
theorem total_eq (h : ∀ x, cover l x = cover l' x) : total l = total l' := by
  obtain ⟨n, hn⟩ := exists_bound (l ++ l')
  obtain ⟨hl, hl'⟩ := List.forall_mem_append.1 hn
  rw [← sum_cover hl, ← sum_cover hl']
  exact Finset.sum_congr rfl fun x _ => h x

end

end Extent

end Msboss
