import Mathlib

/-!
# Tallies

Resources are counted: a component has so many of each, and a step that moves them changes the
count at one place. `sum_change` is how a sum follows such a step; it is stated without subtraction,
so that `omega` can use it. `two_le_sum` is how a sum tells that something is there twice.

The steps are partial functions with an outcome in `Except`; `bind_eq_ok` and `bind_ne_error` take a
sequence of them apart.
-/

namespace Msboss

universe u v

/-- A sum whose terms change at one index only. -/
theorem sum_change {ι : Type*} [DecidableEq ι] {s : Finset ι} {g k : ι → ℕ} {i : ι} (hi : i ∈ s)
    (h : ∀ j ∈ s, j ≠ i → k j = g j) : ∑ j ∈ s, k j + g i = ∑ j ∈ s, g j + k i := by
  rw [← Finset.add_sum_erase s k hi, ← Finset.add_sum_erase s g hi]
  have : ∑ j ∈ s.erase i, k j = ∑ j ∈ s.erase i, g j :=
    Finset.sum_congr rfl fun j hj => h j (Finset.mem_of_mem_erase hj) (Finset.ne_of_mem_erase hj)
  omega

/-- A number of things, when one of them changes. -/
theorem card_change {ι : Type*} [Fintype ι] [DecidableEq ι] {g k : ι → Prop} [DecidablePred g]
    [DecidablePred k] {i : ι} (h : ∀ j, j ≠ i → (k j ↔ g j)) :
    (Finset.univ.filter k).card + (if g i then 1 else 0) =
      (Finset.univ.filter g).card + if k i then 1 else 0 := by
  have hchange := sum_change (s := Finset.univ) (i := i) (g := fun j => if g j then 1 else 0)
    (k := fun j => if k j then 1 else 0) (Finset.mem_univ i) fun j _ hj => by simp only [h j hj]
  simpa only [Finset.card_filter] using hchange

/-- Two terms of a sum. -/
theorem two_le_sum {ι : Type*} [DecidableEq ι] {s : Finset ι} {g : ι → ℕ} {i j : ι} (hi : i ∈ s)
    (hj : j ∈ s) (hij : i ≠ j) (h1 : 1 ≤ g i) (h2 : 1 ≤ g j) : 2 ≤ ∑ k ∈ s, g k := by
  have hsub : {i, j} ⊆ s := Finset.insert_subset hi (Finset.singleton_subset_iff.2 hj)
  have := Finset.sum_le_sum_of_subset (f := g) hsub
  rw [Finset.sum_pair hij] at this
  omega

/-- A sequence of two steps succeeds when both do. -/
theorem bind_eq_ok {ε : Type u} {α β : Type v} {x : Except ε α} {f : α → Except ε β} {b : β} :
    (x >>= f) = .ok b ↔ ∃ a, x = .ok a ∧ f a = .ok b := by
  cases x with
  | error e => exact ⟨nofun, nofun⟩
  | ok a => exact ⟨fun h => ⟨a, rfl, h⟩, fun ⟨_, ha, h⟩ => by cases ha; exact h⟩

/-- A sequence of two steps ends in an error only if one of them does. -/
theorem bind_ne_error {ε : Type u} {α β : Type v} {x : Except ε α} {f : α → Except ε β} {e : ε}
    (hx : x ≠ .error e) (hf : ∀ a, x = .ok a → f a ≠ .error e) : (x >>= f) ≠ .error e := by
  cases x with
  | error e' => exact fun h => hx (by cases h; rfl)
  | ok a => exact hf a rfl

end Msboss
