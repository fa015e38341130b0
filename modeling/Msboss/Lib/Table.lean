import Mathlib

/-!
# Search in a table

A table is a function from a range of indices, and a loop over it stops at the first entry that
meets a test.
-/

namespace Msboss

variable {n : ℕ} {p : Fin n → Bool}

/-- The search stops at the first entry that meets the test. -/
theorem find?_finRange_eq_some {i : Fin n} :
    (List.finRange n).find? p = some i ↔ p i = true ∧ ∀ j < i, p j = false := by
  rw [List.find?_eq_some_iff_getElem]
  constructor
  · rintro ⟨hp, k, hk, hki, hlt⟩
    have hi : i.val = k := by
      rw [← hki]
      simp
    refine ⟨hp, fun j hj => ?_⟩
    have := hlt j.val (by rw [← hi]; exact hj)
    simpa using this
  · rintro ⟨hp, hlt⟩
    refine ⟨hp, i.val, by simp, by simp, fun j hj => ?_⟩
    have := hlt ⟨j, hj.trans i.isLt⟩ hj
    simpa using this

/-- The search finds nothing if no entry meets the test. -/
theorem find?_finRange_eq_none : (List.finRange n).find? p = none ↔ ∀ j, p j = false := by
  simp [List.find?_eq_none]

end Msboss
