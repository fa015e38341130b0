import Mathlib

/-!
# Places and what they own

Places hold numbers, 0 for none, and a map says which numbers are taken. `Owners` is the invariant
of an allocator: no number is held by two places, and taken are the numbers below a bound, which are
never given away, and those that a place holds. A place may be given a number that is not taken, and
may give up the one it has.
-/

namespace Msboss

open Function

universe u

variable {ι : Type u}

/-- Numbers below `hi` are taken that are below `lo` or held by one of the places. -/
structure Owners (own : ι → ℕ) (taken : ℕ → Prop) (lo hi : ℕ) : Prop where
  pos : 0 < lo
  single : ∀ {x y : ι}, own x ≠ 0 → own x = own y → x = y
  zone : ∀ {x : ι}, own x ≠ 0 → lo ≤ own x ∧ own x < hi
  taken_iff : ∀ {b : ℕ}, b < hi → (taken b ↔ b < lo ∨ ∃ x, own x = b)

variable {own : ι → ℕ} {taken taken' : ℕ → Prop} {lo hi b : ℕ} {x : ι}

/-- What a place holds is taken. -/
theorem Owners.taken_own (h : Owners own taken lo hi) (hx : own x ≠ 0) : taken (own x) :=
  (h.taken_iff (h.zone hx).2).2 (.inr ⟨x, rfl⟩)

/-- What is not taken is held by no place. -/
theorem Owners.own_ne (h : Owners own taken lo hi) (hb : b < hi) (hfree : ¬ taken b) (x : ι) :
    own x ≠ b := by
  rintro rfl
  exact hfree ((h.taken_iff hb).2 (.inr ⟨x, rfl⟩))

theorem Owners.le_of_free (h : Owners own taken lo hi) (hb : b < hi) (hfree : ¬ taken b) :
    lo ≤ b := by
  by_contra hlt
  exact hfree ((h.taken_iff hb).2 (.inl (Nat.lt_of_not_le hlt)))

theorem Owners.congr (h : Owners own taken lo hi) (ht : ∀ c < hi, taken' c ↔ taken c) :
    Owners own taken' lo hi :=
  ⟨h.pos, h.single, h.zone, fun hb => (ht _ hb).trans (h.taken_iff hb)⟩

variable [DecidableEq ι]

/-- A place without a number is given one that is not taken. -/
theorem Owners.give (h : Owners own taken lo hi) (hx : own x = 0) (hb : b < hi)
    (hfree : ¬ taken b) (ht : ∀ c < hi, taken' c ↔ taken c ∨ c = b) :
    Owners (update own x b) taken' lo hi where
  pos := h.pos
  single {y z} hy hyz := by
    rcases eq_or_ne y x with rfl | hyx
    · rcases eq_or_ne z y with rfl | hzy
      · rfl
      · rw [update_self, update_of_ne hzy] at hyz
        exact absurd hyz.symm (h.own_ne hb hfree z)
    rw [update_of_ne hyx] at hy hyz
    rcases eq_or_ne z x with rfl | hzx
    · rw [update_self] at hyz
      exact absurd hyz (h.own_ne hb hfree y)
    · rw [update_of_ne hzx] at hyz
      exact h.single hy hyz
  zone {y} hy := by
    rcases eq_or_ne y x with rfl | hyx
    · rw [update_self]
      exact ⟨h.le_of_free hb hfree, hb⟩
    · rw [update_of_ne hyx] at hy ⊢
      exact h.zone hy
  taken_iff {c} hc := by
    rw [ht c hc, h.taken_iff hc]
    constructor
    · rintro ((hlo | ⟨y, rfl⟩) | rfl)
      · exact .inl hlo
      · rcases eq_or_ne y x with rfl | hyx
        · rw [hx]
          exact .inl h.pos
        · exact .inr ⟨y, update_of_ne hyx _ _⟩
      · exact .inr ⟨x, update_self ..⟩
    · rintro (hlo | ⟨y, rfl⟩)
      · exact .inl (.inl hlo)
      · rcases eq_or_ne y x with rfl | hyx
        · exact .inr (update_self ..)
        · exact .inl (.inr ⟨y, (update_of_ne hyx _ _).symm⟩)

/-- A place gives up what it holds. -/
theorem Owners.drop (h : Owners own taken lo hi) (hx : own x ≠ 0)
    (ht : ∀ c < hi, taken' c ↔ taken c ∧ c ≠ own x) : Owners (update own x 0) taken' lo hi := by
  have hne {y : ι} (hy : update own x 0 y ≠ 0) : y ≠ x := by
    rintro rfl
    exact hy (update_self ..)
  refine ⟨h.pos, fun {y z} hy hyz => ?_, fun {y} hy => ?_, fun {c} hc => ?_⟩
  · have hyx : y ≠ x := hne hy
    have hzx : z ≠ x := hne (by rw [← hyz]; exact hy)
    rw [update_of_ne hyx] at hy hyz
    rw [update_of_ne hzx] at hyz
    exact h.single hy hyz
  · have hyx : y ≠ x := hne hy
    rw [update_of_ne hyx] at hy ⊢
    exact h.zone hy
  · rw [ht c hc, h.taken_iff hc]
    constructor
    · rintro ⟨hlo | ⟨y, rfl⟩, hc'⟩
      · exact .inl hlo
      · have hyx : y ≠ x := fun hyx => hc' (by rw [hyx])
        exact .inr ⟨y, update_of_ne hyx _ _⟩
    · rintro (hlo | ⟨y, rfl⟩)
      · exact ⟨.inl hlo, (hlo.trans_le (h.zone hx).1).ne⟩
      · rcases eq_or_ne y x with rfl | hyx
        · rw [update_self]
          exact ⟨.inl h.pos, hx.symm⟩
        rw [update_of_ne hyx]
        rcases eq_or_ne (own y) 0 with h0 | h0
        · rw [h0]
          exact ⟨.inl h.pos, hx.symm⟩
        · exact ⟨.inr ⟨y, rfl⟩, fun heq => hyx (h.single h0 heq)⟩

end Msboss
