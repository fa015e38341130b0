import Mathlib

/-!
# Tables of slots

A table has `n` slots, some of them with a key and a value, in no order. As long as the keys are
distinct (`Distinct`), the table is a map: the search for a key finds its only slot
(`find_eq_some_iff`). To fill a slot that is empty, or the one after the last, adds a key to the
map, to empty a slot takes its key out, and the slots of all other keys are as before
(`Put.find_insert`, `Put.find_remove`). -/

namespace Msboss.Slots

variable {K V : Type*} {r r' : ℕ → Option (K × V)} {n n' i : ℕ} {k : K} {v : V}

/-- No key is in two slots. -/
def Distinct (r : ℕ → Option (K × V)) (n : ℕ) : Prop :=
  ∀ i < n, ∀ j < n, ∀ k v w, r i = some (k, v) → r j = some (k, w) → i = j

/-- The slot `i`, one of `n` or the next, is given the contents `e`. -/
structure Put (r : ℕ → Option (K × V)) (n i : ℕ) (e : Option (K × V)) (r' : ℕ → Option (K × V))
    (n' : ℕ) : Prop where
  le : i ≤ n
  count : n' = max n (i + 1)
  self : r' i = e
  other : ∀ j < n, j ≠ i → r' j = r j

theorem Put.lt {e : Option (K × V)} (h : Put r n i e r' n') : i < n' := by
  have := h.count
  omega

/-- What is in the table afterwards. -/
theorem Put.eq_some_iff {e : Option (K × V)} (h : Put r n i e r' n') {j : ℕ} {x : K × V} :
    j < n' ∧ r' j = some x ↔ (j = i ∧ e = some x) ∨ (j ≠ i ∧ j < n ∧ r j = some x) := by
  have hle := h.le
  have hcount := h.count
  rcases eq_or_ne j i with rfl | hne
  · simp [h.self, h.lt]
  have hlt : j < n' ↔ j < n := by omega
  rw [hlt]
  constructor
  · rintro ⟨hj, hr⟩
    rw [h.other j hj hne] at hr
    exact .inr ⟨hne, hj, hr⟩
  · rintro (⟨rfl, -⟩ | ⟨-, hj, hr⟩)
    · exact absurd rfl hne
    · exact ⟨hj, (h.other j hj hne).trans hr⟩

/-- A new key is put into the table. -/
theorem Put.distinct_insert (h : Put r n i (some (k, v)) r' n') (hd : Distinct r n)
    (hk : ∀ j < n, ∀ w, r j ≠ some (k, w)) : Distinct r' n' := by
  intro a ha b hb k' v' w' hra hrb
  rcases h.eq_some_iff.1 ⟨ha, hra⟩ with ⟨rfl, he⟩ | ⟨-, ha, hra⟩ <;>
    rcases h.eq_some_iff.1 ⟨hb, hrb⟩ with ⟨rfl, he'⟩ | ⟨-, hb, hrb⟩
  · rfl
  · cases he
    exact absurd hrb (hk b hb w')
  · cases he'
    exact absurd hra (hk a ha v')
  · exact hd a ha b hb k' v' w' hra hrb

/-- A slot is emptied. -/
theorem Put.distinct_remove (h : Put r n i none r' n') (hd : Distinct r n) : Distinct r' n' := by
  intro a ha b hb k' v' w' hra hrb
  rcases h.eq_some_iff.1 ⟨ha, hra⟩ with ⟨-, he⟩ | ⟨-, ha, hra⟩
  · cases he
  rcases h.eq_some_iff.1 ⟨hb, hrb⟩ with ⟨-, he⟩ | ⟨-, hb, hrb⟩
  · cases he
  exact hd a ha b hb k' v' w' hra hrb

variable [DecidableEq K]

/-- The first slot with the key. -/
def find (r : ℕ → Option (K × V)) (n : ℕ) (k : K) : Option ℕ :=
  (List.range n).find? fun i => (r i).map Prod.fst = some k

theorem find_some (h : find r n k = some i) : i < n ∧ ∃ v, r i = some (k, v) := by
  have hp : (r i).map Prod.fst = some k := by simpa using List.find?_some h
  obtain ⟨⟨k', v⟩, hr, rfl⟩ := Option.map_eq_some_iff.1 hp
  exact ⟨List.mem_range.1 (List.mem_of_find?_eq_some h), v, hr⟩

theorem find_eq_none_iff : find r n k = none ↔ ∀ i < n, ∀ v, r i ≠ some (k, v) := by
  unfold find
  rw [List.find?_eq_none]
  constructor
  · intro h i hi v hr
    refine h i (List.mem_range.2 hi) ?_
    simp [hr]
  · intro h i hi hp
    have hp : (r i).map Prod.fst = some k := by simpa using hp
    obtain ⟨⟨k', v⟩, hr, rfl⟩ := Option.map_eq_some_iff.1 hp
    exact h i (List.mem_range.1 hi) v hr

/-- The search finds the only slot with the key. -/
theorem find_eq_some_iff (hd : Distinct r n) :
    find r n k = some i ↔ i < n ∧ ∃ v, r i = some (k, v) := by
  refine ⟨find_some, ?_⟩
  rintro ⟨hi, v, hr⟩
  cases hf : find r n k with
  | none => exact absurd hr (find_eq_none_iff.1 hf i hi v)
  | some j =>
    obtain ⟨hj, w, hw⟩ := find_some hf
    rw [hd j hj i hi k w v hw hr]

/-- All other keys are where they were. -/
theorem Put.find_insert (h : Put r n i (some (k, v)) r' n') (hd : Distinct r n)
    (hk : find r n k = none) (hi : i = n ∨ r i = none) (k' : K) :
    find r' n' k' = if k' = k then some i else find r n k' := by
  have hd' := h.distinct_insert hd (find_eq_none_iff.1 hk)
  split
  · next heq =>
    rw [heq]
    exact (find_eq_some_iff hd').2 ⟨h.lt, v, h.self⟩
  next hne =>
  ext j
  rw [find_eq_some_iff hd, find_eq_some_iff hd']
  constructor
  · rintro ⟨hj, w, hw⟩
    rcases h.eq_some_iff.1 ⟨hj, hw⟩ with ⟨-, he⟩ | ⟨-, hj, hw⟩
    · cases he
      exact absurd rfl hne
    · exact ⟨hj, w, hw⟩
  · rintro ⟨hj, w, hw⟩
    have hji : j ≠ i := by
      rintro rfl
      rcases hi with rfl | hi
      · exact Nat.lt_irrefl _ hj
      · rw [hi] at hw
        cases hw
    obtain ⟨hj', hw'⟩ := h.eq_some_iff.2 (.inr ⟨hji, hj, hw⟩)
    exact ⟨hj', w, hw'⟩

theorem Put.find_remove (h : Put r n i none r' n') (hd : Distinct r n) (hk : find r n k = some i)
    (k' : K) : find r' n' k' = if k' = k then none else find r n k' := by
  have hd' := h.distinct_remove hd
  obtain ⟨hi, v, hv⟩ := find_some hk
  split
  · next heq =>
    rw [heq, find_eq_none_iff]
    intro j hj w hw
    rcases h.eq_some_iff.1 ⟨hj, hw⟩ with ⟨-, he⟩ | ⟨hne, hj, hw⟩
    · cases he
    · exact hne (hd j hj i hi k w v hw hv)
  next hne =>
  ext j
  rw [find_eq_some_iff hd, find_eq_some_iff hd']
  constructor
  · rintro ⟨hj, w, hw⟩
    rcases h.eq_some_iff.1 ⟨hj, hw⟩ with ⟨-, he⟩ | ⟨-, hj, hw⟩
    · cases he
    · exact ⟨hj, w, hw⟩
  · rintro ⟨hj, w, hw⟩
    have hji : j ≠ i := by
      rintro rfl
      rw [hv] at hw
      cases hw
      exact hne rfl
    obtain ⟨hj', hw'⟩ := h.eq_some_iff.2 (.inr ⟨hji, hj, hw⟩)
    exact ⟨hj', w, hw'⟩

end Msboss.Slots
