import Mathlib.Data.List.Basic
import Mathlib.Tactic

/-!
# Lists cut into lines

A list is cut at a separator into the pieces that end in it, its lines, and the rest after the last
one (`cut`); `join` puts lines together. `cut_append` is the rule for a list that comes in two
parts: the rest of the first is the beginning of what follows.
-/

namespace Msboss.Lines

universe u

variable {α : Type u} {sep : α} {l l' p : List α} {ps qs : List (List α)}

/-- Lines, each with its separator. -/
def join (sep : α) (ps : List (List α)) : List α := ps.flatMap (· ++ [sep])

@[simp] theorem join_nil : join sep [] = [] := rfl

@[simp] theorem join_cons : join sep (p :: ps) = p ++ sep :: join sep ps := by
  rw [join, List.flatMap_cons, List.append_assoc]
  rfl

@[simp] theorem join_append : join sep (ps ++ qs) = join sep ps ++ join sep qs :=
  List.flatMap_append

theorem length_le_length_join (sep : α) (ps : List (List α)) :
    ps.length ≤ (join sep ps).length := by
  induction ps with
  | nil => exact le_rfl
  | cons p ps ih =>
    rw [join_cons, List.length_append, List.length_cons, List.length_cons]
    omega

variable [DecidableEq α]

/-- The pieces before each separator, and the rest. -/
def cut (sep : α) : List α → List (List α) × List α
  | [] => ([], [])
  | a :: l =>
    if a = sep then ([] :: (cut sep l).1, (cut sep l).2)
    else
      match (cut sep l).1 with
      | [] => ([], a :: (cut sep l).2)
      | p :: ps => ((a :: p) :: ps, (cut sep l).2)

theorem cut_of_notMem (h : sep ∉ l) : cut sep l = ([], l) := by
  induction l with
  | nil => rfl
  | cons a l ih =>
    rw [List.mem_cons, not_or] at h
    rw [cut, if_neg (Ne.symm h.1), ih h.2]

theorem cut_line (h : sep ∉ p) : cut sep (p ++ sep :: l) = (p :: (cut sep l).1, (cut sep l).2) := by
  induction p with
  | nil => rw [List.nil_append, cut, if_pos rfl]
  | cons a p ih =>
    rw [List.mem_cons, not_or] at h
    rw [List.cons_append, cut, if_neg (Ne.symm h.1), ih h.2]

/-- What holds of a list without lines, and of a list with one line more, holds of all. -/
theorem cut_induction (sep : α) {motive : List α → Prop} (rest : ∀ l, sep ∉ l → motive l)
    (line : ∀ p l, sep ∉ p → motive l → motive (p ++ sep :: l)) (l : List α) : motive l := by
  induction hn : l.length using Nat.strong_induction_on generalizing l with
  | _ n ih =>
    by_cases h : sep ∈ l
    · obtain ⟨p, l', rfl, hp⟩ := List.eq_append_cons_of_mem h
      refine line p l' hp (ih l'.length ?_ l' rfl)
      rw [← hn, List.length_append, List.length_cons]
      omega
    · exact rest l h

theorem join_cut (sep : α) (l : List α) : join sep (cut sep l).1 ++ (cut sep l).2 = l := by
  induction l using cut_induction sep with
  | rest l h => rw [cut_of_notMem h, join_nil, List.nil_append]
  | line p l h ih => rw [cut_line h, join_cons, List.append_assoc, List.cons_append, ih]

theorem notMem_of_mem_cut (hp : p ∈ (cut sep l).1) : sep ∉ p := by
  induction l using cut_induction sep with
  | rest l h =>
    rw [cut_of_notMem h] at hp
    cases hp
  | line q l h ih =>
    rw [cut_line h] at hp
    rcases List.mem_cons.1 hp with rfl | hp
    · exact h
    · exact ih hp

theorem notMem_rest (sep : α) (l : List α) : sep ∉ (cut sep l).2 := by
  induction l using cut_induction sep with
  | rest l h => rwa [cut_of_notMem h]
  | line q l h ih => rwa [cut_line h]

theorem cut_join (h : ∀ p ∈ ps, sep ∉ p) (l : List α) :
    cut sep (join sep ps ++ l) = (ps ++ (cut sep l).1, (cut sep l).2) := by
  induction ps with
  | nil => rfl
  | cons p ps ih =>
    rw [join_cons, List.append_assoc, List.cons_append, cut_line (h p List.mem_cons_self),
      ih fun q hq => h q (List.mem_cons_of_mem p hq)]
    rfl

/-- A list that comes in two parts. -/
theorem cut_append (sep : α) (l l' : List α) : cut sep (l ++ l') =
    ((cut sep l).1 ++ (cut sep ((cut sep l).2 ++ l')).1, (cut sep ((cut sep l).2 ++ l')).2) := by
  have hjoin := join_cut sep l
  have hcut := cut_join (fun p (hp : p ∈ (cut sep l).1) => notMem_of_mem_cut hp)
    ((cut sep l).2 ++ l')
  rw [← List.append_assoc, hjoin] at hcut
  exact hcut

/-- A list without a separator in front of another one belongs to its first line. -/
theorem cut_prepend (h : sep ∉ p) (l : List α) : cut sep (p ++ l) =
    match (cut sep l).1 with
    | [] => ([], p ++ (cut sep l).2)
    | q :: qs => ((p ++ q) :: qs, (cut sep l).2) := by
  induction l using cut_induction sep with
  | rest l hl =>
    rw [cut_of_notMem hl, cut_of_notMem]
    rw [List.mem_append, not_or]
    exact ⟨h, hl⟩
  | line q l hq ih =>
    have hpq : sep ∉ p ++ q := by
      rw [List.mem_append, not_or]
      exact ⟨h, hq⟩
    rw [← List.append_assoc, cut_line hpq, cut_line hq]

theorem cut_eq_nil_iff : (cut sep l).1 = [] ↔ sep ∉ l := by
  constructor
  · intro h hmem
    obtain ⟨p, l', rfl, hp⟩ := List.eq_append_cons_of_mem hmem
    rw [cut_line hp] at h
    cases h
  · intro h
    rw [cut_of_notMem h]

/-- Lines are told apart. -/
theorem join_inj (hps : ∀ p ∈ ps, sep ∉ p) (hqs : ∀ q ∈ qs, sep ∉ q)
    (h : join sep ps = join sep qs) : ps = qs := by
  have h1 := cut_join hps []
  have h2 := cut_join hqs []
  rw [h, h2] at h1
  simpa [cut] using (congrArg Prod.fst h1).symm

end Msboss.Lines
