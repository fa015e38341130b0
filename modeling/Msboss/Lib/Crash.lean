import Mathlib

/-!
# Sequences of writes, cut by crashes

A program that writes a store cell by cell is, for a crash, the list of its writes in issue order:
a crash keeps a prefix of it. `Always P d ws` says that `P` holds of the store before the first
write, after the last and between any two, so of whatever a crash leaves; it is proved write by
write (`Always.cons`, `Always.append`).

`Recovered` is the store at the end of a recovery that may be cut by any number of crashes, each of
which restarts it from what is left. A condition that every cut of the recovery keeps holds when
the uncut one starts (`Recovered.induct`).
-/

namespace Msboss

open Function

variable {κ β : Type*} [DecidableEq κ]

/-- The store after the writes `ws`, in order. -/
def applyWrites : (κ → β) → List (κ × β) → κ → β
  | d, [] => d
  | d, w :: ws => applyWrites (update d w.1 w.2) ws

@[simp] theorem applyWrites_nil (d : κ → β) : applyWrites d [] = d := rfl

@[simp] theorem applyWrites_cons (d : κ → β) (w : κ × β) (ws : List (κ × β)) :
    applyWrites d (w :: ws) = applyWrites (update d w.1 w.2) ws := rfl

/-- The writes of two programs run one after the other. -/
theorem applyWrites_append (d : κ → β) (ws vs : List (κ × β)) :
    applyWrites d (ws ++ vs) = applyWrites (applyWrites d ws) vs := by
  induction ws generalizing d with
  | nil => rfl
  | cons w ws ih => exact ih _

/-- A cell that is not written keeps its contents. -/
theorem applyWrites_of_notMem {d : κ → β} {ws : List (κ × β)} {x : κ} (h : ∀ w ∈ ws, w.1 ≠ x) :
    applyWrites d ws x = d x := by
  induction ws generalizing d with
  | nil => rfl
  | cons w ws ih =>
    rw [applyWrites_cons, ih fun v hv => h v (.tail _ hv),
      update_of_ne (h w (.head _)).symm]

/-- A cell all of whose writes have the same contents has these contents afterwards. -/
theorem applyWrites_of_mem {d : κ → β} {ws : List (κ × β)} {x : κ} {v : β} (hx : (x, v) ∈ ws)
    (hv : ∀ w ∈ ws, w.1 = x → w.2 = v) : applyWrites d ws x = v := by
  induction ws generalizing d with
  | nil => cases hx
  | cons w ws ih =>
    by_cases hmem : (x, v) ∈ ws
    · exact ih hmem fun u hu => hv u (.tail _ hu)
    obtain rfl : (x, v) = w := by
      rcases List.mem_cons.1 hx with h | h
      · exact h
      · exact absurd h hmem
    rw [applyWrites_cons, applyWrites_of_notMem fun u hu hux => ?_, update_self]
    have := hv u (.tail _ hu) hux
    exact hmem (by rw [← hux, ← this]; exact hu)

/-- `P` holds of the store before, between and after the writes. -/
def Always (P : (κ → β) → Prop) : (κ → β) → List (κ × β) → Prop
  | d, [] => P d
  | d, w :: ws => P d ∧ Always P (update d w.1 w.2) ws

section
variable {P Q : (κ → β) → Prop} {d : κ → β} {ws vs : List (κ × β)}

/-- `Always` is `P` of every prefix of the writes. -/
theorem always_iff_take : Always P d ws ↔ ∀ k, P (applyWrites d (ws.take k)) := by
  induction ws generalizing d with
  | nil => simp [Always]
  | cons w ws ih =>
    rw [Always, ih]
    constructor
    · rintro ⟨h0, h1⟩ (_ | k)
      · exact h0
      · exact h1 k
    · exact fun h => ⟨h 0, fun k => h (k + 1)⟩

/-- The store after the last write. -/
theorem Always.last (h : Always P d ws) : P (applyWrites d ws) := by
  simpa using always_iff_take.1 h ws.length

/-- Two programs run one after the other. -/
theorem Always.append (h₁ : Always P d ws) (h2 : Always P (applyWrites d ws) vs) :
    Always P d (ws ++ vs) := by
  induction ws generalizing d with
  | nil => exact h2
  | cons w ws ih => exact ⟨h₁.1, ih h₁.2 h2⟩

/-- A condition kept by every single write of a program is kept by the program. -/
theorem Always.of_step (h : P d) (hs : ∀ d, P d → ∀ w ∈ ws, P (update d w.1 w.2)) :
    Always P d ws := by
  induction ws generalizing d with
  | nil => exact h
  | cons w ws ih =>
    exact ⟨h, ih (hs d h w (.head _)) fun d hd v hv => hs d hd v (.tail _ hv)⟩

end

/-- The store at the end of a recovery with the writes `recov`, started from `d` and cut by any
number of crashes. -/
inductive Recovered (recov : (κ → β) → List (κ × β)) : (κ → β) → (κ → β) → Prop
  | finish (d : κ → β) : Recovered recov d (applyWrites d (recov d))
  | crash {d d' : κ → β} (k : Nat) :
      Recovered recov (applyWrites d ((recov d).take k)) d' → Recovered recov d d'

/-- A recovery that keeps `P` through all its writes ends as its uncut run from `P` does. -/
theorem Recovered.induct {recov : (κ → β) → List (κ × β)} {P Q : (κ → β) → Prop}
    (hcut : ∀ d, P d → Always P d (recov d)) (hend : ∀ d, P d → Q (applyWrites d (recov d)))
    {d d' : κ → β} (h : Recovered recov d d') (hd : P d) : Q d' := by
  induction h with
  | finish d => exact hend d hd
  | crash k _ ih => exact ih (always_iff_take.1 (hcut _ hd) k)

end Msboss
