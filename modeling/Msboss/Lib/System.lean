import Mathlib

/-!
# Transition systems and their invariants

A component is a set of initial states and a labelled step relation; `System.Reach` is what its
runs can arrive at, and `System.Reach.invariant` the induction every safety proof here goes
through. `System.restrict` keeps the runs all of whose steps meet a condition on the state before
the step and its label: a property that fails on the whole system is stated on such runs.

A component that is executable is given by a partial function `next`, and `System.ofNext` is the
system of that function. A concrete run is then evaluated (`runFrom`) and turned into a
reachability fact (`System.exists_reach`).
-/

namespace Msboss

universe u v

/-- A labelled transition system. -/
structure System (σ : Type u) (α : Type v) where
  /-- The states a run may start in. -/
  init : σ → Prop
  /-- The states one step with a given label may lead to. -/
  step : σ → α → σ → Prop

namespace System

variable {σ : Type u} {α : Type v}

/-- The states the runs of `S` arrive at. -/
inductive Reach (S : System σ α) : σ → Prop
  | init {s : σ} : S.init s → S.Reach s
  | step {s s' : σ} {a : α} : S.Reach s → S.step s a s' → S.Reach s'

/-- The runs of `S` whose steps all meet `G` in the state before them. -/
def restrict (S : System σ α) (G : σ → α → Prop) : System σ α where
  init := S.init
  step s a s' := G s a ∧ S.step s a s'

/-- What holds initially and is kept by every step holds in every state reached. -/
theorem Reach.invariant {S : System σ α} {I : σ → Prop} (h0 : ∀ s, S.init s → I s)
    (hs : ∀ s a s', I s → S.step s a s' → I s') {s : σ} (h : S.Reach s) : I s := by
  induction h with
  | init hi => exact h0 _ hi
  | step _ hst ih => exact hs _ _ _ ih hst

/-- The runs of a system with fewer steps. -/
theorem Reach.mono {S T : System σ α} (hi : ∀ s, S.init s → T.init s)
    (hs : ∀ s a s', S.step s a s' → T.step s a s') {s : σ} (h : S.Reach s) : T.Reach s := by
  induction h with
  | init h0 => exact .init (hi _ h0)
  | step _ hst ih => exact .step ih (hs _ _ _ hst)

/-- A restricted run is a run. -/
theorem Reach.of_restrict {S : System σ α} {G : σ → α → Prop} {s : σ}
    (h : (S.restrict G).Reach s) : S.Reach s := by
  refine h.mono ?_ ?_
  · exact fun _ hi => hi
  · exact fun _ _ _ hst => hst.2

/-- The system of an executable step function: `none` is a label that is not enabled. -/
def ofNext (init : σ → Prop) (next : σ → α → Option σ) : System σ α where
  init := init
  step s a s' := next s a = some s'

/-- `s'` is where the labels `as` lead from `s`, all of them enabled and meeting `G`. -/
def runFrom (next : σ → α → Option σ) (G : σ → α → Bool) : σ → List α → Option σ
  | s, [] => some s
  | s, a :: as => if G s a then (next s a).bind fun s' => runFrom next G s' as else none

/-- An evaluated run is a run of the system, restricted to the condition it was evaluated
under. -/
theorem Reach.of_runFrom {init : σ → Prop} {next : σ → α → Option σ} {G : σ → α → Prop}
    {B : σ → α → Bool} (hB : ∀ s a, B s a = true → G s a) :
    ∀ {as : List α} {s s' : σ}, ((ofNext init next).restrict G).Reach s →
      runFrom next B s as = some s' → ((ofNext init next).restrict G).Reach s'
  | [], s, s', h, hr => by
    simp only [runFrom, Option.some.injEq] at hr
    exact hr ▸ h
  | a :: as, s, s', h, hr => by
    simp only [runFrom] at hr
    split at hr
    · next hg =>
      obtain ⟨s1, h1, h2⟩ := Option.bind_eq_some_iff.1 hr
      exact Reach.of_runFrom hB (.step h ⟨hB _ _ hg, h1⟩) h2
    · cases hr

/-- A run of the system restricted to `G` that was evaluated to end where `Q` holds. -/
theorem exists_reach (S : System σ α) (G : σ → α → Prop) [∀ s a, Decidable (G s a)]
    (next : σ → α → Option σ) (s : σ) (l : List α) {Q : σ → Prop} [DecidablePred Q]
    (hS : S = ofNext S.init next) (hi : S.init s)
    (h : (runFrom next (fun s a => decide (G s a)) s l).any (fun s' => decide (Q s')) = true) :
    ∃ s', (S.restrict G).Reach s' ∧ Q s' := by
  obtain ⟨hsome, hq⟩ := (Option.any_eq_true_iff_get _ _).1 h
  rw [hS]
  refine ⟨_, ?_, of_decide_eq_true hq⟩
  exact .of_runFrom (fun _ _ hg => of_decide_eq_true hg) (.init hi) (Option.some_get hsome).symm

/-- A run that was evaluated to end where `Q` holds. -/
theorem exists_run (S : System σ α) (next : σ → α → Option σ) (s : σ) (l : List α)
    {Q : σ → Prop} [DecidablePred Q] (hS : S = ofNext S.init next) (hi : S.init s)
    (h : (runFrom next (fun _ _ => true) s l).any (fun s' => decide (Q s')) = true) :
    ∃ s', S.Reach s' ∧ Q s' := by
  obtain ⟨s', hr, hq⟩ := S.exists_reach (fun _ _ => True) next s l hS hi (by simpa using h)
  exact ⟨s', hr.of_restrict, hq⟩

end System

end Msboss
