import Mathlib

/-!
# How a stateful computation ends

Rules for computations that read and write a state and may stop without a result. `Ends m s Q E`
says that `m`, run from `s`, returns with `Q` or stops with `E`; `Ends.bind` follows the code, and
the `ends_` lemmas run what only reads or writes the state. `Leaves m s Q E` is the same for
computations that stop in a state, which `E` is then about.
-/

namespace Msboss

universe u

variable {σ ε α β : Type u}

/-- Run from `s`, `m` returns a value and a state that meet `Q`, or stops for a reason that
meets `E`. -/
def Ends (m : StateT σ (Except ε) α) (s : σ) (Q : α → σ → Prop) (E : ε → Prop) : Prop :=
  match m s with
  | .ok (a, s') => Q a s'
  | .error e => E e

variable {m : StateT σ (Except ε) α} {f : α → StateT σ (Except ε) β} {s : σ} {E : ε → Prop}
  {Q : β → σ → Prop}

theorem Ends.bind {R : α → σ → Prop} (h : Ends m s R E)
    (hf : ∀ a s', R a s' → Ends (f a) s' Q E) : Ends (m >>= f) s Q E := by
  unfold Ends at h ⊢
  change match (m s).bind fun p => f p.1 p.2 with
    | .ok (a, s') => Q a s'
    | .error e => E e
  cases hm : m s with
  | error e => rw [hm] at h; exact h
  | ok p =>
    rw [hm] at h
    exact hf _ _ h

theorem Ends.mono {Q Q' : α → σ → Prop} {E' : ε → Prop} (h : Ends m s Q E)
    (hQ : ∀ a s', Q a s' → Q' a s') (hE : ∀ e, E e → E' e) : Ends m s Q' E' := by
  unfold Ends at h ⊢
  cases hm : m s with
  | error e => rw [hm] at h; exact hE _ h
  | ok p => rw [hm] at h; exact hQ _ _ h

/-- What a computation that returns leaves. -/
theorem Ends.of_ok {Q : α → σ → Prop} (h : Ends m s Q E) {a : α} {s' : σ}
    (hm : m s = .ok (a, s')) : Q a s' := by
  unfold Ends at h
  rwa [hm] at h

/-- Why a computation that stops does so. -/
theorem Ends.of_error {Q : α → σ → Prop} (h : Ends m s Q E) {e : ε} (hm : m s = .error e) :
    E e := by
  unfold Ends at h
  rwa [hm] at h

/-- Code that stops nowhere returns. -/
theorem Ends.exists_ok {Q : α → σ → Prop} (h : Ends m s Q fun _ => False) :
    ∃ a s', m s = .ok (a, s') ∧ Q a s' := by
  unfold Ends at h
  cases hm : m s with
  | ok r =>
    rw [hm] at h
    exact ⟨r.1, r.2, rfl, h⟩
  | error e =>
    rw [hm] at h
    exact h.elim

/-- The result of a computation is not used. -/
theorem ends_discard {Q : σ → Prop} (h : Ends m s (fun _ s' => Q s') E) :
    Ends (discard m) s (fun _ s' => Q s') E :=
  h.bind (β := PUnit) (f := fun _ => pure ⟨⟩) (Q := fun _ s' => Q s') fun _ _ h' => h'

/-- A function is applied to the result. -/
theorem Ends.map {g : α → β} (h : Ends m s (fun a => Q (g a)) E) : Ends (g <$> m) s Q E := by
  unfold Ends at h ⊢
  change match (m s).map fun p => (g p.1, p.2) with
    | .ok (a, s') => Q a s'
    | .error e => E e
  cases hm : m s with
  | error e => rw [hm] at h; exact h
  | ok p => rw [hm] at h; exact h

@[simp] theorem ends_pure {a : α} {Q : α → σ → Prop} :
    Ends (pure a : StateT σ (Except ε) α) s Q E ↔ Q a s := Iff.rfl

@[simp] theorem ends_get_bind {g : σ → StateT σ (Except ε) β} :
    Ends ((get : StateT σ (Except ε) σ) >>= g) s Q E ↔ Ends (g s) s Q E := Iff.rfl

@[simp] theorem ends_modify_bind {t : σ → σ} {g : PUnit → StateT σ (Except ε) β} :
    Ends ((modify t : StateT σ (Except ε) PUnit) >>= g) s Q E ↔ Ends (g ⟨⟩) (t s) Q E := Iff.rfl

@[simp] theorem ends_modify {t : σ → σ} {Q : PUnit → σ → Prop} :
    Ends (modify t : StateT σ (Except ε) PUnit) s Q E ↔ Q ⟨⟩ (t s) := Iff.rfl

/-! ## Computations that stop in a state -/

/-- Run from `s`, `m` returns a value and a state that meet `Q`, or stops for a reason and in a
state that meet `E`. -/
def Leaves (m : EStateM ε σ α) (s : σ) (Q : α → σ → Prop) (E : ε → σ → Prop) : Prop :=
  match m s with
  | .ok a s' => Q a s'
  | .error e s' => E e s'

section
variable {m : EStateM ε σ α} {f : α → EStateM ε σ β} {s : σ} {E : ε → σ → Prop} {Q : β → σ → Prop}

theorem leaves_bind : Leaves (m >>= f) s Q E ↔ Leaves m s (fun a s' => Leaves (f a) s' Q E) E := by
  unfold Leaves
  change (match EStateM.bind m f s with
    | .ok a s' => Q a s'
    | .error e s' => E e s') ↔ _
  unfold EStateM.bind
  cases m s with
  | ok a s' => rfl
  | error e s' => rfl

theorem Leaves.mono {Q Q' : α → σ → Prop} {E' : ε → σ → Prop} (h : Leaves m s Q E)
    (hQ : ∀ a s', Q a s' → Q' a s') (hE : ∀ e s', E e s' → E' e s') : Leaves m s Q' E' := by
  unfold Leaves at h ⊢
  cases hm : m s with
  | ok a s' => rw [hm] at h; exact hQ _ _ h
  | error e s' => rw [hm] at h; exact hE _ _ h

theorem Leaves.bind {R : α → σ → Prop} (h : Leaves m s R E)
    (hf : ∀ a s', R a s' → Leaves (f a) s' Q E) : Leaves (m >>= f) s Q E :=
  leaves_bind.2 (h.mono hf fun _ _ => id)

/-- Code that stops nowhere returns. -/
theorem Leaves.exists_ok {Q : α → σ → Prop} (h : Leaves m s Q fun _ _ => False) :
    ∃ a s', m s = .ok a s' ∧ Q a s' := by
  unfold Leaves at h
  cases hm : m s with
  | ok a s' =>
    rw [hm] at h
    exact ⟨a, s', rfl, h⟩
  | error e s' =>
    rw [hm] at h
    exact h.elim

@[simp] theorem leaves_pure {a : α} {Q : α → σ → Prop} :
    Leaves (pure a : EStateM ε σ α) s Q E ↔ Q a s := Iff.rfl

@[simp] theorem leaves_get_bind {g : σ → EStateM ε σ β} :
    Leaves ((get : EStateM ε σ σ) >>= g) s Q E ↔ Leaves (g s) s Q E := Iff.rfl

@[simp] theorem leaves_modify_bind {t : σ → σ} {g : PUnit → EStateM ε σ β} :
    Leaves ((modify t : EStateM ε σ PUnit) >>= g) s Q E ↔ Leaves (g ⟨⟩) (t s) Q E := Iff.rfl

/-- Two accounts of one run. -/
theorem Leaves.and {Q Q' : α → σ → Prop} {E' : ε → σ → Prop} (h : Leaves m s Q E)
    (h' : Leaves m s Q' E') :
    Leaves m s (fun a s' => Q a s' ∧ Q' a s') fun e s' => E e s' ∧ E' e s' := by
  unfold Leaves at h h' ⊢
  cases hm : m s with
  | ok a s' => rw [hm] at h h'; exact ⟨h, h'⟩
  | error e s' => rw [hm] at h h'; exact ⟨h, h'⟩

/-- Two accounts of one run that do not fit together. -/
theorem Leaves.absurd {Q Q' : α → σ → Prop} {E' : ε → σ → Prop} (h : Leaves m s Q E)
    (h' : Leaves m s Q' E') (hQ : ∀ a s', Q a s' → ¬ Q' a s') (hE : ∀ e s', E e s' → ¬ E' e s') :
    False := by
  have hand := h.and h'
  unfold Leaves at hand
  cases hm : m s with
  | ok a s' => rw [hm] at hand; exact hQ _ _ hand.1 hand.2
  | error e s' => rw [hm] at hand; exact hE _ _ hand.1 hand.2

/-- However `m` ends, it does so in a state that meets `P`. -/
def Stays (m : EStateM ε σ α) (s : σ) (P : σ → Prop) : Prop := Leaves m s (fun _ => P) fun _ => P

variable {P : σ → Prop}

theorem Stays.bind (h : Stays m s P) (hf : ∀ a s', P s' → Stays (f a) s' P) :
    Stays (m >>= f) s P := Leaves.bind h hf

@[simp] theorem stays_get_bind {g : σ → EStateM ε σ β} :
    Stays ((get : EStateM ε σ σ) >>= g) s P ↔ Stays (g s) s P := Iff.rfl

@[simp] theorem stays_modify_bind {t : σ → σ} {g : PUnit → EStateM ε σ β} :
    Stays ((modify t : EStateM ε σ PUnit) >>= g) s P ↔ Stays (g ⟨⟩) (t s) P := Iff.rfl

end

end Msboss
