import Mathlib

/-!
# Circular doubly linked lists

A list that is kept in two pointers of each element, with a head that closes the circle.
`Circular.Spells` relates the pointers to the list of the elements; what the code does with pointers
is proved to be an operation on that list once: a search along `next` or `prev`
(`Spells.search_next`, `Spells.search_prev`), taking an element out (`Spells.remove`) and putting
one behind the head (`Spells.insert`).
-/

namespace Msboss

open Function

universe u

/-- The pointers of the elements and of the head, which is `none`. -/
structure Circular (β : Type u) where
  next : Option β → Option β
  prev : Option β → Option β

namespace Circular

section
variable {β : Type u} [DecidableEq β]

def setNext (C : Circular β) (x y : Option β) : Circular β :=
  { C with next := update C.next x y }

def setPrev (C : Circular β) (x y : Option β) : Circular β :=
  { C with prev := update C.prev x y }

/-- `b->next->prev = b->prev; b->prev->next = b->next`. -/
def remove (C : Circular β) (b : β) : Circular β :=
  let C := C.setPrev (C.next (some b)) (C.prev (some b))
  C.setNext (C.prev (some b)) (C.next (some b))

/-- `b->next = head.next; b->prev = &head; head.next->prev = b; head.next = b`. -/
def insert (C : Circular β) (b : β) : Circular β :=
  let C := C.setNext (some b) (C.next none)
  let C := C.setPrev (some b) none
  let C := C.setPrev (C.next none) (some b)
  C.setNext none (some b)

end

variable {β : Type u}

/-- The first element from `x` on that meets `p`, following the pointers `f` to the head; not found
within `n` steps is `none`. -/
def search (f : Option β → Option β) (p : β → Bool) : Nat → Option β → Option (Option β)
  | 0, _ => none
  | _ + 1, none => some none
  | n + 1, some b => if p b then some (some b) else search f p n (f (some b))

/-- The elements between `x` and `z` are `l`. -/
def Path (C : Circular β) : Option β → List β → Option β → Prop
  | x, [], z => C.next x = z ∧ C.prev z = x
  | x, b :: l, z => C.next x = some b ∧ C.prev (some b) = x ∧ C.Path (some b) l z

/-- The circle is the head and `l`, and no element is in it twice. -/
structure Spells (C : Circular β) (l : List β) : Prop where
  path : C.Path none l none
  nodup : l.Nodup

variable {C C' : Circular β} {x y z : Option β} {b : β} {l l1 l2 : List β}

/-- Only the pointers between `x` and `z` matter. -/
theorem Path.congr (h : C.Path x l z) (hx : C'.next x = C.next x) (hz : C'.prev z = C.prev z)
    (hl : ∀ c ∈ l, C'.next (some c) = C.next (some c) ∧ C'.prev (some c) = C.prev (some c)) :
    C'.Path x l z := by
  induction l generalizing x with
  | nil => exact ⟨hx.trans h.1, hz.trans h.2⟩
  | cons b l ih =>
    have hb := hl b List.mem_cons_self
    exact ⟨hx.trans h.1, hb.2.trans h.2.1,
      ih h.2.2 hb.1 fun c hc => hl c (List.mem_cons_of_mem _ hc)⟩

theorem Path.concat (h : C.Path x l (some b)) (hn : C.next (some b) = z) (hp : C.prev z = some b) :
    C.Path x (l ++ [b]) z := by
  induction l generalizing x with
  | nil => exact ⟨h.1, h.2, hn, hp⟩
  | cons c l ih => exact ⟨h.1, h.2.1, ih h.2.2⟩

/-- The other way round. -/
theorem Path.reverse (h : C.Path x l z) : Path ⟨C.prev, C.next⟩ z l.reverse x := by
  induction l generalizing x with
  | nil => exact ⟨h.2, h.1⟩
  | cons b l ih =>
    rw [List.reverse_cons]
    exact (ih h.2.2).concat h.2.1 h.1

/-! ## Searches -/

theorem Path.search (h : C.Path x l none) (p : β → Bool) {n : Nat} (hn : l.length < n) :
    search C.next p n (C.next x) = some (l.find? p) := by
  induction l generalizing x n with
  | nil =>
    obtain ⟨n, rfl⟩ := Nat.exists_eq_add_of_lt hn
    rw [h.1]
    rfl
  | cons b l ih =>
    cases n with
    | zero => cases hn
    | succ n =>
      rw [h.1, Circular.search, List.find?_cons, ih h.2.2 (Nat.lt_of_succ_lt_succ hn)]
      cases p b <;> rfl

theorem Spells.search_next (h : C.Spells l) (p : β → Bool) {n : Nat} (hn : l.length < n) :
    search C.next p n (C.next none) = some (l.find? p) :=
  h.path.search p hn

theorem Spells.search_prev (h : C.Spells l) (p : β → Bool) {n : Nat} (hn : l.length < n) :
    search C.prev p n (C.prev none) = some (l.reverse.find? p) :=
  h.path.reverse.search p (by rwa [List.length_reverse])

/-! ## Changes -/

/-- The neighbours of an element are on its two sides. -/
theorem Path.neighbours (h : C.Path x (l1 ++ b :: l2) z) :
    (C.prev (some b) = x ∨ ∃ a ∈ l1, C.prev (some b) = some a) ∧
      (C.next (some b) = z ∨ ∃ c ∈ l2, C.next (some b) = some c) := by
  induction l1 generalizing x with
  | nil =>
    refine ⟨.inl h.2.1, ?_⟩
    cases l2 with
    | nil => exact .inl h.2.2.1
    | cons c l2 => exact .inr ⟨c, List.mem_cons_self, h.2.2.1⟩
  | cons a l1 ih =>
    obtain ⟨hprev, hnext⟩ := ih h.2.2
    refine ⟨.inr ?_, hnext⟩
    rcases hprev with hprev | ⟨c, hc, hprev⟩
    · exact ⟨a, List.mem_cons_self, hprev⟩
    · exact ⟨c, List.mem_cons_of_mem _ hc, hprev⟩

section
variable [DecidableEq β]

theorem remove_eq (h : C.next (some b) ≠ some b) :
    C.remove b = ⟨update C.next (C.prev (some b)) (C.next (some b)),
      update C.prev (C.next (some b)) (C.prev (some b))⟩ := by
  simp only [remove, setNext, setPrev, update_of_ne h.symm]

theorem Path.remove (h : C.Path x (l1 ++ b :: l2) none) (hnodup : (l1 ++ b :: l2).Nodup)
    (hx : ∀ a ∈ l1 ++ b :: l2, x ≠ some a) (hb : C.next (some b) ≠ some b) :
    (C.remove b).Path x (l1 ++ l2) none := by
  induction l1 generalizing x with
  | nil =>
    obtain ⟨hnext, hprev, hrest⟩ := h
    rw [remove_eq hb, hprev]
    cases l2 with
    | nil =>
      rw [hrest.1]
      simp [Path]
    | cons c l2 =>
      rw [hrest.1]
      refine ⟨by simp, by simp, hrest.2.2.congr ?_ (by simp) fun d hd => ?_⟩
      · simp [(hx c (by simp)).symm]
      · have hdc : d ≠ c := by
          rintro rfl
          exact (List.nodup_cons.1 (List.nodup_cons.1 hnodup).2).1 hd
        simp [(hx d (by simp [hd])).symm, hdc]
  | cons a l1 ih =>
    obtain ⟨hnext, hprev, hrest⟩ := h
    obtain ⟨ha, hnodup⟩ := List.nodup_cons.1 hnodup
    have hpath := ih hrest hnodup fun d hd heq => ha (Option.some.inj heq ▸ hd)
    refine ⟨?_, ?_, hpath⟩ <;> rw [remove_eq hb]
    · refine (update_of_ne ?_ _ _).trans hnext
      rcases hrest.neighbours.1 with heq | ⟨d, hd, heq⟩ <;> rw [heq]
      · exact hx a List.mem_cons_self
      · exact hx d (by simp [hd])
    · refine (update_of_ne ?_ _ _).trans hprev
      rcases hrest.neighbours.2 with heq | ⟨d, hd, heq⟩ <;> rw [heq]
      · exact nofun
      · rintro ⟨⟩
        exact ha (by simp [hd])

/-- An element is taken out. -/
theorem Spells.remove (h : C.Spells l) (hb : b ∈ l) : (C.remove b).Spells (l.erase b) := by
  obtain ⟨l1, l2, rfl⟩ := List.append_of_mem hb
  have hnodup := h.nodup
  have hb1 : b ∉ l1 := fun hmem => (List.nodup_append.1 hnodup).2.2 b hmem b List.mem_cons_self rfl
  have hb2 : b ∉ l2 := (List.nodup_cons.1 (List.nodup_append.1 hnodup).2.1).1
  have hnext : C.next (some b) ≠ some b := by
    rcases h.path.neighbours.2 with heq | ⟨c, hc, heq⟩ <;> rw [heq]
    · exact nofun
    · rintro ⟨⟩
      exact hb2 hc
  refine ⟨?_, hnodup.erase b⟩
  rw [List.erase_append_right _ hb1, List.erase_cons_head]
  exact h.path.remove hnodup (fun _ _ => nofun) hnext

/-- An element is put behind the head. -/
theorem Spells.insert (h : C.Spells l) (hb : b ∉ l) : (C.insert b).Spells (b :: l) := by
  refine ⟨?_, List.nodup_cons.2 ⟨hb, h.nodup⟩⟩
  have hpath := h.path
  cases l with
  | nil => simp [Circular.insert, setNext, setPrev, Path, hpath.1]
  | cons c l =>
    obtain ⟨hnext, hprev, hrest⟩ := hpath
    have hbc : b ≠ c := fun heq => hb (heq ▸ List.mem_cons_self)
    have hcl := (List.nodup_cons.1 h.nodup).1
    have hpointers : C.insert b = ⟨update (update C.next (some b) (some c)) none (some b),
        update (update C.prev (some b) none) (some c) (some b)⟩ := by
      simp [Circular.insert, setNext, setPrev, hnext]
    rw [hpointers]
    refine ⟨by simp, by simp [hbc], by simp, by simp, hrest.congr ?_ (by simp) fun d hd => ?_⟩
    · simp [hbc.symm]
    · have hdb : d ≠ b := fun heq => hb (heq ▸ List.mem_cons_of_mem _ hd)
      have hdc : d ≠ c := fun heq => hcl (heq ▸ hd)
      simp [hdb, hdc]

end

end Circular

end Msboss
