import Mathlib.Computability.Language
import Mathlib.Tactic

/-!
# The matcher of `grep`

`match`, `matchhere` and `matchstar` of `grep.c`. A string is its bytes before the terminating zero,
and a pointer into it what stands there. The calls of `matchhere` and `matchstar` end since each of
them goes on in the pattern or, in the loop of `matchstar`, in the text.

A pattern is read as a list of items, between anchors (`Pattern.read`); what the items stand for is
a `Language`. `matchText_iff` says that `match` finds what the pattern stands for.
-/

namespace Msboss.Grep

/-! ## The code -/

/-- The characters `'^'`, `'$'`, `'*'`, `'.'` and the newline. -/
def caret : UInt8 := 94
def dollar : UInt8 := 36
def star : UInt8 := 42
def dot : UInt8 := 46
def newline : UInt8 := 10

/-- `matchstar`, with `matchhere` for the rest of the pattern. -/
def matchstar (c : UInt8) (here : List UInt8 → Bool) : List UInt8 → Bool
  | [] => here []
  | t :: text => here (t :: text) || ((t = c || c = dot) && matchstar c here text)

/-- The last test of `matchhere`: one character, and the rest of the pattern. -/
def matchone (c : UInt8) (here : List UInt8 → Bool) : List UInt8 → Bool
  | [] => false
  | t :: text => (c = dot || c = t) && here text

/-- `matchhere`. -/
def matchhere : List UInt8 → List UInt8 → Bool
  | [], _ => true
  | [c], text => if c = dollar then text = [] else matchone c (matchhere []) text
  | c :: d :: re, text =>
    if d = star then matchstar c (fun text => matchhere re text) text
    else matchone c (fun text => matchhere (d :: re) text) text

/-- The loop of `match`. -/
def matchanywhere (re : List UInt8) : List UInt8 → Bool
  | [] => matchhere re []
  | t :: text => matchhere re (t :: text) || matchanywhere re text

/-- `match`. -/
def matchText (re text : List UInt8) : Bool :=
  if re.head? = some caret then matchhere re.tail text else matchanywhere re text

/-! ## What patterns stand for -/

/-- An item of a pattern. -/
inductive Item
  | many (c : UInt8)
  | any
  | char (c : UInt8)
  deriving DecidableEq, Repr

/-- A pattern: items between anchors. -/
structure Pattern where
  front : Bool
  items : List Item
  back : Bool
  deriving DecidableEq, Repr

/-- A character that is not followed by `'*'`. -/
def Item.single (c : UInt8) : Item := if c = dot then .any else .char c

/-- The items of a pattern, and whether it ends in an anchor. -/
def readItems : List UInt8 → List Item × Bool
  | [] => ([], false)
  | [c] => if c = dollar then ([], true) else ([.single c], false)
  | c :: d :: re =>
    if d = star then (.many c :: (readItems re).1, (readItems re).2)
    else (.single c :: (readItems (d :: re)).1, (readItems (d :: re)).2)

/-- What is written in a pattern. -/
def Pattern.read (re : List UInt8) : Pattern :=
  if re.head? = some caret then ⟨true, (readItems re.tail).1, (readItems re.tail).2⟩
  else ⟨false, (readItems re).1, (readItems re).2⟩

/-- The words of one character that `c` stands for: itself, and all if it is `'.'`. -/
def symbol (c : UInt8) : Language UInt8 := {w | ∃ t, w = [t] ∧ (c = dot ∨ t = c)}

/-- The words that an item stands for. -/
def Item.lang : Item → Language UInt8
  | .many c => KStar.kstar (symbol c)
  | .any => {w | ∃ t, w = [t]}
  | .char c => {[c]}

/-- The words that items stand for, one after the other. -/
def lang (items : List Item) : Language UInt8 := (items.map Item.lang).prod

/-- A substring of the text is a word of the pattern: with an anchor in front a prefix, with one at
the end a suffix. -/
def Pattern.Matches (p : Pattern) (text : List UInt8) : Prop :=
  ∃ before word after, text = before ++ word ++ after ∧ word ∈ lang p.items ∧
    (p.front = true → before = []) ∧ (p.back = true → after = [])

/-! ## Words -/

@[simp] theorem lang_nil : lang [] = 1 := rfl

@[simp] theorem lang_cons (i : Item) (l : List Item) : lang (i :: l) = i.lang * lang l :=
  List.prod_cons

/-- A single character. -/
theorem lang_single (c : UInt8) : (Item.single c).lang = symbol c := by
  unfold Item.single
  ext w
  split
  · next hc =>
    constructor
    · rintro ⟨t, rfl⟩
      exact ⟨t, rfl, .inl hc⟩
    · rintro ⟨t, rfl, -⟩
      exact ⟨t, rfl⟩
  · next hc =>
    constructor
    · rintro rfl
      exact ⟨c, rfl, .inr rfl⟩
    · rintro ⟨t, rfl, h⟩
      obtain rfl := h.resolve_left hc
      rfl

/-- Many characters are none, or one and many. -/
theorem mem_many_iff : w ∈ (Item.many c).lang ↔
    w = [] ∨ ∃ t v, w = t :: v ∧ (c = dot ∨ t = c) ∧ v ∈ (Item.many c).lang := by
  have hstar : (Item.many c).lang = 1 + symbol c * (Item.many c).lang :=
    (Language.one_add_self_mul_kstar_eq_kstar (symbol c)).symm
  constructor
  · intro h
    rw [hstar] at h
    rcases h with h | h
    · exact .inl h
    · obtain ⟨u, ⟨t, rfl, ht⟩, v, hv, rfl⟩ := Language.mem_mul.1 h
      exact .inr ⟨t, v, rfl, ht, hv⟩
  · rintro (rfl | ⟨t, v, rfl, ht, hv⟩)
    · exact Language.nil_mem_kstar _
    · rw [hstar]
      exact .inr (Language.mem_mul.2 ⟨[t], ⟨t, rfl, ht⟩, v, hv, rfl⟩)

/-! ## `matchhere` -/

/-- A word of the language is at the front of the text, with the condition `P` on what follows. -/
def Begins (L : Language UInt8) (P : List UInt8 → Prop) (text : List UInt8) : Prop :=
  ∃ word after, text = word ++ after ∧ word ∈ L ∧ P after

theorem begins_one : Begins 1 P text ↔ P text := by
  constructor
  · rintro ⟨word, after, rfl, hw, h⟩
    obtain rfl : word = [] := hw
    exact h
  · intro h
    exact ⟨[], text, rfl, rfl, h⟩

/-- A product is begun piece by piece. -/
theorem begins_mul : Begins (L * M) P text ↔ Begins L (Begins M P) text := by
  constructor
  · rintro ⟨_, after, rfl, hw, h⟩
    obtain ⟨u, hu, v, hv, rfl⟩ := Language.mem_mul.1 hw
    exact ⟨u, v ++ after, List.append_assoc .., hu, v, after, rfl, hv, h⟩
  · rintro ⟨u, _, rfl, hu, v, after, rfl, hv, h⟩
    exact ⟨u ++ v, after, (List.append_assoc ..).symm, Language.mem_mul.2 ⟨u, hu, v, hv, rfl⟩, h⟩

section
variable {c : UInt8} {here : List UInt8 → Bool} {P : List UInt8 → Prop} {text : List UInt8}

theorem matchone_iff (hhere : ∀ text, here text = true ↔ P text) :
    matchone c here text = true ↔ Begins (symbol c) P text := by
  cases text with
  | nil =>
    refine iff_of_false nofun ?_
    rintro ⟨_, after, h, ⟨t, rfl, -⟩, -⟩
    cases h
  | cons t text =>
    simp only [matchone, Bool.and_eq_true, Bool.or_eq_true, decide_eq_true_eq, hhere]
    constructor
    · rintro ⟨ht, h⟩
      exact ⟨[t], text, rfl, ⟨t, rfl, ht.imp_right Eq.symm⟩, h⟩
    · rintro ⟨_, after, heq, ⟨t', rfl, ht⟩, h⟩
      cases heq
      exact ⟨ht.imp_right Eq.symm, h⟩

/-- The loop of `matchstar` goes through all texts that are left after many characters. -/
theorem matchstar_iff (hhere : ∀ text, here text = true ↔ P text) :
    matchstar c here text = true ↔ Begins (Item.many c).lang P text := by
  induction text with
  | nil =>
    rw [matchstar, hhere]
    constructor
    · intro h
      exact ⟨[], [], rfl, mem_many_iff.2 (.inl rfl), h⟩
    · rintro ⟨word, after, heq, -, h⟩
      obtain ⟨rfl, rfl⟩ := List.append_eq_nil_iff.1 heq.symm
      exact h
  | cons t text ih =>
    simp only [matchstar, Bool.or_eq_true, Bool.and_eq_true, decide_eq_true_eq, hhere, ih]
    constructor
    · rintro (h | ⟨ht, word, after, rfl, hw, h⟩)
      · exact ⟨[], t :: text, rfl, mem_many_iff.2 (.inl rfl), h⟩
      · exact ⟨t :: word, after, rfl, mem_many_iff.2 (.inr ⟨t, word, rfl, ht.symm, hw⟩), h⟩
    · rintro ⟨word, after, heq, hw, h⟩
      rcases mem_many_iff.1 hw with rfl | ⟨t', v, rfl, ht, hv⟩
      · exact .inl (heq ▸ h)
      · cases heq
        exact .inr ⟨ht.symm, v, after, rfl, hv, h⟩

end

/-- `matchhere` finds the items of the pattern at the front of the text. -/
theorem matchhere_iff : ∀ re text : List UInt8, matchhere re text = true ↔
    Begins (lang (readItems re).1) (fun after => (readItems re).2 = true → after = []) text
  | [], text => iff_of_true rfl ⟨[], text, rfl, rfl, nofun⟩
  | [c], text => by
    rw [matchhere, readItems]
    split
    · rw [decide_eq_true_eq, lang_nil, begins_one]
      exact ⟨fun h _ => h, fun h => h rfl⟩
    · rw [lang_cons, lang_nil, mul_one, lang_single]
      exact matchone_iff fun after => iff_of_true rfl nofun
  | c :: d :: re, text => by
    rw [matchhere, readItems]
    split
    · rw [lang_cons, begins_mul]
      exact matchstar_iff fun after => matchhere_iff re after
    · rw [lang_cons, lang_single, begins_mul]
      exact matchone_iff fun after => matchhere_iff (d :: re) after

/-- The loop of `match` goes through all ends of the text. -/
theorem matchanywhere_iff (re text : List UInt8) : matchanywhere re text = true ↔
    ∃ before rest, text = before ++ rest ∧ matchhere re rest = true := by
  induction text with
  | nil =>
    rw [matchanywhere]
    constructor
    · intro h
      exact ⟨[], [], rfl, h⟩
    · rintro ⟨before, rest, heq, h⟩
      obtain ⟨rfl, rfl⟩ := List.append_eq_nil_iff.1 heq.symm
      exact h
  | cons t text ih =>
    rw [matchanywhere, Bool.or_eq_true, ih]
    constructor
    · rintro (h | ⟨before, rest, rfl, h⟩)
      · exact ⟨[], t :: text, rfl, h⟩
      · exact ⟨t :: before, rest, rfl, h⟩
    · rintro ⟨before, rest, heq, h⟩
      cases before with
      | nil =>
        obtain rfl : t :: text = rest := heq
        exact .inl h
      | cons b before =>
        cases heq
        exact .inr ⟨before, rest, rfl, h⟩

/-- `match` finds a word of the pattern. -/
theorem matchText_iff (re text : List UInt8) :
    matchText re text = true ↔ (Pattern.read re).Matches text := by
  unfold matchText Pattern.read Pattern.Matches
  split
  · rw [matchhere_iff]
    constructor
    · rintro ⟨word, after, rfl, hw, h⟩
      exact ⟨[], word, after, rfl, hw, fun _ => rfl, h⟩
    · rintro ⟨before, word, after, rfl, hw, hfront, h⟩
      obtain rfl := hfront rfl
      exact ⟨word, after, rfl, hw, h⟩
  · rw [matchanywhere_iff]
    constructor
    · rintro ⟨before, rest, rfl, hhere⟩
      obtain ⟨word, after, rfl, hw, h⟩ := (matchhere_iff re rest).1 hhere
      exact ⟨before, word, after, (List.append_assoc ..).symm, hw, nofun, h⟩
    · rintro ⟨before, word, after, rfl, hw, -, h⟩
      exact ⟨before, word ++ after, List.append_assoc ..,
        (matchhere_iff re _).2 ⟨word, after, rfl, hw, h⟩⟩

-- a starred anchor is a character like others: `$*b` in `a$$b`
example : matchText [36, 42, 98] [97, 36, 36, 98] = true := by decide

end Msboss.Grep
