import Msboss.Sh.Parser
import Mathlib.Data.List.Basic
import Mathlib.Data.List.TakeWhile
import Mathlib.Data.List.DropRight

/-!
# The tokens of a line

The sequence of tokens that `gettoken` finds in a line (`tokens`), and what `gettoken` and `peek`
are in terms of it: `gettoken` takes the first token off, and `peek` tells which symbol, if any, it
begins with. -/

namespace Msboss.Sh

open List

/-- A token, with the text of a word. -/
inductive Token
  | pipe
  | lparen
  | rparen
  | semi
  | amp
  | lt
  | gt
  | append
  | word (w : List UInt8)
  deriving DecidableEq, Repr

/-- The text of a word. -/
def Span.text (w : Span) : List UInt8 := w.q.take (w.q.length - w.eq.length)

/-- The token that `gettoken` has found; none at the end of the line. -/
def Tok.token (w : List UInt8) : Tok → Option Token
  | .nul => none
  | .pipe => some .pipe
  | .lparen => some .lparen
  | .rparen => some .rparen
  | .semi => some .semi
  | .amp => some .amp
  | .lt => some .lt
  | .gt => some .gt
  | .append => some .append
  | .word => some (.word w)

/-- The symbol that a token begins with. -/
def Token.symbol : Token → Option UInt8
  | .pipe => some 124
  | .lparen => some 40
  | .rparen => some 41
  | .semi => some 59
  | .amp => some 38
  | .lt => some 60
  | .gt | .append => some 62
  | .word _ => none

/-! ## One token -/

/-- What can stand at a pointer: the end of the line, a symbol, `>>`, or a word. -/
inductive Lexed : Ptr → Tok → Ptr → Prop
  | nul : Lexed [] .nul []
  | symbol {tok : Tok} {t : Token} {c : UInt8} {s : Ptr} : (∀ w, tok.token w = some t) →
      t.symbol = some c → Lexed (c :: s) tok s
  | append {s : Ptr} : Lexed (62 :: 62 :: s) .append s
  | word {w s : Ptr} : w ≠ [] → (∀ c ∈ w, wordChar c = true) → s.head?.any wordChar = false →
      Lexed (w ++ s) .word s

section
variable {s s' line : Ptr} {tok : Tok} {w : Span} {t : Token} {ts : List Token}

theorem head?_dropWhile (p : UInt8 → Bool) (s : Ptr) : (s.dropWhile p).head?.any p = false := by
  induction s with
  | nil => rfl
  | cons c s ih =>
    rw [dropWhile_cons]
    split
    · exact ih
    · next h => simpa using h

theorem lexeme_lexed (s : Ptr) (h : s.head?.any whitespace = false) :
    Lexed s (lexeme s).1 (lexeme s).2 := by
  cases s with
  | nil => exact .nul
  | cons c s =>
    simp only [lexeme]
    split_ifs with h1 h2 h3 h4 h5 h6 h7 h8
    · exact .symbol (t := .pipe) (fun _ => rfl) (h1 ▸ rfl)
    · exact .symbol (t := .lparen) (fun _ => rfl) (h2 ▸ rfl)
    · exact .symbol (t := .rparen) (fun _ => rfl) (h3 ▸ rfl)
    · exact .symbol (t := .semi) (fun _ => rfl) (h4 ▸ rfl)
    · exact .symbol (t := .amp) (fun _ => rfl) (h5 ▸ rfl)
    · exact .symbol (t := .lt) (fun _ => rfl) (h6 ▸ rfl)
    · obtain ⟨s, rfl⟩ : ∃ r, s = 62 :: r := by
        cases s with
        | nil => cases h8
        | cons d r => exact ⟨r, by cases h8; rfl⟩
      rw [h7]
      exact .append
    · exact .symbol (t := .gt) (fun _ => rfl) (h7 ▸ rfl)
    · have hc : wordChar c = true := by
        have hw : whitespace c = false := h
        have hs : symbols c = false := by simp [symbols, *]
        rw [wordChar, hw, hs]
        rfl
      have hword := Lexed.word (w := (c :: s).takeWhile wordChar) (s := (c :: s).dropWhile wordChar)
        (by rw [takeWhile_cons_of_pos hc]; exact cons_ne_nil _ _)
        (fun _ => mem_takeWhile_imp) (head?_dropWhile _ _)
      rwa [takeWhile_append_dropWhile] at hword

/-- The span of a word. -/
structure Span.IsWord (line : Ptr) (w : Span) : Prop where
  suffix : w.q <:+ line
  split : w.q = w.text ++ w.eq
  nonempty : w.text ≠ []
  chars : ∀ c ∈ w.text, wordChar c = true
  stops : w.eq.head?.any wordChar = false

theorem Lexed.suffix (h : Lexed s tok s') : s' <:+ s := by
  cases h with
  | nul => exact suffix_rfl
  | symbol => exact suffix_cons ..
  | append => exact (suffix_cons ..).trans (suffix_cons ..)
  | word => exact suffix_append ..

theorem Lexed.lt (h : Lexed s tok s') (hne : tok ≠ .nul) : s'.length < s.length := by
  cases h with
  | nul => exact absurd rfl hne
  | symbol => exact Nat.lt_succ_self _
  | append => exact Nat.lt_succ_of_lt (Nat.lt_succ_self _)
  | word hw =>
    rw [length_append]
    exact Nat.lt_add_of_pos_left (length_pos_iff.2 hw)

/-- What `gettoken` does. -/
theorem gettoken_lexed (s : Ptr) : ∃ tok w s', gettoken s = (tok, w, s') ∧
    w.q = s.dropWhile whitespace ∧ Lexed w.q tok w.eq ∧ s' = w.eq.dropWhile whitespace :=
  ⟨_, _, _, rfl, rfl, lexeme_lexed _ (head?_dropWhile _ s), rfl⟩

theorem gettoken_suffix (h : gettoken s = (tok, w, s')) : s' <:+ s := by
  obtain ⟨tok1, w1, s1, heq, hq, hlex, rfl⟩ := gettoken_lexed s
  rw [h] at heq
  cases heq
  exact ((dropWhile_suffix _).trans hlex.suffix).trans (hq ▸ dropWhile_suffix _)

theorem gettoken_lt (h : gettoken s = (tok, w, s')) (hne : tok ≠ .nul) : s'.length < s.length := by
  obtain ⟨tok1, w1, s1, heq, hq, hlex, rfl⟩ := gettoken_lexed s
  rw [h] at heq
  cases heq
  calc _ ≤ w.eq.length := (dropWhile_suffix _).length_le
    _ < w.q.length := hlex.lt hne
    _ ≤ s.length := hq ▸ (dropWhile_suffix _).length_le

end

/-! ## All tokens -/

/-- The tokens of the line. -/
def tokens (s : Ptr) : List Token :=
  match _h : gettoken s with
  | (tok, w, s') =>
    match _ht : tok.token w.text with
    | none => []
    | some t => t :: tokens s'
  termination_by s.length
  decreasing_by exact gettoken_lt _h (by rintro rfl; cases _ht)

section
variable {s s' line : Ptr} {tok : Tok} {w : Span} {t : Token} {ts : List Token}

theorem tokens_of_gettoken (h : gettoken s = (tok, w, s')) :
    tokens s = (tok.token w.text).elim [] (· :: tokens s') := by
  rw [tokens]
  split
  next tok1 w1 s1 heq =>
  rw [h] at heq
  cases heq
  split
  · next ht => rw [ht]; rfl
  · next t ht => rw [ht]; rfl

/-- White space does not matter. -/
theorem tokens_skip (s : Ptr) : tokens (s.dropWhile whitespace) = tokens s := by
  obtain ⟨tok, w, s', h, -⟩ := gettoken_lexed s
  have hskip : gettoken (s.dropWhile whitespace) = (tok, w, s') := by
    rw [← h]
    simp only [gettoken, dropWhile_idempotent]
  rw [tokens_of_gettoken h, tokens_of_gettoken hskip]

theorem eq_nul_of_token (h : tok.token w.text = none) : tok = .nul := by
  cases tok <;> first | rfl | cases h

/-- At the end of the line only white space is left. -/
theorem skip_eq_nil (h : tokens s = []) : s.dropWhile whitespace = [] := by
  obtain ⟨tok, w, s', hg, hq, hlex, -⟩ := gettoken_lexed s
  rw [tokens_of_gettoken hg] at h
  rw [← hq]
  cases ht : tok.token w.text with
  | some t => rw [ht] at h; cases h
  | none =>
    cases eq_nul_of_token ht
    generalize w.q = q at hlex
    generalize w.eq = eq at hlex
    cases hlex with
    | nul => rfl
    | symbol htok => exact absurd (htok []) nofun

theorem gettoken_nil (h : tokens s = []) : ∃ w, gettoken s = (.nul, w, []) := by
  refine ⟨⟨[], []⟩, ?_⟩
  rw [gettoken, skip_eq_nil h]
  rfl

/-- `gettoken` takes off the first token. -/
theorem gettoken_cons (h : tokens s = t :: ts) : ∃ tok w s', gettoken s = (tok, w, s') ∧
    tok.token w.text = some t ∧ tokens s' = ts ∧ s' <:+ s := by
  obtain ⟨tok, w, s', hg, -⟩ := gettoken_lexed s
  rw [tokens_of_gettoken hg] at h
  cases ht : tok.token w.text with
  | none => rw [ht] at h; cases h
  | some t' =>
    rw [ht] at h
    cases h
    exact ⟨tok, w, s', hg, ht, rfl, gettoken_suffix hg⟩

/-- The span of a word. -/
theorem gettoken_word (h : gettoken s = (.word, w, s')) (hs : s <:+ line) : w.IsWord line := by
  obtain ⟨tok, w, s', hg, hq, hlex, -⟩ := gettoken_lexed s
  rw [h] at hg
  cases hg
  have hsuf : w.q <:+ line := (hq ▸ dropWhile_suffix _ : w.q <:+ s).trans hs
  obtain ⟨q, eq⟩ := w
  simp only at hlex hsuf
  cases hlex with
  | symbol htok hsym =>
    cases Option.some.inj (htok [])
    cases hsym
  | @word w' _ hne hchars hstop =>
    have htext : Span.text ⟨w' ++ eq, eq⟩ = w' := by simp [Span.text]
    exact ⟨hsuf, by rw [htext], by rw [htext]; exact hne, by rw [htext]; exact hchars, hstop⟩

/-- The span of a word is what `gettoken` finds where it starts. -/
theorem Span.IsWord.gettoken (h : w.IsWord line) : ∃ s', Sh.gettoken w.q = (.word, w, s') := by
  obtain ⟨c, cs, htext⟩ := exists_cons_of_ne_nil h.nonempty
  have hc : wordChar c = true := h.chars c (by rw [htext]; exact .head _)
  obtain ⟨hspace, hsymbol⟩ : whitespace c = false ∧ symbols c = false := by
    simpa [wordChar] using hc
  have hq : w.q = c :: (cs ++ w.eq) := by
    rw [h.split, htext]
    rfl
  have hskip : w.q.dropWhile whitespace = w.q := by
    rw [hq, dropWhile_cons_of_neg (by rw [hspace]; exact Bool.false_ne_true)]
  have hend : w.q.dropWhile wordChar = w.eq := by
    rw [h.split, dropWhile_append_of_pos h.chars]
    cases heq : w.eq with
    | nil => rfl
    | cons e es =>
      have hstop := h.stops
      rw [heq] at hstop
      exact dropWhile_cons_of_neg (by simpa using hstop)
  have hlex : lexeme w.q = (.word, w.eq) := by
    have hne : c ≠ 60 ∧ c ≠ 124 ∧ c ≠ 62 ∧ c ≠ 38 ∧ c ≠ 59 ∧ c ≠ 40 ∧ c ≠ 41 := by
      simpa [symbols] using hsymbol
    rw [← hend, hq]
    simp [lexeme, hne]
  exact ⟨w.eq.dropWhile whitespace, by simp only [Sh.gettoken, hskip, hlex]⟩

/-- `peek` looks at the symbol that the next token begins with. -/
theorem peek_fst (hsub : ∀ c ∈ toks, symbols c = true) :
    (peek s toks).1 = (tokens s).head?.any fun t => t.symbol.any toks.contains := by
  obtain ⟨tok, w, s', hg, hq, hlex, -⟩ := gettoken_lexed s
  rw [tokens_of_gettoken hg]
  simp only [peek, ← hq]
  generalize w.text = text
  generalize w.q = q at hlex
  generalize w.eq = eq at hlex
  cases hlex with
  | nul => rfl
  | symbol htok hsym => simp [htok text, hsym]
  | append => rfl
  | word hne hchars _ =>
    obtain ⟨c, w', rfl⟩ := exists_cons_of_ne_nil hne
    have hc : symbols c = false := by
      have := hchars c (mem_cons_self ..)
      simp only [wordChar, Bool.and_eq_true, Bool.not_eq_true'] at this
      exact this.2
    have hnot : toks.contains c = false := by
      by_contra hmem
      have := hsub c (by simpa using hmem)
      rw [hc] at this
      cases this
    exact hnot

theorem tokens_peek (s : Ptr) (toks : List UInt8) : tokens (peek s toks).2 =
    tokens s := tokens_skip s

theorem peek_suffix (s : Ptr) (toks : List UInt8) : (peek s toks).2 <:+ s := dropWhile_suffix _

theorem tokens_length_le (s : Ptr) : (tokens s).length ≤ s.length := by
  induction hn : s.length using Nat.strong_induction_on generalizing s with
  | _ n ih =>
    cases hts : tokens s with
    | nil => exact Nat.zero_le _
    | cons t ts =>
      obtain ⟨tok, w, s', hg, ht, rfl, -⟩ := gettoken_cons hts
      have hlt := gettoken_lt hg (by rintro rfl; cases ht)
      have := ih s'.length (hn ▸ hlt) s' rfl
      rw [length_cons]
      omega

end

end Msboss.Sh
