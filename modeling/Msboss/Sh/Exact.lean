import Msboss.Sh.Grammar

/-!
# The parser is exact

The parser stops on every line (`parse_ne_fuel`), and the words of the command that it returns are,
once `nulterminate` has cut the line up, the words of the line (`str_nulterminate`): a NUL goes to
where a word has ended, so none goes into a word. With the two directions for the grammar this makes
the parser exact (`parsecmd_exact`). What a command needs of the words is that each is still there
as a string, and that each `argv` ends (`words_survive`).
-/

namespace Msboss.Sh

open List

/-! ## The parser stops -/

section
variable {n argc : Nat} {s s' : Ptr} {cmd cmd' : Cmd Span}

theorem Redirected.length_le (h : Redirected s cmd cmd' s') :
    (tokens s').length ≤ (tokens s).length := by
  obtain ⟨⟨ts, rs, hts, -⟩, -, -⟩ := h
  rw [hts, length_append]
  exact Nat.le_add_left _ _

theorem Parsed.length_le (h : Parsed p s cmd s') : (tokens s').length ≤ (tokens s).length := by
  obtain ⟨⟨ts, hts, -⟩, -, -⟩ := h
  rw [hts, length_append]
  exact Nat.le_add_left _ _

theorem parseredirs_ne_fuel (hn : (tokens s).length < n) : parseredirs n cmd s ≠ .error .fuel := by
  induction n generalizing s cmd with
  | zero => exact absurd hn (Nat.not_lt_zero _)
  | succ n ih =>
    obtain ⟨b, s1, hp, hb, htok1, -⟩ := peek_spec (s := s) peek_redir
    simp only [parseredirs, hp]
    split
    swap
    · intro h
      cases h
    next hmore =>
    obtain ⟨t, ts, hts, -⟩ := hb.1 hmore
    obtain ⟨tok, w, s2, hg, -, hts2, -⟩ := gettoken_cons (htok1.trans hts)
    obtain ⟨tok', file, s3, hg', -⟩ := gettoken_lexed s2
    simp only [hg, hg']
    split
    · intro h
      cases h
    next hword =>
    cases not_not.1 hword
    refine ih ?_
    have hlen := congrArg List.length (tokens_of_gettoken hg')
    rw [hts2] at hlen
    rw [hts, length_cons, hlen] at hn
    simp only [Tok.token, Option.elim_some, length_cons] at hn
    omega

theorem parseargs_ne_fuel (hn : (tokens s).length < n) : parseargs n argc cmd s ≠ .error .fuel := by
  induction n generalizing s cmd argc with
  | zero => exact absurd hn (Nat.not_lt_zero _)
  | succ n ih =>
    obtain ⟨b, s1, hp, -, htok1, -⟩ := peek_spec (s := s) peek_exec
    obtain ⟨tok, w, s2, hg, -⟩ := gettoken_lexed s1
    have hlen := congrArg List.length (tokens_of_gettoken hg)
    rw [htok1] at hlen
    simp only [parseargs, hp, hg]
    split_ifs with hstop hnul hword hmax
    · intro h
      cases h
    · intro h
      cases h
    · intro h
      cases h
    · intro h
      cases h
    cases not_not.1 hword
    simp only [Tok.token, Option.elim_some, length_cons] at hlen
    refine bind_ne_error (parseredirs_ne_fuel (by omega)) ?_
    rintro ⟨ret, s3⟩ hr
    refine ih ?_
    dsimp only
    have := (parseredirs_sound hr).length_le
    omega

theorem parseamps_ne_fuel (hn : (tokens s).length < n) : parseamps n cmd s ≠ .error .fuel := by
  induction n generalizing s cmd with
  | zero => exact absurd hn (Nat.not_lt_zero _)
  | succ n ih =>
    obtain ⟨b, s1, hp, hb, htok1, -⟩ := peek_spec (s := s) peek_amp
    simp only [parseamps, hp]
    split
    · next hmore =>
      obtain ⟨t, ts, hts, -⟩ := hb.1 hmore
      obtain ⟨tok, w, s2, hg, -, hts2, -⟩ := gettoken_cons (htok1.trans hts)
      simp only [hg]
      refine ih ?_
      rw [hts, length_cons] at hn
      rw [hts2]
      omega
    · intro h
      cases h

/-- Every call that goes back to the same function has read a token. -/
theorem parse_ne_fuel (n : Nat) :
    (∀ {s}, 4 * (tokens s).length + 4 ≤ n → parseline n s ≠ .error .fuel) ∧
    (∀ {s}, 4 * (tokens s).length + 3 ≤ n → parsepipe n s ≠ .error .fuel) ∧
    (∀ {s}, 4 * (tokens s).length + 2 ≤ n → parseexec n s ≠ .error .fuel) ∧
    (∀ {s}, 4 * (tokens s).length + 1 ≤ n → parseblock n s ≠ .error .fuel) := by
  induction n with
  | zero => exact ⟨fun h => by omega, fun h => by omega, fun h => by omega, fun h => by omega⟩
  | succ n ih =>
    obtain ⟨ihline, ihpipe, ihexec, ihblock⟩ := ih
    obtain ⟨hline, hpipe, -, hexec⟩ := parse_sound n
    refine ⟨fun {s} hn => ?_, fun {s} hn => ?_, fun {s} hn => ?_, fun {s} hn => ?_⟩
    · simp only [parseline]
      refine bind_ne_error (ihpipe (by omega)) ?_
      rintro ⟨c1, s1⟩ h1
      dsimp only
      have hlen1 := (hpipe h1).length_le
      refine bind_ne_error (parseamps_ne_fuel (by omega)) ?_
      rintro ⟨c2, s2⟩ h2
      obtain ⟨k, hk, -⟩ := parseamps_sound h2
      have hlen2 := congrArg List.length hk
      rw [length_append] at hlen2
      obtain ⟨b, s3, hp, hb, htok, -⟩ := peek_spec (s := s2) peek_semi
      simp only [hp]
      split
      swap
      · intro h
        cases h
      next hmore =>
      obtain ⟨t, ts, hts, -⟩ := hb.1 hmore
      obtain ⟨tok, w, s4, hg, -, hts4, -⟩ := gettoken_cons (htok.trans hts)
      rw [hts, length_cons] at hlen2
      simp only [hg]
      exact bind_ne_error (ihline (by rw [hts4]; omega)) fun _ _ h => by cases h
    · simp only [parsepipe]
      refine bind_ne_error (ihexec (by omega)) ?_
      rintro ⟨c1, s1⟩ h1
      have hlen1 := (hexec h1).length_le
      obtain ⟨b, s2, hp, hb, htok, -⟩ := peek_spec (s := s1) peek_pipe
      simp only [hp]
      split
      swap
      · intro h
        cases h
      next hmore =>
      obtain ⟨t, ts, hts, -⟩ := hb.1 hmore
      obtain ⟨tok, w, s3, hg, -, hts3, -⟩ := gettoken_cons (htok.trans hts)
      rw [hts, length_cons] at hlen1
      simp only [hg]
      exact bind_ne_error (ihpipe (by rw [hts3]; omega)) fun _ _ h => by cases h
    · obtain ⟨b, s1, hp, -, htok, -⟩ := peek_spec (s := s) peek_lparen
      simp only [parseexec, hp]
      split
      · exact ihblock (by rw [htok]; omega)
      refine bind_ne_error (parseredirs_ne_fuel (by rw [htok]; omega)) ?_
      rintro ⟨c1, s2⟩ h1
      dsimp only
      have hlen := (parseredirs_sound h1).length_le
      exact parseargs_ne_fuel (by rw [htok] at hlen; omega)
    · obtain ⟨b, s1, hp, hb, htok, -⟩ := peek_spec (s := s) peek_lparen
      simp only [parseblock, hp]
      split
      swap
      · intro h
        cases h
      next hmore =>
      obtain ⟨t, ts, hts, -⟩ := hb.1 hmore
      obtain ⟨tok, w, s2, hg, -, hts2, -⟩ := gettoken_cons (htok.trans hts)
      rw [hts, length_cons] at hn
      simp only [hg]
      refine bind_ne_error (ihline (by rw [hts2]; omega)) ?_
      rintro ⟨c1, s3⟩ h1
      have hlen := (hline h1).length_le
      obtain ⟨b', s4, hp', hb', htok4, -⟩ := peek_spec (s := s3) peek_rparen
      simp only [hp']
      split
      swap
      · intro h
        cases h
      next hclose =>
      obtain ⟨t', ts', hts', -⟩ := hb'.1 hclose
      obtain ⟨tok', w', s5, hg', -, hts5, -⟩ := gettoken_cons (htok4.trans hts')
      rw [hts', length_cons, hts2] at hlen
      simp only [hg']
      exact parseredirs_ne_fuel (by rw [hts5]; omega)

end

/-! ## The words -/

/-- A line before its NUL. -/
structure CString where
  bytes : List UInt8
  noNul : 0 ∉ bytes

/-- The line with NULs in it, but not in words. -/
structure Cut (buf cut : List UInt8) : Prop where
  length : cut.length = buf.length
  keeps : ∀ {i : Nat} {c : UInt8}, buf[i]? = some c → wordChar c = true → cut[i]? = some c

/-- The word ends with a NUL. -/
def Span.Ends (n : Nat) (cut : List UInt8) (w : Span) : Prop :=
  ∀ c, cut[n - w.eq.length]? = some c → c = 0

section
variable {buf cut : List UInt8} {w : Span} {cmd : Cmd Span} {σ τ : Type}

theorem Cut.refl (buf : List UInt8) : Cut buf buf := ⟨rfl, fun h _ => h⟩

/-- The byte after a word is not one of a word. -/
theorem Span.IsWord.after (hw : w.IsWord buf)
    (h : buf[buf.length - w.eq.length]? = some c) : wordChar c = false := by
  have hsuf : w.eq <:+ buf := (hw.split ▸ suffix_append _ _).trans hw.suffix
  obtain ⟨pre, hpre⟩ := hsuf
  have hlen : buf.length - w.eq.length = pre.length := by
    rw [← hpre, length_append, Nat.add_sub_cancel]
  rw [hlen, ← hpre, List.getElem?_append_right le_rfl, Nat.sub_self, ← List.head?_eq_getElem?] at h
  have := hw.stops
  rwa [h] at this

theorem Cut.set (h : Cut buf cut) (hw : w.IsWord buf) :
    Cut buf (cut.set (buf.length - w.eq.length) 0) := by
  refine ⟨by rw [length_set, h.length], fun {i c} hi hc => ?_⟩
  have hne : buf.length - w.eq.length ≠ i := by
    rintro rfl
    rw [hw.after hi] at hc
    cases hc
  rw [List.getElem?_set_ne hne]
  exact h.keeps hi hc

theorem Span.Ends.set (h : w.Ends n cut) (i : Nat) : w.Ends n (cut.set i 0) := by
  intro c hc
  rw [List.getElem?_set] at hc
  split_ifs at hc
  · exact (Option.some.inj hc).symm
  · exact h c hc

theorem Span.ends_set (n : Nat) (w : Span) : w.Ends n (cut.set (n - w.eq.length) 0) := by
  intro c hc
  rw [List.getElem?_set, if_pos rfl] at hc
  split_ifs at hc
  exact (Option.some.inj hc).symm

/-- `nulterminate` ends the words of an `execcmd`. -/
theorem foldl_cut {argv : List Span} (hargv : ∀ w ∈ argv, w.IsWord buf) (h : Cut buf cut) :
    Cut buf (argv.foldl (fun cut w => cut.set (buf.length - w.eq.length) 0) cut) ∧
      (∀ w ∈ argv, w.Ends buf.length
        (argv.foldl (fun cut w => cut.set (buf.length - w.eq.length) 0) cut)) ∧
      ∀ {w : Span}, w.Ends buf.length cut → w.Ends buf.length
        (argv.foldl (fun cut w => cut.set (buf.length - w.eq.length) 0) cut) := by
  induction argv generalizing cut with
  | nil => exact ⟨h, nofun, id⟩
  | cons v argv ih =>
    obtain ⟨hv, hargv⟩ := forall_mem_cons.1 hargv
    obtain ⟨hcut, hall, hkeep⟩ := ih hargv (h.set hv)
    refine ⟨hcut, forall_mem_cons.2 ⟨hkeep (Span.ends_set _ v), hall⟩, fun he => ?_⟩
    exact hkeep (he.set _)

theorem Cmd.All.imp {p q : σ → Prop} {cmd : Cmd σ} (h : cmd.All p) (hpq : ∀ w, p w → q w) :
    cmd.All q := by
  induction cmd with
  | exec argv => exact fun w hw => hpq w (h w hw)
  | redir cmd file mode fd ih => exact ⟨ih h.1, hpq file h.2⟩
  | pipe left right ihl ihr => exact ⟨ihl h.1, ihr h.2⟩
  | list left right ihl ihr => exact ⟨ihl h.1, ihr h.2⟩
  | back cmd ih => exact ih h

/-- `nulterminate` ends all words of the command. -/
theorem nulterminate_cut (hcmd : cmd.All (Span.IsWord buf)) (h : Cut buf cut) :
    Cut buf (nulterminate buf.length cmd cut) ∧
      cmd.All (Span.Ends buf.length (nulterminate buf.length cmd cut)) ∧
      ∀ {w : Span}, w.Ends buf.length cut →
        w.Ends buf.length (nulterminate buf.length cmd cut) := by
  induction cmd generalizing cut with
  | exec argv => exact foldl_cut hcmd h
  | redir cmd file mode fd ih =>
    obtain ⟨hcut, hall, hkeep⟩ := ih hcmd.1 h
    exact ⟨hcut.set hcmd.2, ⟨hall.imp fun w hw => hw.set _, Span.ends_set _ file⟩,
      fun he => (hkeep he).set _⟩
  | pipe left right ihl ihr =>
    obtain ⟨hcut1, hall1, hkeep1⟩ := ihl hcmd.1 h
    obtain ⟨hcut2, hall2, hkeep2⟩ := ihr hcmd.2 hcut1
    exact ⟨hcut2, ⟨hall1.imp fun w hw => hkeep2 hw, hall2⟩, fun he => hkeep2 (hkeep1 he)⟩
  | list left right ihl ihr =>
    obtain ⟨hcut1, hall1, hkeep1⟩ := ihl hcmd.1 h
    obtain ⟨hcut2, hall2, hkeep2⟩ := ihr hcmd.2 hcut1
    exact ⟨hcut2, ⟨hall1.imp fun w hw => hkeep2 hw, hall2⟩, fun he => hkeep2 (hkeep1 he)⟩
  | back cmd ih => exact ih hcmd h

theorem str_eq_text (h0 : 0 ∉ buf) (h : Cut buf cut) (hw : w.IsWord buf)
    (he : w.Ends buf.length cut) : w.str buf.length cut = w.text := by
  obtain ⟨pre, hpre⟩ := hw.suffix
  have hlen : buf.length - w.q.length = pre.length := by
    rw [← hpre, length_append, Nat.add_sub_cancel]
  have hend : buf.length - w.eq.length = pre.length + w.text.length := by
    have := congrArg List.length hw.split
    rw [length_append] at this
    rw [← hpre, length_append]
    omega
  -- the bytes of the word are still there
  have hkeeps : ∀ {i : Nat} {c : UInt8}, w.text[i]? = some c → cut[pre.length + i]? = some c := by
    intro i c hi
    refine h.keeps ?_ (hw.chars c (mem_of_getElem? hi))
    rw [← hpre, List.getElem?_append_right (Nat.le_add_right _ _),
      Nat.add_sub_cancel_left, hw.split]
    rw [List.getElem?_append_left (List.getElem?_eq_some_iff.1 hi).1, hi]
  have htake : (cut.drop pre.length).take w.text.length = w.text := by
    refine ext_getElem? fun i => ?_
    rw [List.getElem?_take, List.getElem?_drop]
    split_ifs with hi
    · rw [hkeeps (List.getElem?_eq_getElem hi), List.getElem?_eq_getElem hi]
    · rw [List.getElem?_eq_none (not_lt.1 hi)]
  have hnul : ∀ c ∈ w.text, (c != 0) = true := by
    intro c hc
    refine bne_iff_ne.2 ?_
    rintro rfl
    refine h0 (hw.suffix.subset ?_)
    rw [hw.split]
    exact mem_append_left _ hc
  rw [Span.str, hlen, ← take_append_drop w.text.length (cut.drop pre.length), htake,
    takeWhile_append_of_pos hnul, drop_drop, ← hend, takeWhile_eq_nil_iff.2,
    append_nil]
  intro hpos
  have hc := List.getElem?_eq_getElem hpos
  rw [List.getElem?_drop, Nat.add_zero] at hc
  rw [get_eq_getElem, he _ hc]
  decide

theorem Cmd.map_congr {f g : σ → τ} {cmd : Cmd σ} (h : cmd.All fun w => f w = g w) :
    cmd.map f = cmd.map g := by
  induction cmd with
  | exec argv => exact congrArg Cmd.exec (map_congr_left h)
  | redir cmd file mode fd ih => rw [Cmd.map, Cmd.map, ih h.1, h.2]
  | pipe left right ihl ihr => rw [Cmd.map, Cmd.map, ihl h.1, ihr h.2]
  | list left right ihl ihr => rw [Cmd.map, Cmd.map, ihl h.1, ihr h.2]
  | back cmd ih => rw [Cmd.map, Cmd.map, ih h]

theorem Cmd.All.and {p q : σ → Prop} {cmd : Cmd σ} (hp : cmd.All p) (hq : cmd.All q) :
    cmd.All fun w => p w ∧ q w := by
  induction cmd with
  | exec argv => exact fun w hw => ⟨hp w hw, hq w hw⟩
  | redir cmd file mode fd ih => exact ⟨ih hp.1 hq.1, hp.2, hq.2⟩
  | pipe left right ihl ihr => exact ⟨ihl hp.1 hq.1, ihr hp.2 hq.2⟩
  | list left right ihl ihr => exact ⟨ihl hp.1 hq.1, ihr hp.2 hq.2⟩
  | back cmd ih => exact ih hp hq

/-- The words of the command that is returned. -/
theorem str_nulterminate (h0 : 0 ∉ buf) (hcmd : cmd.All (Span.IsWord buf)) :
    cmd.map (Span.str buf.length (nulterminate buf.length cmd buf)) = cmd.map Span.text := by
  obtain ⟨hcut, hends, -⟩ := nulterminate_cut hcmd (Cut.refl buf)
  exact Cmd.map_congr ((hcmd.and hends).imp fun w hw => str_eq_text h0 hcut hw.1 hw.2)

end

/-! ## The parser -/

/-- For every line the parser stops, and it returns a command exactly if the grammar derives the
line: the command that the derivation denotes. -/
theorem parsecmd_exact (line : CString) (n : Nat) :
    parsecmd (4 * line.bytes.length + 4 + n) line.bytes ≠ .error .fuel ∧
      ∀ c, (∃ cmd cut, parsecmd (4 * line.bytes.length + 4 + n) line.bytes = .ok (cmd, cut) ∧
        cmd.map (Span.str line.bytes.length cut) = c) ↔ Derives .line (tokens line.bytes) c := by
  have hlen := tokens_length_le line.bytes
  have hfuel : 4 * (tokens line.bytes).length + 4 ≤ 4 * line.bytes.length + 4 + n := by omega
  generalize 4 * line.bytes.length + 4 + n = fuel at hfuel
  refine ⟨?_, fun c => ⟨?_, fun hd => ?_⟩⟩
  · refine bind_ne_error ((parse_ne_fuel fuel).1 hfuel) ?_
    rintro ⟨cmd, s⟩ -
    dsimp only
    split
    · exact nofun
    · exact nofun
  · rintro ⟨cmd, cut, h, rfl⟩
    obtain ⟨⟨cmd1, s⟩, hline, h⟩ := bind_eq_ok.1 h
    obtain ⟨⟨ts, hts, hd⟩, -, hwords⟩ := (parse_sound fuel).1 hline
    dsimp only at h
    split at h
    · cases h
    next hs =>
    cases h
    have hend : tokens s = [] := by
      rw [← tokens_peek s [], not_not.1 hs]
      exact tokens_of_gettoken rfl
    rw [hend, append_nil] at hts
    rw [str_nulterminate line.noNul (hwords suffix_rfl), hts]
    exact hd
  · have hts : tokens line.bytes = tokens line.bytes ++ [] := (append_nil _).symm
    obtain ⟨cmd, s, hline, hs, hmap⟩ := derives_complete (p := .line) hd hts nofun hfuel
    have hwords := ((parse_sound fuel).1 hline).words suffix_rfl
    refine ⟨cmd, nulterminate line.bytes.length cmd line.bytes, ?_, ?_⟩
    · refine bind_eq_ok.2 ⟨(cmd, s), hline, ?_⟩
      exact if_neg (not_not.2 (skip_eq_nil hs))
    · rw [str_nulterminate line.noNul hwords, hmap]

/-! ## Words after `nulterminate` -/

/-- All `argv` of the command, each up to its null pointer. -/
def Cmd.Execs {σ : Type} (p : List σ → Prop) : Cmd σ → Prop
  | .exec argv => p argv
  | .redir cmd _ _ _ => cmd.Execs p
  | .pipe left right => left.Execs p ∧ right.Execs p
  | .list left right => left.Execs p ∧ right.Execs p
  | .back cmd => cmd.Execs p

section
variable {σ τ : Type} {p : List (List UInt8) → Prop} {c : Cmd (List UInt8)}

theorem Cmd.execs_map {f : σ → τ} {q : List τ → Prop} {cmd : Cmd σ} :
    (cmd.map f).Execs q ↔ cmd.Execs fun argv => q (argv.map f) := by
  induction cmd with
  | exec argv => rfl
  | redir cmd file mode fd ih => exact ih
  | pipe left right ihl ihr => exact and_congr ihl ihr
  | list left right ihl ihr => exact and_congr ihl ihr
  | back cmd ih => exact ih

theorem execs_wrap (rs : List Redir) (h : c.Execs p) : (wrap c rs).Execs p := by
  induction rs generalizing c with
  | nil => exact h
  | cons r rs ih =>
    refine ih ?_
    exact h

theorem execs_backs (k : Nat) (h : c.Execs p) : (backs k c).Execs p := by
  induction k generalizing c with
  | zero => exact h
  | succ k ih =>
    refine ih ?_
    exact h

/-- A command that is derived has room for the null pointers. -/
theorem Derives.execs (h : Derives part ts c) : c.Execs fun argv => argv.length < MAXARGS := by
  induction h with
  | line _ ih => exact execs_backs _ ih
  | list _ _ ihl ihr => exact ⟨execs_backs _ ihl, ihr⟩
  | single _ ih => exact ih
  | pipe _ _ ihl ihr => exact ⟨ihl, ihr⟩
  | block _ _ ih => exact execs_wrap _ ih
  | words _ _ hlen =>
    refine execs_wrap _ ?_
    exact Nat.lt_of_le_sub_one (by decide) hlen

end

/-- Every word of a line that the parser accepts is, as a string in the line that `nulterminate` has
cut, what `gettoken` has found there; and every `argv` has its null pointer. -/
theorem words_survive (line : CString) {n : Nat} {cmd : Cmd Span} {cut : List UInt8}
    (h : parsecmd n line.bytes = .ok (cmd, cut)) :
    (cmd.All fun w => w.q <:+ line.bytes ∧ (∃ s, gettoken w.q = (.word, w, s)) ∧
        w.str line.bytes.length cut = w.text) ∧ cmd.Execs fun argv => argv.length < MAXARGS := by
  obtain ⟨⟨cmd1, s⟩, hline, h⟩ := bind_eq_ok.1 h
  obtain ⟨⟨ts, -, hd⟩, -, hwords⟩ := (parse_sound n).1 hline
  dsimp only at h
  split at h
  · cases h
  cases h
  have hword : cmd.All (Span.IsWord line.bytes) := hwords suffix_rfl
  obtain ⟨hcut, hends, -⟩ := nulterminate_cut hword (Cut.refl line.bytes)
  refine ⟨(hword.and hends).imp fun w hw =>
    ⟨hw.1.suffix, hw.1.gettoken, str_eq_text line.noNul hcut hw.1 hw.2⟩, ?_⟩
  have hlen := Cmd.execs_map.1 hd.execs
  simpa only [length_map] using hlen

/-- `a>b` -/
theorem words_survive_adjacent : ∃ cmd cut, parsecmd 20 [97, 62, 98] = .ok (cmd, cut) ∧
    cut = [97, 0, 98] ∧ cmd.All fun w => w.str 3 cut = w.text := by
  obtain ⟨cmd, hcmd⟩ : ∃ cmd, parsecmd 20 [97, 62, 98] = .ok (cmd, [97, 0, 98]) := ⟨_, rfl⟩
  exact ⟨cmd, _, hcmd, rfl, (words_survive ⟨[97, 62, 98], by decide⟩ hcmd).1.imp fun _ h => h.2.2⟩

end Msboss.Sh
