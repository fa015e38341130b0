import Msboss.Sh.Tokens

/-!
# The grammar of the shell

The grammar that the parser follows, as derivations of token sequences together with the command
that each denotes:

    line   ::= pipe {'&'} [';' line]
    pipe   ::= exec ['|' pipe]
    exec   ::= '(' line ')' redirs | redirs {word redirs}
    redirs ::= {('<' | '>' | '>>') word}

The parser returns exactly what the grammar derives (`parsecmd_exact`). It decides by the next
token, so the converse direction needs what may follow each part (`Part.follow`).
-/

namespace Msboss.Sh

open List

/-! ## Derivations -/

/-- A redirection. -/
structure Redir where
  file : List UInt8
  mode : Nat
  fd : Nat
  deriving DecidableEq, Repr

/-- The mode and the descriptor of a redirection. -/
def Token.redir : Token → Option (Nat × Nat)
  | .lt => some (O_RDONLY, 0)
  | .gt | .append => some (O_WRONLY ||| O_CREATE, 1)
  | _ => none

/-- `redirs` -/
inductive Redirs : List Token → List Redir → Prop
  | nil : Redirs [] []
  | cons {t : Token} {file : List UInt8} {mode fd : Nat} {ts : List Token} {rs : List Redir} :
      t.redir = some (mode, fd) → Redirs ts rs → Redirs (t :: .word file :: ts)
        (⟨file, mode, fd⟩ :: rs)

/-- `{word redirs}` -/
inductive Args : List Token → List (List UInt8) → List Redir → Prop
  | nil : Args [] [] []
  | cons {w : List UInt8} {ts ts' : List Token} {ws : List (List UInt8)} {rs rs' : List Redir} :
      Redirs ts rs → Args ts' ws rs' → Args (.word w :: (ts ++ ts')) (w :: ws) (rs ++ rs')

/-- Each redirection goes around what precedes it. -/
def wrap (cmd : Cmd (List UInt8)) (rs : List Redir) : Cmd (List UInt8) :=
  rs.foldl (fun cmd r => .redir cmd r.file r.mode r.fd) cmd

/-- A `back` for each `&`. -/
def backs (k : Nat) (cmd : Cmd (List UInt8)) : Cmd (List UInt8) := Nat.iterate .back k cmd

/-- The nonterminals. -/
inductive Part
  | line
  | pipe
  | exec

/-- What each nonterminal derives, and the command that the derivation denotes. -/
inductive Derives : Part → List Token → Cmd (List UInt8) → Prop
  | line {k : Nat} {ts : List Token} {cmd : Cmd (List UInt8)} : Derives .pipe ts cmd →
      Derives .line (ts ++ .replicate k .amp) (backs k cmd)
  | list {k : Nat} {ts ts' : List Token} {left right : Cmd (List UInt8)} : Derives .pipe ts left →
      Derives .line ts' right →
      Derives .line (ts ++ .replicate k .amp ++ .semi :: ts') (.list (backs k left) right)
  | single {ts : List Token} {cmd : Cmd (List UInt8)} : Derives .exec ts cmd → Derives .pipe ts cmd
  | pipe {ts ts' : List Token} {left right : Cmd (List UInt8)} : Derives .exec ts left →
      Derives .pipe ts' right → Derives .pipe (ts ++ .pipe :: ts') (.pipe left right)
  | block {ts ts' : List Token} {cmd : Cmd (List UInt8)} {rs : List Redir} : Derives .line ts cmd →
      Redirs ts' rs → Derives .exec (.lparen :: (ts ++ .rparen :: ts')) (wrap cmd rs)
  | words {ts ts' : List Token} {ws : List (List UInt8)} {rs rs' : List Redir} : Redirs ts rs →
      Args ts' ws rs' → ws.length ≤ MAXARGS - 1 →
      Derives .exec (ts ++ ts') (wrap (.exec ws) (rs ++ rs'))

/-- The tokens that may follow. -/
def Part.follow : Part → List Token
  | .line => [.rparen]
  | .pipe => [.rparen, .amp, .semi]
  | .exec => [.rparen, .amp, .semi, .pipe]

/-- The rest of the line begins with a token that may follow, or is empty. -/
def Part.Follows (p : Part) (ts : List Token) : Prop := ∀ t ∈ ts.head?, t ∈ p.follow

/-! ## Commands -/

section
variable {σ τ : Type} {f : σ → τ} {cmd : Cmd σ} {rs rs' : List Redir} {c : Cmd (List UInt8)}

/-- All words of the command. -/
def Cmd.All (p : σ → Prop) : Cmd σ → Prop
  | .exec argv => ∀ w ∈ argv, p w
  | .redir cmd file _ _ => cmd.All p ∧ p file
  | .pipe left right => left.All p ∧ right.All p
  | .list left right => left.All p ∧ right.All p
  | .back cmd => cmd.All p

theorem Cmd.map_push (f : σ → τ) (w : σ) (cmd : Cmd σ) :
    (cmd.push w).map f = (cmd.map f).push (f w) := by
  induction cmd with
  | exec argv => simp [Cmd.push, Cmd.map]
  | redir cmd file mode fd ih => simp [Cmd.push, Cmd.map, ih]
  | pipe | list | back => rfl

theorem Cmd.all_push (hw : p w) (h : cmd.All p) : (cmd.push w).All p := by
  induction cmd with
  | exec argv =>
    intro w' hw'
    rcases mem_append.1 hw' with hmem | hmem
    · exact h w' hmem
    · rw [mem_singleton.1 hmem]
      exact hw
  | redir cmd file mode fd ih => exact ⟨ih h.1, h.2⟩
  | pipe | list | back => exact h

/-- The words are put into the command at the bottom. -/
def pushes (cmd : Cmd (List UInt8)) (ws : List (List UInt8)) : Cmd (List UInt8) :=
  ws.foldl (fun cmd w => cmd.push w) cmd

theorem wrap_append : wrap c (rs ++ rs') = wrap (wrap c rs) rs' := foldl_append

theorem push_wrap (w : List UInt8) : (wrap c rs).push w = wrap (c.push w) rs := by
  induction rs generalizing c with
  | nil => rfl
  | cons r rs ih => exact ih

theorem pushes_wrap (ws : List (List UInt8)) : pushes (wrap c rs) ws = wrap (pushes c ws) rs := by
  induction ws generalizing c with
  | nil => rfl
  | cons w ws ih =>
    rw [pushes, foldl_cons, push_wrap]
    exact ih

theorem pushes_exec (argv ws : List (List UInt8)) : pushes (.exec argv) ws =
    .exec (argv ++ ws) := by
  induction ws generalizing argv with
  | nil => rw [append_nil]; rfl
  | cons w ws ih => exact (ih _).trans (by rw [append_assoc]; rfl)

end

/-! ## Looking ahead -/

section
variable {s s' line : Ptr} {tok : Tok} {w : Span} {t : Token} {ts : List Token}

theorem peek_iff {q : Token → Prop} (hsub : ∀ c ∈ toks, symbols c = true)
    (hq : ∀ t : Token, t.symbol.any toks.contains = true ↔ q t) :
    (peek s toks).1 = true ↔ ∃ t ts, tokens s = t :: ts ∧ q t := by
  rw [peek_fst hsub]
  cases tokens s with
  | nil => simp
  | cons t ts => simp [hq]

theorem peek_pipe : (peek s [124]).1 = true ↔ ∃ t ts, tokens s = t :: ts ∧ t = .pipe :=
  peek_iff (by simp [symbols]) fun t => by cases t <;> simp [Token.symbol]

theorem peek_lparen : (peek s [40]).1 = true ↔ ∃ t ts, tokens s = t :: ts ∧ t = .lparen :=
  peek_iff (by simp [symbols]) fun t => by cases t <;> simp [Token.symbol]

theorem peek_rparen : (peek s [41]).1 = true ↔ ∃ t ts, tokens s = t :: ts ∧ t = .rparen :=
  peek_iff (by simp [symbols]) fun t => by cases t <;> simp [Token.symbol]

theorem peek_semi : (peek s [59]).1 = true ↔ ∃ t ts, tokens s = t :: ts ∧ t = .semi :=
  peek_iff (by simp [symbols]) fun t => by cases t <;> simp [Token.symbol]

theorem peek_amp : (peek s [38]).1 = true ↔ ∃ t ts, tokens s = t :: ts ∧ t = .amp :=
  peek_iff (by simp [symbols]) fun t => by cases t <;> simp [Token.symbol]

theorem peek_redir : (peek s [60, 62]).1 = true ↔ ∃ t ts, tokens s = t :: ts ∧ t.redir ≠ none :=
  peek_iff (by simp [symbols]) fun t => by cases t <;> simp [Token.symbol, Token.redir]

theorem peek_exec : (peek s [124, 41, 38, 59]).1 = true ↔
    ∃ t ts, tokens s = t :: ts ∧ t ∈ Part.exec.follow :=
  peek_iff (by simp [symbols]) fun t => by cases t <;> simp [Token.symbol, Part.follow]

/-- `peek`, with what it leaves. -/
theorem peek_spec {q : Prop} (hq : (peek s toks).1 = true ↔ q) :
    ∃ b s1, peek s toks = (b, s1) ∧ (b = true ↔ q) ∧ tokens s1 = tokens s ∧ s1 <:+ s :=
  ⟨_, _, rfl, hq, tokens_peek s toks, peek_suffix s toks⟩

theorem redircmd_eq {w : List UInt8} (ht : tok.token w = some t) (hr : t.redir = some (mode, fd)) :
    redircmd cmd file tok = .redir cmd file mode fd := by
  cases tok <;> cases ht <;> cases hr <;> rfl

end

/-! ## What the parser returns is derived -/

/-- `parseredirs` has read redirections. -/
structure Redirected (s : Ptr) (cmd cmd' : Cmd Span) (s' : Ptr) : Prop where
  derives : ∃ ts rs, tokens s = ts ++ tokens s' ∧ Redirs ts rs ∧
    cmd'.map Span.text = wrap (cmd.map Span.text) rs
  suffix : s' <:+ s
  words : ∀ {line}, s <:+ line → cmd.All (Span.IsWord line) → cmd'.All (Span.IsWord line)

/-- The loop of `parseexec` has read words and redirections. -/
structure Argued (s : Ptr) (argc : Nat) (cmd cmd' : Cmd Span) (s' : Ptr) : Prop where
  derives : ∃ ts ws rs, tokens s = ts ++ tokens s' ∧ Args ts ws rs ∧
    argc + ws.length ≤ MAXARGS - 1 ∧
    cmd'.map Span.text = wrap (pushes (cmd.map Span.text) ws) rs
  suffix : s' <:+ s
  words : ∀ {line}, s <:+ line → cmd.All (Span.IsWord line) → cmd'.All (Span.IsWord line)

/-- The parser has read a part of the line. -/
structure Parsed (p : Part) (s : Ptr) (cmd : Cmd Span) (s' : Ptr) : Prop where
  derives : ∃ ts, tokens s = ts ++ tokens s' ∧ Derives p ts (cmd.map Span.text)
  suffix : s' <:+ s
  words : ∀ {line}, s <:+ line → cmd.All (Span.IsWord line)

section
variable {n argc : Nat} {s s' : Ptr} {cmd cmd' : Cmd Span}

theorem parseredirs_sound (h : parseredirs n cmd s = .ok (cmd', s')) :
    Redirected s cmd cmd' s' := by
  induction n generalizing s cmd with
  | zero => cases h
  | succ n ih =>
    obtain ⟨b, s1, hp, hb, htok1, hsuf1⟩ := peek_spec (s := s) peek_redir
    simp only [parseredirs, hp] at h
    split at h
    · next hmore =>
      obtain ⟨t, ts, hts, hr⟩ := hb.1 hmore
      obtain ⟨⟨mode, fd⟩, hr⟩ := Option.ne_none_iff_exists'.1 hr
      obtain ⟨tok, w, s2, hg, ht, rfl, hsuf2⟩ := gettoken_cons (htok1.trans hts)
      obtain ⟨tok', file, s3, hg', -⟩ := gettoken_lexed s2
      simp only [hg, hg'] at h
      split at h
      · cases h
      next hword =>
      cases not_not.1 hword
      have hfile := tokens_of_gettoken hg'
      have hsuf3 := gettoken_suffix hg'
      rw [redircmd_eq ht hr] at h
      obtain ⟨⟨ts, rs, hts', hrs, hmap⟩, hsuf, hwords⟩ := ih h
      have hsuf0 := hsuf2.trans hsuf1
      refine ⟨⟨t :: .word file.text :: ts, ⟨file.text, mode, fd⟩ :: rs, ?_, .cons hr hrs, hmap⟩,
        (hsuf.trans hsuf3).trans hsuf0, fun {line} hline hall => ?_⟩
      · rw [hts, hfile]
        exact congrArg (t :: .word file.text :: ·) hts'
      · have hline2 := hsuf0.trans hline
        exact hwords (hsuf3.trans hline2) ⟨hall, gettoken_word hg' hline2⟩
    · cases h
      exact ⟨⟨[], [], htok1.symm, .nil, rfl⟩, hsuf1, fun _ hall => hall⟩

theorem parseargs_sound (hargc : argc < MAXARGS) (h : parseargs n argc cmd s = .ok (cmd', s')) :
    Argued s argc cmd cmd' s' := by
  induction n generalizing s cmd argc with
  | zero => cases h
  | succ n ih =>
    obtain ⟨b, s1, hp, hb, htok1, hsuf1⟩ := peek_spec (s := s) peek_exec
    simp only [parseargs, hp] at h
    split at h
    · cases h
      exact ⟨⟨[], [], [], htok1.symm, .nil, Nat.le_pred_of_lt hargc, rfl⟩, hsuf1,
        fun _ hall => hall⟩
    cases hts : tokens s with
    | nil =>
      obtain ⟨w, hg⟩ := gettoken_nil (htok1.trans hts)
      simp only [hg, if_true] at h
      cases h
      have hend : tokens [] = [] := tokens_of_gettoken (s := []) rfl
      refine ⟨⟨[], [], [], ?_, .nil, Nat.le_pred_of_lt hargc, rfl⟩, nil_suffix, fun _ hall => hall⟩
      rw [hts, hend]
      rfl
    | cons t ts =>
      obtain ⟨tok, w, s2, hg, ht, rfl, hsuf2⟩ := gettoken_cons (htok1.trans hts)
      have hnul : tok ≠ .nul := by
        rintro rfl
        cases ht
      simp only [hg, if_neg hnul] at h
      split at h
      · cases h
      next hword =>
      cases not_not.1 hword
      cases ht
      split at h
      · cases h
      next hmax =>
      obtain ⟨⟨ret, s3⟩, hr, h⟩ := bind_eq_ok.1 h
      obtain ⟨⟨ts1, rs1, hts1, hrs1, hmap1⟩, hsuf3, hwords1⟩ := parseredirs_sound hr
      obtain ⟨⟨ts2, ws, rs2, hts2, hargs, hlen, hmap2⟩, hsuf, hwords2⟩ := ih (Nat.not_le.1 hmax) h
      have hsuf0 := hsuf2.trans hsuf1
      refine ⟨⟨_, w.text :: ws, rs1 ++ rs2, ?_, .cons hrs1 hargs, ?_, ?_⟩,
        (hsuf.trans hsuf3).trans hsuf0, fun {line} hline hall => ?_⟩
      · rw [hts, hts1, hts2, cons_append, append_assoc]
      · rw [length_cons]
        omega
      · rw [hmap2, hmap1, Cmd.map_push, pushes_wrap, wrap_append]
        rfl
      · have hline2 := hsuf0.trans hline
        refine hwords2 (hsuf3.trans hline2) (hwords1 hline2 (Cmd.all_push ?_ hall))
        exact gettoken_word hg (hsuf1.trans hline)

theorem parseamps_sound (h : parseamps n cmd s = .ok (cmd', s')) : ∃ k,
    tokens s = .replicate k .amp ++ tokens s' ∧ cmd'.map Span.text = backs k (cmd.map Span.text) ∧
      s' <:+ s ∧ ∀ {line}, cmd.All (Span.IsWord line) → cmd'.All (Span.IsWord line) := by
  induction n generalizing s cmd with
  | zero => cases h
  | succ n ih =>
    obtain ⟨b, s1, hp, hb, htok1, hsuf1⟩ := peek_spec (s := s) peek_amp
    simp only [parseamps, hp] at h
    split at h
    · next hmore =>
      obtain ⟨t, ts, hts, rfl⟩ := hb.1 hmore
      obtain ⟨tok, w, s2, hg, ht, rfl, hsuf2⟩ := gettoken_cons (htok1.trans hts)
      simp only [hg] at h
      obtain ⟨k, hk, hmap, hsuf, hwords⟩ := ih h
      refine ⟨k + 1, ?_, hmap, (hsuf.trans hsuf2).trans hsuf1, fun hall => hwords hall⟩
      rw [hts, hk]
      rfl
    · cases h
      exact ⟨0, htok1.symm, rfl, hsuf1, fun hall => hall⟩

theorem parseline_sound
    (ihpipe : ∀ {s cmd s'}, parsepipe n s = .ok (cmd, s') → Parsed .pipe s cmd s')
    (ihline : ∀ {s cmd s'}, parseline n s = .ok (cmd, s') → Parsed .line s cmd s')
    (h : parseline (n + 1) s = .ok (cmd, s')) : Parsed .line s cmd s' := by
  simp only [parseline] at h
  obtain ⟨⟨c1, s1⟩, h1, h⟩ := bind_eq_ok.1 h
  obtain ⟨⟨c2, s2⟩, h2, h⟩ := bind_eq_ok.1 h
  obtain ⟨⟨ts, hts, hd⟩, hsuf1, hw1⟩ := ihpipe h1
  obtain ⟨k, hk, hmap, hsuf2, hw2⟩ := parseamps_sound h2
  obtain ⟨b, s3, hp, hb, htok, hsuf3⟩ := peek_spec (s := s2) peek_semi
  have hsuf := (hsuf3.trans hsuf2).trans hsuf1
  simp only [hp] at h
  split at h
  · next hmore =>
    obtain ⟨t, ts', hts', rfl⟩ := hb.1 hmore
    obtain ⟨tok, w, s4, hg, -, rfl, hsuf4⟩ := gettoken_cons (htok.trans hts')
    simp only [hg] at h
    obtain ⟨⟨c3, s5⟩, h3, h⟩ := bind_eq_ok.1 h
    cases h
    obtain ⟨⟨ts'', hts'', hd''⟩, hsuf5, hw3⟩ := ihline h3
    refine ⟨⟨ts ++ .replicate k .amp ++ .semi :: ts'', ?_, ?_⟩, (hsuf5.trans hsuf4).trans hsuf,
      fun hline => ⟨hw2 (hw1 hline), hw3 ((hsuf4.trans hsuf).trans hline)⟩⟩
    · simp only [hts, hk, hts', hts'', append_assoc, cons_append]
    · rw [Cmd.map, hmap]
      exact .list hd hd''
  · cases h
    refine ⟨⟨ts ++ .replicate k .amp, ?_, ?_⟩, hsuf, fun hline => hw2 (hw1 hline)⟩
    · rw [hts, hk, htok, append_assoc]
    · rw [hmap]
      exact .line hd

theorem parsepipe_sound
    (ihexec : ∀ {s cmd s'}, parseexec n s = .ok (cmd, s') → Parsed .exec s cmd s')
    (ihpipe : ∀ {s cmd s'}, parsepipe n s = .ok (cmd, s') → Parsed .pipe s cmd s')
    (h : parsepipe (n + 1) s = .ok (cmd, s')) : Parsed .pipe s cmd s' := by
  simp only [parsepipe] at h
  obtain ⟨⟨c1, s1⟩, h1, h⟩ := bind_eq_ok.1 h
  obtain ⟨⟨ts, hts, hd⟩, hsuf1, hw1⟩ := ihexec h1
  obtain ⟨b, s2, hp, hb, htok, hsuf2⟩ := peek_spec (s := s1) peek_pipe
  have hsuf := hsuf2.trans hsuf1
  simp only [hp] at h
  split at h
  · next hmore =>
    obtain ⟨t, ts', hts', rfl⟩ := hb.1 hmore
    obtain ⟨tok, w, s3, hg, -, rfl, hsuf3⟩ := gettoken_cons (htok.trans hts')
    simp only [hg] at h
    obtain ⟨⟨c2, s4⟩, h2, h⟩ := bind_eq_ok.1 h
    cases h
    obtain ⟨⟨ts'', hts'', hd''⟩, hsuf4, hw2⟩ := ihpipe h2
    refine ⟨⟨ts ++ .pipe :: ts'', ?_, .pipe hd hd''⟩, (hsuf4.trans hsuf3).trans hsuf,
      fun hline => ⟨hw1 hline, hw2 ((hsuf3.trans hsuf).trans hline)⟩⟩
    simp only [hts, hts', hts'', append_assoc, cons_append]
  · cases h
    exact ⟨⟨ts, by rw [hts, htok], .single hd⟩, hsuf, hw1⟩

theorem parseblock_sound
    (ihline : ∀ {s cmd s'}, parseline n s = .ok (cmd, s') → Parsed .line s cmd s')
    (h : parseblock (n + 1) s = .ok (cmd, s')) : Parsed .exec s cmd s' := by
  obtain ⟨b, s1, hp, hb, htok1, hsuf1⟩ := peek_spec (s := s) peek_lparen
  simp only [parseblock, hp] at h
  split at h
  swap
  · cases h
  next hmore =>
  obtain ⟨t, ts, hts, rfl⟩ := hb.1 hmore
  obtain ⟨tok, w, s2, hg, -, rfl, hsuf2⟩ := gettoken_cons (htok1.trans hts)
  simp only [hg] at h
  obtain ⟨⟨c1, s3⟩, h1, h⟩ := bind_eq_ok.1 h
  obtain ⟨⟨ts1, hts1, hd⟩, hsuf3, hw⟩ := ihline h1
  obtain ⟨b', s4, hp', hb', htok4, hsuf4⟩ := peek_spec (s := s3) peek_rparen
  simp only [hp'] at h
  split at h
  swap
  · cases h
  next hclose =>
  obtain ⟨t, ts2, hts2, rfl⟩ := hb'.1 hclose
  obtain ⟨tok', w', s5, hg', -, rfl, hsuf5⟩ := gettoken_cons (htok4.trans hts2)
  simp only [hg'] at h
  obtain ⟨⟨ts3, rs, hts3, hrs, hmap⟩, hsuf6, hwords⟩ := parseredirs_sound h
  have hin := hsuf2.trans hsuf1
  have hout := ((hsuf5.trans hsuf4).trans hsuf3).trans hin
  refine ⟨⟨.lparen :: (ts1 ++ .rparen :: ts3), ?_, ?_⟩, hsuf6.trans hout,
    fun hline => hwords (hout.trans hline) (hw (hin.trans hline))⟩
  · simp only [hts, hts1, hts2, hts3, cons_append, append_assoc]
  · rw [hmap]
    exact .block hd hrs

theorem parseexec_sound
    (ihblock : ∀ {s cmd s'}, parseblock n s = .ok (cmd, s') → Parsed .exec s cmd s')
    (h : parseexec (n + 1) s = .ok (cmd, s')) : Parsed .exec s cmd s' := by
  obtain ⟨b, s1, hp, -, htok1, hsuf1⟩ := peek_spec (s := s) peek_lparen
  simp only [parseexec, hp] at h
  split at h
  · obtain ⟨⟨ts, hts, hd⟩, hsuf, hw⟩ := ihblock h
    exact ⟨⟨ts, htok1.symm.trans hts, hd⟩, hsuf.trans hsuf1, fun hline => hw (hsuf1.trans hline)⟩
  obtain ⟨⟨c1, s2⟩, h1, h⟩ := bind_eq_ok.1 h
  obtain ⟨⟨ts1, rs1, hts1, hrs, hmap1⟩, hsuf2, hw1⟩ := parseredirs_sound h1
  obtain ⟨⟨ts2, ws, rs2, hts2, hargs, hlen, hmap2⟩, hsuf3, hw2⟩ := parseargs_sound (by decide) h
  refine ⟨⟨ts1 ++ ts2, ?_, ?_⟩, (hsuf3.trans hsuf2).trans hsuf1, fun hline => ?_⟩
  · rw [← htok1, hts1, hts2, append_assoc]
  · rw [hmap2, hmap1, pushes_wrap, Cmd.map, map_nil, pushes_exec, nil_append, ← wrap_append]
    exact .words hrs hargs (by omega)
  · have hline1 := hsuf1.trans hline
    exact hw2 (hsuf2.trans hline1) (hw1 hline1 nofun)

/-- All four functions, by induction on the calls they make. -/
theorem parse_sound (n : Nat) :
    (∀ {s cmd s'}, parseline n s = .ok (cmd, s') → Parsed .line s cmd s') ∧
    (∀ {s cmd s'}, parsepipe n s = .ok (cmd, s') → Parsed .pipe s cmd s') ∧
    (∀ {s cmd s'}, parseblock n s = .ok (cmd, s') → Parsed .exec s cmd s') ∧
    (∀ {s cmd s'}, parseexec n s = .ok (cmd, s') → Parsed .exec s cmd s') := by
  induction n with
  | zero => exact ⟨nofun, nofun, nofun, nofun⟩
  | succ n ih =>
    obtain ⟨ihline, ihpipe, ihblock, ihexec⟩ := ih
    exact ⟨parseline_sound ihpipe ihline, parsepipe_sound ihexec ihpipe, parseblock_sound ihline,
      parseexec_sound ihblock⟩

end

/-! ## What is derived, the parser returns -/

/-- The function for the nonterminal. -/
def Part.parse : Part → Nat → Ptr → Except Stop (Cmd Span × Ptr)
  | .line => parseline
  | .pipe => parsepipe
  | .exec => parseexec

/-- Nested calls that suffice for `n` tokens. -/
def Part.calls (n : Nat) : Part → Nat
  | .line => 4 * n + 4
  | .pipe => 4 * n + 3
  | .exec => 4 * n + 2

section
variable {n argc : Nat} {s : Ptr} {cmd : Cmd Span} {ts rest : List Token} {rs : List Redir}
  {ws : List (List UInt8)}

/-- A function calls two others at most before the next token is read. -/
theorem Part.exists_of_calls {p : Part} (h : p.calls k ≤ n) : ∃ m, n = m + 2 :=
  Nat.exists_eq_add_of_le' (le_trans (by cases p <;> simp [calls]) h)

/-- The next token is looked for, and read. -/
theorem peek_read {P : Token → Prop} (h : (peek s toks).1 = true ↔ ∃ t ts, tokens s = t :: ts ∧ P t)
    (hts : tokens s = t :: ts) (ht : P t) : ∃ s1 tok w s2, peek s toks = (true, s1) ∧
      tokens s1 = tokens s ∧ gettoken s1 = (tok, w, s2) ∧ tok.token w.text = some t ∧
      tokens s2 = ts := by
  obtain ⟨b, s1, hp, hb, htok, -⟩ := peek_spec h
  obtain ⟨tok, w, s2, hg, hw, hts2, -⟩ := gettoken_cons (htok.trans hts)
  rw [hb.2 ⟨t, ts, hts, ht⟩] at hp
  exact ⟨s1, tok, w, s2, hp, htok, hg, hw, hts2⟩

/-- The next token is not looked for. -/
theorem peek_pass {P : Token → Prop} (h : (peek s toks).1 = true ↔ ∃ t ts, tokens s = t :: ts ∧ P t)
    (hno : ∀ t ∈ (tokens s).head?, ¬ P t) :
    ∃ s1, peek s toks = (false, s1) ∧ tokens s1 = tokens s := by
  obtain ⟨b, s1, hp, hb, htok, -⟩ := peek_spec h
  have hb : b = false := Bool.eq_false_iff.2 fun hb' => by
    obtain ⟨t, ts, hts, ht⟩ := hb.1 hb'
    exact hno t (by rw [hts]; rfl) ht
  exact ⟨s1, hb ▸ hp, htok⟩

theorem parseredirs_complete (cmd : Cmd Span) (h : Redirs ts rs) (hts : tokens s = ts ++ rest)
    (hrest : ∀ t ∈ rest.head?, t.redir = none) (hn : (tokens s).length < n) :
    ∃ cmd' s', parseredirs n cmd s = .ok (cmd', s') ∧ tokens s' = rest ∧
      cmd'.map Span.text = wrap (cmd.map Span.text) rs := by
  induction h generalizing s n cmd with
  | nil =>
    obtain ⟨n, rfl⟩ := Nat.exists_eq_succ_of_ne_zero (Nat.ne_zero_of_lt hn)
    rw [nil_append] at hts
    obtain ⟨s1, hp, htok1⟩ := peek_pass peek_redir (s := s) fun t ht hr =>
      hr (hrest t (hts ▸ ht))
    refine ⟨cmd, s1, ?_, htok1.trans hts, rfl⟩
    simp only [parseredirs, hp, Bool.false_eq_true, if_false]
  | @cons t file mode fd ts rs hr _ ih =>
    obtain ⟨n, rfl⟩ := Nat.exists_eq_succ_of_ne_zero (Nat.ne_zero_of_lt hn)
    rw [cons_append, cons_append] at hts
    obtain ⟨s1, tok, w, s2, hp, -, hg, ht, hts2⟩ := peek_read peek_redir hts (by rw [hr]; exact nofun)
    obtain ⟨tok', f, s3, hg', hf, hts3, -⟩ := gettoken_cons hts2
    have hword : tok' = .word ∧ f.text = file := by
      cases tok' <;> cases hf
      exact ⟨rfl, rfl⟩
    obtain ⟨rfl, rfl⟩ := hword
    have hlen : (tokens s3).length < n := by
      rw [hts, length_cons, length_cons] at hn
      rw [hts3]
      omega
    obtain ⟨cmd', s', hok, hend, hmap⟩ := ih (.redir cmd f mode fd) hts3 hlen
    refine ⟨cmd', s', ?_, hend, hmap⟩
    simp only [parseredirs, hp, if_true, hg, hg', ne_eq, not_true_eq_false, if_false,
      redircmd_eq ht hr]
    exact hok

/-- A word does not begin a redirection. -/
theorem Args.head? (h : Args ts ws rs) (hrest : ∀ t ∈ rest.head?, t.redir = none) :
    ∀ t ∈ (ts ++ rest).head?, t.redir = none := by
  cases h with
  | nil => exact hrest
  | cons =>
    intro t ht
    cases ht
    rfl

theorem Part.Follows.redir {p : Part} (h : p.Follows rest) : ∀ t ∈ rest.head?, t.redir = none := by
  intro t ht
  have := h t ht
  cases p <;> simp only [Part.follow, mem_cons, not_mem_nil, or_false] at this
  · rw [this]; rfl
  · rcases this with rfl | rfl | rfl <;> rfl
  · rcases this with rfl | rfl | rfl | rfl <;> rfl

theorem parseargs_complete (argc : Nat) (cmd : Cmd Span) (h : Args ts ws rs)
    (hts : tokens s = ts ++ rest)
    (hrest : Part.exec.Follows rest) (hlen : argc + ws.length ≤ MAXARGS - 1)
    (hn : (tokens s).length < n) :
    ∃ cmd' s', parseargs n argc cmd s = .ok (cmd', s') ∧ tokens s' = rest ∧
      cmd'.map Span.text = wrap (pushes (cmd.map Span.text) ws) rs := by
  induction h generalizing s n cmd argc with
  | nil =>
    obtain ⟨n, rfl⟩ := Nat.exists_eq_succ_of_ne_zero (Nat.ne_zero_of_lt hn)
    obtain ⟨b, s1, hp, hb, htok1, -⟩ := peek_spec (s := s) peek_exec
    cases rest with
    | nil =>
      have hstop : b ≠ true := by
        rw [ne_eq, hb, hts]
        rintro ⟨t, ts, hts', -⟩
        cases hts'
      obtain ⟨w, hg⟩ := gettoken_nil (htok1.trans hts)
      refine ⟨cmd, [], ?_, tokens_of_gettoken (s := []) rfl, rfl⟩
      simp only [parseargs, hp, if_neg hstop, hg, if_true]
    | cons t rest =>
      have hstop : b = true := hb.2 ⟨t, rest, hts, hrest t rfl⟩
      refine ⟨cmd, s1, ?_, htok1.trans hts, rfl⟩
      simp only [parseargs, hp, hstop, if_true]
  | @cons w ts ts' ws rs rs' hrs hargs ih =>
    obtain ⟨n, rfl⟩ := Nat.exists_eq_succ_of_ne_zero (Nat.ne_zero_of_lt hn)
    rw [cons_append, append_assoc] at hts
    obtain ⟨s1, hp, htok1⟩ := peek_pass peek_exec (s := s) (by simp [hts, Part.follow])
    obtain ⟨tok, span, s2, hg, ht, hts2, -⟩ := gettoken_cons (htok1.trans hts)
    have hword : tok = .word ∧ span.text = w := by
      cases tok <;> cases ht
      exact ⟨rfl, rfl⟩
    obtain ⟨rfl, rfl⟩ := hword
    have hlen2 : (tokens s2).length < n := by
      rw [hts, length_cons] at hn
      rw [hts2]
      omega
    obtain ⟨c1, s3, h1, hts3, hmap1⟩ := parseredirs_complete (cmd.push span) hrs hts2
      (hargs.head? hrest.redir) hlen2
    have hlen3 : (tokens s3).length < n := by
      rw [hts2, length_append] at hlen2
      rw [hts3]
      omega
    rw [length_cons] at hlen
    obtain ⟨c2, s4, h2, hts4, hmap2⟩ := ih (argc + 1) c1 hts3 (by omega) hlen3
    refine ⟨c2, s4, ?_, hts4, ?_⟩
    · have hmax : ¬ argc + 1 ≥ MAXARGS := by
        simp only [MAXARGS] at *
        omega
      simp only [parseargs, hp, Bool.false_eq_true, hg, reduceCtorEq, if_false, ne_eq,
        not_true_eq_false, if_neg hmax]
      exact bind_eq_ok.2 ⟨_, h1, h2⟩
    · rw [hmap2, hmap1, Cmd.map_push, pushes_wrap, wrap_append]
      rfl

theorem parseamps_complete (cmd : Cmd Span) (hts : tokens s = .replicate k .amp ++ rest)
    (hrest : .amp ∉ rest.head?) (hn : (tokens s).length < n) :
    ∃ cmd' s', parseamps n cmd s = .ok (cmd', s') ∧ tokens s' = rest ∧
      cmd'.map Span.text = backs k (cmd.map Span.text) := by
  induction k generalizing s n cmd with
  | zero =>
    obtain ⟨n, rfl⟩ := Nat.exists_eq_succ_of_ne_zero (Nat.ne_zero_of_lt hn)
    have hts : tokens s = rest := hts
    obtain ⟨s1, hp, htok1⟩ := peek_pass peek_amp (s := s) fun t ht heq => hrest (heq ▸ hts ▸ ht)
    refine ⟨cmd, s1, ?_, htok1.trans hts, rfl⟩
    simp only [parseamps, hp, Bool.false_eq_true, if_false]
  | succ k ih =>
    obtain ⟨n, rfl⟩ := Nat.exists_eq_succ_of_ne_zero (Nat.ne_zero_of_lt hn)
    rw [replicate_succ, cons_append] at hts
    obtain ⟨s1, tok, w, s2, hp, -, hg, -, hts2⟩ := peek_read peek_amp hts rfl
    have hlen : (tokens s2).length < n := by
      rw [hts, length_cons] at hn
      rw [hts2]
      omega
    obtain ⟨cmd', s', hok, hend, hmap⟩ := ih (.back cmd) hts2 hlen
    refine ⟨cmd', s', ?_, hend, hmap⟩
    simp only [parseamps, hp, if_true, hg]
    exact hok

/-! ### The functions that call each other -/

theorem Part.Follows.mono {p q : Part} (h : p.Follows rest) (hpq : ∀ t ∈ p.follow, t ∈ q.follow) :
    q.Follows rest :=
  fun t ht => hpq t (h t ht)

theorem follows_cons {p : Part} (ht : t ∈ p.follow) : p.Follows (t :: rest) := by
  intro u hu
  cases hu
  exact ht

theorem follows_amps (k : Nat) (h : Part.pipe.Follows rest) :
    Part.pipe.Follows (.replicate k .amp ++ rest) := by
  cases k with
  | zero => exact h
  | succ k => exact follows_cons (by simp [Part.follow])

/-- What is not in parentheses does not begin with one. -/
theorem words_head? (hrs : Redirs ts rs) (hargs : Args ts' ws rs')
    (hrest : Part.exec.Follows rest) : .lparen ∉ (ts ++ (ts' ++ rest)).head? := by
  intro hmem
  cases hrs with
  | cons hr =>
    cases hmem
    cases hr
  | nil =>
    cases hargs with
    | cons => cases hmem
    | nil => simpa [Part.follow] using hrest _ hmem

/-- After the `pipe` of a `line`. -/
theorem parseline_amps
    (hpipe : ∃ cmd s', parsepipe n s = .ok (cmd, s') ∧ tokens s' = .replicate k .amp ++ rest ∧
      cmd.map Span.text = c)
    (hts : tokens s = ts ++ (.replicate k .amp ++ rest)) (hrest : .amp ∉ rest.head?)
    (hn : (tokens s).length < n) : ∃ cmd1 s1 cmd2 s2, parsepipe n s = .ok (cmd1, s1) ∧
      parseamps n cmd1 s1 = .ok (cmd2, s2) ∧ tokens s2 = rest ∧ cmd2.map Span.text = backs k c := by
  obtain ⟨cmd1, s1, h1, hts1, rfl⟩ := hpipe
  have hlen : (tokens s1).length < n := by
    rw [hts, length_append] at hn
    rw [hts1]
    omega
  obtain ⟨cmd2, s2, h2, hts2, hmap⟩ := parseamps_complete cmd1 hts1 hrest hlen
  exact ⟨cmd1, s1, cmd2, s2, h1, h2, hts2, hmap⟩

theorem derives_complete {p : Part} (h : Derives p ts c)
    (hts : tokens s = ts ++ rest) (hrest : p.Follows rest) (hn : p.calls (tokens s).length ≤ n) :
    ∃ cmd s', p.parse n s = .ok (cmd, s') ∧ tokens s' = rest ∧ cmd.map Span.text = c := by
  induction h generalizing s n rest with
  | @line k ts c _ ih =>
    obtain ⟨n, rfl⟩ := Part.exists_of_calls hn
    simp only [Part.calls] at hn
    rw [append_assoc] at hts
    have hamp : .amp ∉ rest.head? := fun hmem => by simpa [Part.follow] using hrest _ hmem
    have hpipe := ih (n := n + 1) hts (follows_amps k (hrest.mono (by simp [Part.follow]))) (by
      simp only [Part.calls]; omega)
    obtain ⟨c1, s1, c2, s2, h1, h2, hts2, hmap⟩ := parseline_amps hpipe hts hamp (by omega)
    obtain ⟨s3, hp, htok⟩ := peek_pass peek_semi (s := s2) fun t ht heq => by
      have := hrest t (hts2 ▸ ht)
      simp [heq, Part.follow] at this
    refine ⟨c2, s3, ?_, htok.trans hts2, hmap⟩
    simp only [Part.parse, parseline]
    refine bind_eq_ok.2 ⟨_, h1, bind_eq_ok.2 ⟨_, h2, ?_⟩⟩
    simp only [hp, Bool.false_eq_true, if_false]
  | @list k ts ts' c c' _ _ ih ih' =>
    obtain ⟨n, rfl⟩ := Part.exists_of_calls hn
    simp only [Part.calls] at hn
    rw [append_assoc, append_assoc, cons_append] at hts
    have hpipe := ih (n := n + 1) hts (follows_amps k (follows_cons (by simp [Part.follow]))) (by
      simp only [Part.calls]; omega)
    obtain ⟨c1, s1, c2, s2, h1, h2, hts2, hmap⟩ := parseline_amps hpipe hts (by simp) (by omega)
    obtain ⟨s3, tok, w, s4, hp, -, hg, -, hts4⟩ := peek_read peek_semi hts2 rfl
    have hlen : (tokens s4).length + 1 ≤ (tokens s).length := by
      rw [hts, hts4]
      simp only [length_append, length_cons]
      omega
    obtain ⟨c3, s5, h3, hts5, hmap'⟩ := ih' (n := n + 1) hts4 hrest (by
      simp only [Part.calls]; omega)
    refine ⟨.list c2 c3, s5, ?_, hts5, by rw [Cmd.map, hmap, hmap']⟩
    simp only [Part.parse, parseline]
    refine bind_eq_ok.2 ⟨_, h1, bind_eq_ok.2 ⟨_, h2, ?_⟩⟩
    simp only [hp, if_true, hg]
    exact bind_eq_ok.2 ⟨_, h3, rfl⟩
  | @single ts c _ ih =>
    obtain ⟨n, rfl⟩ := Part.exists_of_calls hn
    simp only [Part.calls] at hn
    obtain ⟨c1, s1, h1, hts1, hmap⟩ := ih (n := n + 1) hts (hrest.mono (by simp [Part.follow])) (by
      simp only [Part.calls]; omega)
    obtain ⟨s2, hp, htok⟩ := peek_pass peek_pipe (s := s1) fun t ht heq => by
      have := hrest t (hts1 ▸ ht)
      simp [heq, Part.follow] at this
    refine ⟨c1, s2, ?_, htok.trans hts1, hmap⟩
    simp only [Part.parse, parsepipe]
    refine bind_eq_ok.2 ⟨_, h1, ?_⟩
    simp only [hp, Bool.false_eq_true, if_false]
  | @pipe ts ts' c c' _ _ ih ih' =>
    obtain ⟨n, rfl⟩ := Part.exists_of_calls hn
    simp only [Part.calls] at hn
    rw [append_assoc, cons_append] at hts
    obtain ⟨c1, s1, h1, hts1, hmap⟩ := ih (n := n + 1) hts (follows_cons (by simp [Part.follow])) (by
      simp only [Part.calls]; omega)
    obtain ⟨s2, tok, w, s3, hp, -, hg, -, hts3⟩ := peek_read peek_pipe hts1 rfl
    have hlen : (tokens s3).length + 1 ≤ (tokens s).length := by
      rw [hts, hts3]
      simp only [length_append, length_cons]
      omega
    obtain ⟨c2, s4, h2, hts4, hmap'⟩ := ih' (n := n + 1) hts3 hrest (by
      simp only [Part.calls]; omega)
    refine ⟨.pipe c1 c2, s4, ?_, hts4, by rw [Cmd.map, hmap, hmap']⟩
    simp only [Part.parse, parsepipe]
    refine bind_eq_ok.2 ⟨_, h1, ?_⟩
    simp only [hp, if_true, hg]
    exact bind_eq_ok.2 ⟨_, h2, rfl⟩
  | @block ts ts' c rs _ hrs ih =>
    obtain ⟨n, rfl⟩ := Part.exists_of_calls hn
    simp only [Part.calls] at hn
    rw [cons_append, append_assoc, cons_append] at hts
    obtain ⟨s0, -, -, -, hp0, htok0, -⟩ := peek_read peek_lparen hts rfl
    obtain ⟨s1, tok, w, s2, hp1, -, hg, -, hts2⟩ := peek_read peek_lparen (htok0.trans hts) rfl
    have hlen : (tokens s2).length + 1 = (tokens s).length := by rw [hts, hts2, length_cons]
    obtain ⟨c1, s3, h1, hts3, hmap⟩ := ih (n := n) hts2 (follows_cons (by simp [Part.follow])) (by
      simp only [Part.calls]; omega)
    obtain ⟨s4, tok', w', s5, hp4, -, hg', -, hts5⟩ := peek_read peek_rparen hts3 rfl
    have hlen' : (tokens s5).length < n := by
      have : (tokens s5).length ≤ (tokens s2).length := by
        rw [hts2, hts5]
        simp only [length_append, length_cons]
        omega
      omega
    obtain ⟨c2, s6, h2, hts6, hmap2⟩ := parseredirs_complete c1 hrs hts5 hrest.redir hlen'
    refine ⟨c2, s6, ?_, hts6, by rw [hmap2, hmap]⟩
    simp only [Part.parse, parseexec, hp0, if_true, parseblock, hp1, hg]
    refine bind_eq_ok.2 ⟨_, h1, ?_⟩
    simp only [hp4, if_true, hg']
    exact h2
  | @words ts ts' ws rs rs' hrs hargs hws =>
    obtain ⟨n, rfl⟩ := Part.exists_of_calls hn
    simp only [Part.calls] at hn
    rw [append_assoc] at hts
    obtain ⟨s0, hp, htok⟩ := peek_pass peek_lparen (s := s) fun t ht => by
      rintro rfl
      exact words_head? hrs hargs hrest (hts ▸ ht)
    obtain ⟨c1, s1, h1, hts1, hmap1⟩ := parseredirs_complete (n := n + 1) (.exec []) hrs
      (htok.trans hts) (hargs.head? hrest.redir) (by rw [htok]; omega)
    have hlen : (tokens s1).length < n + 1 := by
      have : (tokens s1).length ≤ (tokens s).length := by
        rw [hts, hts1]
        simp only [length_append]
        omega
      omega
    obtain ⟨c2, s2, h2, hts2, hmap2⟩ := parseargs_complete 0 c1 hargs hts1 hrest
      ((Nat.zero_add _).trans_le hws) hlen
    refine ⟨c2, s2, ?_, hts2, ?_⟩
    · simp only [Part.parse, parseexec, hp, Bool.false_eq_true, if_false]
      exact bind_eq_ok.2 ⟨_, h1, h2⟩
    · rw [hmap2, hmap1, pushes_wrap, Cmd.map, map_nil, pushes_exec, nil_append, wrap_append]

end

end Msboss.Sh
