import Msboss.Grep.Matcher
import Msboss.Lib.Bytes
import Msboss.Lib.Lines

/-!
# The loop of `grep`

`grep` reads into a buffer, cuts off the lines that are complete and moves what is left to the front
of the buffer before it reads on. If there is no newline in the buffer it forgets all that is in it,
so that only the end of a line is seen of which the beginning came alone.

How many bytes a `read` returns is up to the file: `sizes k` is what the read number `k` would
return, at least one and at most what was asked for. `heard` are the lines as `grep` gets to see
them, whatever the pattern is; they are those of the input if and only if every read leaves a
newline in the buffer (`Whole`). -/

namespace Msboss.Grep

open Function List
open Lines (cut join)

/-! ## The code -/

/-- `sizeof(buf)`. -/
def BUF : Nat := 1024

/-- `strchr(p, c)`, where the string ends in the next `fuel` bytes. -/
def strchr (buf : Nat → UInt8) (c : UInt8) : Nat → Nat → Option Nat
  | 0, _ => none
  | fuel + 1, p =>
    if buf p = 0 then none else if buf p = c then some p else strchr buf c fuel (p + 1)

/-- The string at `p`. -/
def string (buf : Nat → UInt8) : Nat → Nat → List UInt8
  | 0, _ => []
  | fuel + 1, p => if buf p = 0 then [] else buf p :: string buf fuel (p + 1)

/-- The loop over the lines in the buffer: the buffer, `p` and the output at its end. -/
def lineLoop (re : List UInt8) :
    Nat → (Nat → UInt8) → Nat → List UInt8 → (Nat → UInt8) × Nat × List UInt8
  | 0, buf, p, out => (buf, p, out)
  | fuel + 1, buf, p, out =>
    match strchr buf newline BUF p with
    | none => (buf, p, out)
    | some q =>
      let buf := update buf q 0
      if matchText re (string buf BUF p) then
        let buf := update buf q newline
        lineLoop re fuel buf (q + 1) (out ++ Bytes.read buf p (q + 1 - p))
      else lineLoop re fuel buf (q + 1) out

/-- The variables of `grep`, and what it has written. -/
structure State where
  buf : Nat → UInt8
  m : Nat
  out : List UInt8

/-- A round of `grep`, in which `read` has returned `data`. -/
def round (re : List UInt8) (s : State) (data : List UInt8) : State :=
  let m := s.m + data.length
  let buf := update (Bytes.write s.buf s.m data) m 0
  let (buf, p, out) := lineLoop re BUF buf 0 s.out
  let m := if p = 0 then 0 else m
  if m > 0 then ⟨Bytes.write buf 0 (Bytes.read buf p (m - p)), m - p, out⟩ else ⟨buf, m, out⟩

/-- What the read number `k` returns, with `m` bytes in the buffer. -/
def chunk (sizes : Nat → Nat) (k m : Nat) (stream : List UInt8) : List UInt8 :=
  stream.take (min (max 1 (sizes k)) (BUF - m - 1))

/-- The loop of `grep`. -/
def grepLoop (re : List UInt8) (sizes : Nat → Nat) : Nat → Nat → State → List UInt8 → State
  | 0, _, s, _ => s
  | fuel + 1, k, s, stream =>
    let data := chunk sizes k s.m stream
    if data = [] then s
    else grepLoop re sizes fuel (k + 1) (round re s data) (stream.drop data.length)

/-- What `grep` writes. The buffer is left from another file; a read takes a byte at least, so that
the length of the input is enough. -/
def grep (re : List UInt8) (buf : Nat → UInt8) (sizes : Nat → Nat)
    (stream : List UInt8) : List UInt8 :=
  (grepLoop re sizes stream.length 0 ⟨buf, 0, []⟩ stream).out

/-! ## What it should write, and what it does -/

/-- The lines that match. -/
def matching (re stream : List UInt8) : List UInt8 :=
  join newline ((cut newline stream).1.filter (matchText re))

/-- What is kept after a read, of what is in the buffer. -/
def kept (l : List UInt8) : List UInt8 := if (cut newline l).1 = [] then [] else (cut newline l).2

/-- The lines that `grep` sees, with `pend` in the buffer. -/
def heardLoop (sizes : Nat → Nat) : Nat → Nat → List UInt8 → List UInt8 → List (List UInt8)
  | 0, _, _, _ => []
  | fuel + 1, k, pend, stream =>
    let data := chunk sizes k pend.length stream
    if data = [] then []
    else (cut newline (pend ++ data)).1 ++
      heardLoop sizes fuel (k + 1) (kept (pend ++ data)) (stream.drop data.length)

/-- The lines that `grep` sees. -/
def heard (sizes : Nat → Nat) (stream : List UInt8) : List (List UInt8) :=
  heardLoop sizes stream.length 0 [] stream

/-- Every read leaves a newline in the buffer, with `pend` in it before. -/
def WholeLoop (sizes : Nat → Nat) : Nat → Nat → List UInt8 → List UInt8 → Prop
  | 0, _, _, _ => True
  | fuel + 1, k, pend, stream =>
    let data := chunk sizes k pend.length stream
    data = [] ∨ newline ∈ pend ++ data ∧
      WholeLoop sizes fuel (k + 1) (kept (pend ++ data)) (stream.drop data.length)

/-- Every read leaves a newline in the buffer. -/
def Whole (sizes : Nat → Nat) (stream : List UInt8) : Prop :=
    WholeLoop sizes stream.length 0 [] stream

/-- Every line has at most 1022 bytes and ends in a newline. -/
structure Lined (stream : List UInt8) : Prop where
  rest : (cut newline stream).2 = []
  short : ∀ l ∈ (cut newline stream).1, l.length ≤ 1022

/-! ## Strings in the buffer -/

/-- The bytes `l` are in the buffer at `p`. -/
def At (buf : Nat → UInt8) (p : Nat) (l : List UInt8) : Prop := Bytes.read buf p l.length = l

section
variable {buf : Nat → UInt8} {p q fuel : Nat} {a c : UInt8} {l l' : List UInt8}

theorem read_succ (buf : Nat → UInt8) (p n : Nat) :
    Bytes.read buf p (n + 1) = buf p :: Bytes.read buf (p + 1) n := by
  rw [Bytes.read, range_succ_eq_map, map_cons, map_map]
  refine congrArg (buf p :: ·) (map_congr_left fun i _ => ?_)
  rw [comp_apply, Nat.add_right_comm]
  rfl

@[simp] theorem at_nil : At buf p [] := rfl

theorem at_cons : At buf p (a :: l) ↔ buf p = a ∧ At buf (p + 1) l := by
  rw [At, length_cons, read_succ, List.cons.injEq]
  rfl

theorem at_append : At buf p (l ++ l') ↔ At buf p l ∧ At buf (p + l.length) l' := by
  induction l generalizing p with
  | nil => simp
  | cons a l ih =>
    rw [cons_append, at_cons, at_cons, ih, and_assoc, length_cons, Nat.add_assoc,
      Nat.add_comm 1]

/-- What is stored elsewhere. -/
theorem At.update (h : At buf p l) (hq : q < p ∨ p + l.length ≤ q) : At (update buf q a) p l := by
  refine Eq.trans (map_congr_left fun i hi => ?_) h
  have hi := mem_range.1 hi
  exact update_of_ne (by omega) _ _

theorem string_eq (h : At buf p l) (h0 : 0 ∉ l) (hend : buf (p + l.length) = 0)
    (hfuel : l.length < fuel) : string buf fuel p = l := by
  induction l generalizing p fuel with
  | nil =>
    obtain ⟨fuel, rfl⟩ := Nat.exists_eq_add_one_of_ne_zero (Nat.ne_of_gt hfuel)
    exact if_pos hend
  | cons a l ih =>
    obtain ⟨fuel, rfl⟩ := Nat.exists_eq_add_one_of_ne_zero (Nat.ne_zero_of_lt hfuel)
    obtain ⟨ha, hl⟩ := at_cons.1 h
    rw [mem_cons, not_or] at h0
    rw [length_cons] at hend hfuel
    rw [string, ha, if_neg (Ne.symm h0.1),
      ih hl h0.2 (by rw [Nat.add_assoc, Nat.add_comm 1]; exact hend) (by omega)]

theorem strchr_none (h : At buf p l) (h0 : 0 ∉ l) (hc : c ∉ l) (hend : buf (p + l.length) = 0) :
    strchr buf c fuel p = none := by
  induction l generalizing p fuel with
  | nil =>
    cases fuel with
    | zero => rfl
    | succ fuel => exact if_pos hend
  | cons a l ih =>
    cases fuel with
    | zero => rfl
    | succ fuel =>
      obtain ⟨ha, hl⟩ := at_cons.1 h
      rw [mem_cons, not_or] at h0 hc
      rw [strchr, ha, if_neg (Ne.symm h0.1), if_neg (Ne.symm hc.1)]
      exact ih hl h0.2 hc.2 (by rw [Nat.add_assoc, Nat.add_comm 1]; exact hend)

theorem strchr_some (h : At buf p (l ++ c :: l')) (h0 : 0 ∉ l ++ c :: l') (hc : c ∉ l)
    (hfuel : l.length < fuel) : strchr buf c fuel p = some (p + l.length) := by
  induction l generalizing p fuel with
  | nil =>
    obtain ⟨fuel, rfl⟩ := Nat.exists_eq_add_one_of_ne_zero (Nat.ne_of_gt hfuel)
    obtain ⟨ha, -⟩ := at_cons.1 h
    rw [nil_append, mem_cons, not_or] at h0
    rw [strchr, ha, if_neg (Ne.symm h0.1), if_pos rfl]
    rfl
  | cons a l ih =>
    obtain ⟨fuel, rfl⟩ := Nat.exists_eq_add_one_of_ne_zero (Nat.ne_zero_of_lt hfuel)
    obtain ⟨ha, hl⟩ := at_cons.1 h
    rw [cons_append, mem_cons, not_or] at h0
    rw [mem_cons, not_or] at hc
    rw [length_cons] at hfuel
    rw [strchr, ha, if_neg (Ne.symm h0.1), if_neg (Ne.symm hc.1), ih hl h0.2 hc.2 (by omega),
      length_cons, Nat.add_assoc, Nat.add_comm 1]

/-- The loop over the lines writes those that match, and stops after the last. -/
theorem lineLoop_eq (re l : List UInt8) (out : List UInt8)
    (h : At buf p l) (h0 : 0 ∉ l) (hend : buf (p + l.length) = 0) (hlt : p + l.length < BUF)
    (hfuel : (cut newline l).1.length ≤ fuel) :
    ∃ buf', lineLoop re fuel buf p out = (buf', p + l.length - (cut newline l).2.length,
        out ++ join newline ((cut newline l).1.filter (matchText re))) ∧
      At buf' (p + l.length - (cut newline l).2.length) (cut newline l).2 := by
  induction l using Lines.cut_induction newline generalizing buf p out fuel with
  | rest l hl =>
    rw [Lines.cut_of_notMem hl, Nat.add_sub_cancel_right, filter_nil, Lines.join_nil, append_nil]
    refine ⟨buf, ?_, h⟩
    cases fuel with
    | zero => rfl
    | succ fuel => rw [lineLoop, strchr_none h h0 hl hend]
  | line x l hx ih =>
    rw [Lines.cut_line hx] at hfuel ⊢
    obtain ⟨fuel, rfl⟩ := Nat.exists_eq_add_one_of_ne_zero (Nat.ne_zero_of_lt hfuel)
    have hlen : (x ++ newline :: l).length = x.length + 1 + l.length := by
      rw [length_append, length_cons]
      omega
    rw [hlen] at hend hlt ⊢
    obtain ⟨hax, hal⟩ := at_append.1 h
    obtain ⟨-, hal⟩ := at_cons.1 hal
    have h0x : 0 ∉ x := fun hm => h0 (mem_append_left _ hm)
    have h0l : 0 ∉ l := fun hm => h0 (mem_append_right _ (mem_cons_of_mem _ hm))
    -- the line as a string, and what is behind it
    have hstr : string (update buf (p + x.length) 0) BUF p = x :=
      string_eq (hax.update (.inr le_rfl)) h0x (update_self ..) (by omega)
    have hrec (b : Nat → UInt8) (out : List UInt8) (hb : ∀ i, p + x.length < i → b i = buf i) :
        ∃ buf', lineLoop re fuel b (p + x.length + 1) out =
            (buf', p + (x.length + 1 + l.length) - (cut newline l).2.length,
              out ++ join newline ((cut newline l).1.filter (matchText re))) ∧
          At buf' (p + (x.length + 1 + l.length) - (cut newline l).2.length) (cut newline l).2 := by
      have hat : At b (p + x.length + 1) l := by
        refine Eq.trans (map_congr_left fun i _ => hb _ (by omega)) hal
      have hadd : p + (x.length + 1 + l.length) = p + x.length + 1 + l.length := by omega
      rw [hadd] at hend hlt ⊢
      exact ih out hat h0l (by rw [hb _ (by omega)]; exact hend) hlt (by
        rw [length_cons] at hfuel
        omega)
    rw [lineLoop, strchr_some h h0 hx (by omega)]
    dsimp only
    rw [hstr, update_idem]
    split
    · next hm =>
      have hread : Bytes.read (update buf (p + x.length) newline) p (p + x.length + 1 - p) =
          x ++ [newline] := by
        have hat : At (update buf (p + x.length) newline) p (x ++ [newline]) :=
          at_append.2 ⟨hax.update (.inr le_rfl), at_cons.2 ⟨update_self .., at_nil⟩⟩
        have hn : p + x.length + 1 - p = (x ++ [newline]).length := by
          rw [length_append, length_singleton]
          omega
        rw [hn]
        exact hat
      rw [hread, filter_cons_of_pos hm, Lines.join_cons]
      have := hrec (update buf (p + x.length) newline) (out ++ (x ++ [newline])) fun i hi =>
        update_of_ne (by omega) _ _
      simpa [append_assoc] using this
    · next hm =>
      rw [filter_cons_of_neg hm]
      exact hrec _ out fun i hi => update_of_ne (by omega) _ _

end

/-! ## Rounds -/

/-- The buffer holds `pend`, and `out` is written. -/
structure State.Holds (s : State) (pend out : List UInt8) : Prop where
  m : s.m = pend.length
  buf : At s.buf 0 pend
  out : s.out = out

section
variable {s : State} {pend out data stream : List UInt8} {sizes : Nat → Nat} {fuel k : Nat}

theorem at_write_other (h : At buf 0 l) : At (Bytes.write buf l.length l') 0 (l ++ l') := by
  refine at_append.2 ⟨?_, ?_⟩
  · rw [At, Bytes.read_write_of_disjoint (.inl (by omega))]
    exact h
  · rw [At, Nat.zero_add]
    exact Bytes.read_write_self

/-- A round writes the lines that match and keeps what follows the last one. -/
theorem State.Holds.round (h : s.Holds pend out) (re : List UInt8) (h0 : 0 ∉ pend ++ data)
    (hlt : (pend ++ data).length < BUF) : (round re s data).Holds (kept (pend ++ data))
      (out ++ join newline ((cut newline (pend ++ data)).1.filter (matchText re))) := by
  have hm : s.m + data.length = (pend ++ data).length := by rw [h.m, length_append]
  have hat : At (update (Bytes.write s.buf s.m data) (pend ++ data).length 0) 0 (pend ++ data) := by
    rw [h.m]
    exact (at_write_other h.buf).update (.inr (by omega))
  have hcut := Lines.join_cut newline (pend ++ data)
  have hlen : (join newline (cut newline (pend ++ data)).1).length +
      (cut newline (pend ++ data)).2.length = (pend ++ data).length := by
    rw [← length_append, hcut]
  have hlines := Lines.length_le_length_join newline (cut newline (pend ++ data)).1
  unfold Grep.round
  rw [hm]
  generalize pend ++ data = l at *
  have hfuel : (cut newline l).1.length ≤ BUF := by omega
  obtain ⟨buf', hloop, hbuf'⟩ := lineLoop_eq re l s.out hat h0
    (by rw [Nat.zero_add]; exact update_self ..) (by omega) hfuel
  dsimp only
  rw [hloop, h.out]
  rw [Nat.zero_add] at hbuf' ⊢
  dsimp only
  unfold kept
  by_cases hnil : (cut newline l).1 = []
  · -- no line: the buffer is forgotten
    rw [hnil, Lines.join_nil, length_nil] at hlen
    have hp : l.length - (cut newline l).2.length = 0 := by omega
    rw [if_pos hnil, if_pos hp, if_neg (Nat.lt_irrefl 0)]
    exact ⟨rfl, rfl, rfl⟩
  · have hpos := length_pos_of_ne_nil hnil
    have hp : l.length - (cut newline l).2.length ≠ 0 := by omega
    have hrest : l.length - (l.length - (cut newline l).2.length) =
      (cut newline l).2.length := by omega
    rw [if_neg hnil, if_neg hp, if_pos (by omega), hrest]
    refine ⟨rfl, ?_, rfl⟩
    rw [hbuf']
    exact Bytes.read_write_self

/-! ## Runs -/

theorem chunk_append (sizes : Nat → Nat) (k m : Nat) (stream : List UInt8) :
    chunk sizes k m stream ++ stream.drop (chunk sizes k m stream).length = stream := by
  have htake : chunk sizes k m stream = stream.take (chunk sizes k m stream).length := by
    unfold chunk
    rw [length_take, take_eq_take_min]
  nth_rewrite 1 [htake]
  exact take_append_drop _ _

theorem length_chunk_le (sizes : Nat → Nat) (k m : Nat) (stream : List UInt8) :
    (chunk sizes k m stream).length ≤ BUF - m - 1 := by
  unfold chunk
  rw [length_take]
  omega

theorem kept_suffix (l : List UInt8) : kept l <:+ l := by
  unfold kept
  split
  · exact nil_suffix
  · exact ⟨_, Lines.join_cut newline l⟩

/-- `grep` writes the lines that it sees and that match. -/
theorem grepLoop_eq (re : List UInt8) (h : s.Holds pend out) (h0 : 0 ∉ pend ++ stream)
    (hpend : pend.length < BUF) : (grepLoop re sizes fuel k s stream).out =
      out ++ join newline ((heardLoop sizes fuel k pend stream).filter (matchText re)) := by
  induction fuel generalizing s pend out stream k with
  | zero => rw [grepLoop, heardLoop, h.out, filter_nil, Lines.join_nil, append_nil]
  | succ fuel ih =>
    rw [grepLoop, heardLoop, h.m]
    split
    · rw [h.out, filter_nil, Lines.join_nil, append_nil]
    have happend := chunk_append sizes k pend.length stream
    have hlen := length_chunk_le sizes k pend.length stream
    generalize chunk sizes k pend.length stream = data at *
    rw [← happend, ← append_assoc, mem_append, not_or] at h0
    have hlt : (pend ++ data).length < BUF := by
      rw [length_append]
      omega
    have hkept := kept_suffix (pend ++ data)
    rw [ih (h.round re h0.1 hlt) ?_ (hkept.length_le.trans_lt hlt), filter_append,
      Lines.join_append, append_assoc]
    rw [mem_append, not_or]
    exact ⟨fun hm => h0.1 (hkept.subset hm), h0.2⟩

/-- What is left after a line of which the beginning is cut off. -/
theorem Lined.of_append (h : Lined (l ++ stream)) (hl : newline ∉ l) : Lined stream := by
  obtain ⟨hrest, hshort⟩ := h
  rw [Lines.cut_prepend hl] at hrest hshort
  cases hcut : (cut newline stream).1 with
  | nil =>
    rw [hcut] at hrest
    exact ⟨(append_eq_nil_iff.1 hrest).2, by rw [hcut]; nofun⟩
  | cons q qs =>
    rw [hcut] at hrest hshort
    refine ⟨hrest, ?_⟩
    rw [hcut]
    intro x hx
    rcases mem_cons.1 hx with rfl | hx
    · have := hshort (l ++ x) mem_cons_self
      rw [length_append] at this
      omega
    · exact hshort x (mem_cons_of_mem _ hx)

/-- What is pending and the rest of the input are lines again. -/
theorem Lined.kept (h : Lined (l ++ stream)) : Lined (kept l ++ stream) := by
  unfold Grep.kept
  split
  · next hnil => exact h.of_append (Lines.cut_eq_nil_iff.1 hnil)
  · obtain ⟨hrest, hshort⟩ := h
    rw [Lines.cut_append] at hrest hshort
    exact ⟨hrest, fun x hx => hshort x (mem_append_right _ hx)⟩

/-- There is room for a byte more than is pending. -/
theorem Lined.length_lt (h : Lined (pend ++ stream)) (hp : newline ∉ pend) :
    pend.length ≤ 1022 := by
  obtain ⟨hrest, hshort⟩ := h
  rw [Lines.cut_prepend hp] at hrest hshort
  cases hcut : (cut newline stream).1 with
  | nil =>
    rw [hcut] at hrest
    rw [(append_eq_nil_iff.1 hrest).1]
    exact Nat.zero_le _
  | cons q qs =>
    rw [hcut] at hshort
    have := hshort (pend ++ q) mem_cons_self
    rw [length_append] at this
    omega

theorem chunk_ne_nil (hm : pend.length ≤ 1022) (hs : stream ≠ []) :
    chunk sizes k pend.length stream ≠ [] := by
  unfold chunk
  rw [Ne, take_eq_nil_iff, not_or]
  refine ⟨?_, hs⟩
  simp only [BUF]
  omega

theorem notMem_kept (l : List UInt8) : newline ∉ kept l := by
  unfold kept
  split
  · exact not_mem_nil
  · exact Lines.notMem_rest newline l

/-- Where every read leaves a newline, the lines are heard. -/
theorem heardLoop_of_whole (hl : Lined (pend ++ stream)) (hp : newline ∉ pend)
    (hfuel : stream.length ≤ fuel) (hw : WholeLoop sizes fuel k pend stream) :
    heardLoop sizes fuel k pend stream = (cut newline (pend ++ stream)).1 := by
  have hend (hs : stream = []) : (cut newline (pend ++ stream)).1 = [] := by
    rw [hs, append_nil]
    exact Lines.cut_eq_nil_iff.2 hp
  induction fuel generalizing pend stream k with
  | zero => rw [heardLoop, hend (length_eq_zero_iff.1 (Nat.le_zero.1 hfuel))]
  | succ fuel ih =>
    rw [heardLoop]
    split
    · next hnil =>
      by_contra hne
      exact chunk_ne_nil (hl.length_lt hp) (fun hs => hne (hend hs).symm) hnil
    next hne =>
    replace hw := hw.resolve_left hne
    have happend := chunk_append sizes k pend.length stream
    generalize chunk sizes k pend.length stream = data at *
    generalize stream.drop data.length = rest at *
    subst happend
    rw [← append_assoc] at hl ⊢
    have hkept : kept (pend ++ data) = (cut newline (pend ++ data)).2 :=
      if_neg fun hnil => Lines.cut_eq_nil_iff.1 hnil hw.1
    rw [ih hl.kept (notMem_kept _) ?_ hw.2 ?_, hkept, Lines.cut_append newline (pend ++ data)]
    · have := length_pos_of_ne_nil hne
      rw [length_append] at hfuel
      omega
    · rintro rfl
      rw [append_nil]
      exact Lines.cut_eq_nil_iff.2 (notMem_kept _)

theorem notMem_heardLoop (hl : l ∈ heardLoop sizes fuel k pend stream) : newline ∉ l := by
  induction fuel generalizing pend stream k with
  | zero => cases hl
  | succ fuel ih =>
    rw [heardLoop] at hl
    split at hl
    · cases hl
    rcases mem_append.1 hl with hl | hl
    · exact Lines.notMem_of_mem_cut hl
    · exact ih hl

theorem length_kept_le (l : List UInt8) :
    (join newline (cut newline l).1).length + (kept l).length ≤ l.length := by
  have hcut := congrArg List.length (Lines.join_cut newline l)
  rw [length_append] at hcut
  unfold kept
  split
  · rw [length_nil]
    omega
  · exact hcut.le

/-- No more is heard than there is. -/
theorem length_heardLoop_le :
    (join newline (heardLoop sizes fuel k pend stream)).length ≤ (pend ++ stream).length := by
  induction fuel generalizing pend stream k with
  | zero => exact Nat.zero_le _
  | succ fuel ih =>
    rw [heardLoop]
    split
    · exact Nat.zero_le _
    have happend := chunk_append sizes k pend.length stream
    generalize chunk sizes k pend.length stream = data at *
    generalize stream.drop data.length = rest at *
    subst happend
    have hrec :
      (join newline (heardLoop sizes fuel (k + 1) (kept (pend ++ data)) rest)).length ≤ _ := ih
    have hkept := length_kept_le (pend ++ data)
    simp only [Lines.join_append, length_append] at *
    omega

/-- Where a read leaves no newline, some bytes are not heard. -/
theorem length_heardLoop_lt (hw : ¬ WholeLoop sizes fuel k pend stream) :
    (join newline (heardLoop sizes fuel k pend stream)).length < (pend ++ stream).length := by
  induction fuel generalizing pend stream k with
  | zero => exact absurd trivial hw
  | succ fuel ih =>
    rw [WholeLoop, not_or, not_and] at hw
    obtain ⟨hne, hw⟩ := hw
    rw [heardLoop, if_neg hne]
    have happend := chunk_append sizes k pend.length stream
    generalize chunk sizes k pend.length stream = data at *
    generalize stream.drop data.length = rest at *
    subst happend
    have hpos := length_pos_of_ne_nil hne
    have hkept := length_kept_le (pend ++ data)
    by_cases hnl : newline ∈ pend ++ data
    · have hrec := ih (hw hnl)
      simp only [Lines.join_append, length_append] at *
      omega
    -- what was in the buffer is lost
    have hnil := Lines.cut_eq_nil_iff.2 hnl
    have hrec : (join newline (heardLoop sizes fuel (k + 1) [] rest)).length ≤ _ :=
      length_heardLoop_le
    rw [kept, if_pos hnil, hnil, nil_append]
    simp only [length_append, length_nil] at *
    omega

end

/-! ## The output -/

theorem matchText_nil (text : List UInt8) : matchText [] text = true := by
  cases text with
  | nil => rfl
  | cons t text => rfl

/-- For every input of lines and every way to read it: `grep` writes the lines that match, whatever
the pattern is, if and only if every read leaves a newline in the buffer; and for one pattern if and
only if it matches the same of the lines that it sees. -/
theorem grep_output {stream : List UInt8} (h0 : 0 ∉ stream) (hl : Lined stream) (buf : Nat → UInt8)
    (sizes : Nat → Nat) :
    ((∀ re, grep re buf sizes stream = matching re stream) ↔ Whole sizes stream) ∧
      ∀ re, grep re buf sizes stream = matching re stream ↔
        (heard sizes stream).filter (matchText re) =
          (cut newline stream).1.filter (matchText re) := by
  have hgrep (re : List UInt8) : grep re buf sizes stream =
      join newline ((heard sizes stream).filter (matchText re)) := by
    have hstart : State.Holds ⟨buf, 0, []⟩ [] [] := ⟨rfl, at_nil, rfl⟩
    exact grepLoop_eq re hstart h0 (by decide)
  have hiff (re : List UInt8) : grep re buf sizes stream = matching re stream ↔
      (heard sizes stream).filter (matchText re) =
        (cut newline stream).1.filter (matchText re) := by
    rw [hgrep, matching]
    exact ⟨Lines.join_inj (fun l hm => notMem_heardLoop (mem_filter.1 hm).1)
      fun l hm => Lines.notMem_of_mem_cut (mem_filter.1 hm).1, congrArg _⟩
  refine ⟨⟨fun hall => ?_, fun hw re => ?_⟩, hiff⟩
  · -- the empty pattern matches all lines
    have hempty := (hiff []).1 (hall [])
    have hall (ls : List (List UInt8)) : ls.filter (matchText []) = ls :=
      filter_eq_self.2 fun l _ => matchText_nil l
    rw [hall, hall] at hempty
    by_contra hw
    have hlt : (join newline (heard sizes stream)).length < stream.length := length_heardLoop_lt hw
    have hjoin := Lines.join_cut newline stream
    rw [hl.rest, append_nil] at hjoin
    rw [hempty, hjoin] at hlt
    exact Nat.lt_irrefl _ hlt
  · have hl : Lined ([] ++ stream) := hl
    rw [hiff, heard, heardLoop_of_whole hl not_mem_nil le_rfl hw, nil_append]

theorem lined_ab : Lined [97, 98, 10] := ⟨by decide, by decide⟩

/-- The line `ab`, read at once. -/
theorem grep_output_whole : grep [97] (fun _ => 0) (fun _ => 1024) [97, 98, 10] = [97, 98, 10] :=
  ((grep_output (by decide) lined_ab (fun _ => 0) fun _ => 1024).2 [97]).2 (by decide)

/-- The line `ab`, read byte by byte: `grep` looks for `a` and writes nothing. -/
theorem grep_loses_line : 0 ∉ [(97 : UInt8), 98, 10] ∧ Lined [97, 98, 10] ∧
    grep [97] (fun _ => 0) (fun _ => 1) [97, 98, 10] = [] ∧ matching [97] [97, 98, 10] =
      [97, 98, 10] :=
  ⟨by decide, lined_ab, by decide +kernel, by decide⟩

end Msboss.Grep
