import Msboss.Log.Commit

/-!
# Crash atomicity of the redo log

`crash_atomic`: however `commit` is cut, and however often the recovery after it is cut, the disk
outside the log ends as it was before the transaction or as it is after it. The disk is in one of
two phases. In `Idle` the header counts no block and the disk outside the log is a given one. In
`Logged` the header names the home blocks, the log holds their new contents, and each home block is
old or new: `install_trans` can stop anywhere in this phase and be run again. The write that leads
from the old `Idle` to `Logged` is `write_head` with `n > 0`, the one that leads to the new `Idle`
is `write_head` with `n = 0`.
-/

namespace Msboss.Log

open Function List

/-! ## The header block -/

/-- A word that is set. -/
theorem Block.word_setWord (hb : Block) (i j : Nat) (v : UInt32) :
    (hb.setWord i v).word j = if j = i ∧ j < BSIZE / 4 then v else hb.word j := by
  by_cases hj : j < BSIZE / 4
  · rcases eq_or_ne j i with rfl | hi
    · simp [Block.word, Block.setWord, hj]
    · simp [Block.word, Block.setWord, hj, hi]
  · simp [Block.word, hj]

/-- The loop of `write_head` sets the words from `k + 1` on. -/
theorem word_foldl_setWord : ∀ (bs : List UInt32) (k : Nat) (hb : Block) (j : Nat),
    ((bs.zipIdx k).foldl (fun hb bi => hb.setWord (bi.2 + 1) bi.1) hb).word j =
      if h : k + 1 ≤ j ∧ j < k + 1 + bs.length ∧ j < BSIZE / 4 then
        bs.get ⟨j - (k + 1), by omega⟩ else hb.word j
  | [], k, hb, j => by
    have : ¬ (k + 1 ≤ j ∧ j < k + 1 + ([] : List UInt32).length ∧ j < BSIZE / 4) := by
      simp only [length_nil]; omega
    rw [dif_neg this]
    rfl
  | b :: bs, k, hb, j => by
    rw [zipIdx_cons, foldl_cons, word_foldl_setWord bs (k + 1)]
    simp only [length_cons, Block.word_setWord]
    by_cases h1 : k + 1 + 1 ≤ j ∧ j < k + 1 + 1 + bs.length ∧ j < BSIZE / 4
    · rw [dif_pos h1, dif_pos (by omega)]
      have : j - (k + 1) = j - (k + 1 + 1) + 1 := by omega
      simp [this]
    rw [dif_neg h1]
    by_cases h2 : j = k + 1 ∧ j < BSIZE / 4
    · rw [if_pos h2, dif_pos (by omega)]
      obtain ⟨rfl, -⟩ := h2
      simp
    · rw [if_neg h2, dif_neg (by omega)]

/-- The header counts the blocks it was written with. -/
theorem headBlock_word_zero (hb : Block) (bs : List UInt32) :
    (headBlock hb bs).word 0 = UInt32.ofNat bs.length := by
  rw [headBlock, word_foldl_setWord, dif_neg (by omega), Block.word_setWord]
  simp [BSIZE]

/-- The header names the blocks it was written with. -/
theorem headBlock_word_succ (hb : Block) (bs : List UInt32) (i : Nat) (hi : i < bs.length)
    (hfit : bs.length ≤ LOGSIZE) : (headBlock hb bs).word (i + 1) = bs.get ⟨i, hi⟩ := by
  have : i + 1 < BSIZE / 4 := by simp only [LOGSIZE, MAXOPBLOCKS, BSIZE] at *; omega
  rw [headBlock, word_foldl_setWord, dif_pos (by omega)]
  simp

/-- A count that fits in the header survives the conversion to `int` and back. -/
theorem toInt32_ofNat (h : n ≤ LOGSIZE) : (UInt32.ofNat n).toInt32.toInt.toNat = n := by
  have hall : ∀ n : Fin (LOGSIZE + 1), (UInt32.ofNat n.1).toInt32.toInt.toNat = n.1 := by decide
  exact hall ⟨n, by omega⟩

/-- `read_head` reads back what `write_head` wrote. -/
theorem read_head_headBlock (h : m.bread start = headBlock hb bs) (hfit : bs.length ≤ LOGSIZE) :
    read_head start m = bs := by
  rw [read_head, h, headBlock_word_zero, toInt32_ofNat hfit]
  refine ext_getElem (by simp) fun i h1 h2 => ?_
  simp [headBlock_word_succ hb bs i h2 hfit]

/-- A header with `n = 0` names nothing. -/
theorem read_head_of_zero (h : (m.bread start).word 0 = 0) : read_head start m = [] := by
  simp only [read_head, h]
  rfl

/-! ## The phases -/

section
variable (start size : Nat)

/-- Block `b` is not in the log area. -/
def Outside (b : Nat) : Prop := b < start ∨ start + size ≤ b

/-- The two disks agree outside the log area. -/
def SameOutside (d d' : Nat → Block) : Prop := ∀ b, Outside start size b → d b = d' b

/-- No transaction is in the log, and the disk outside it is `base`. -/
structure Idle (base d : Nat → Block) : Prop where
  clear : (d start).word 0 = 0
  same : SameOutside start size d base

/-- The transaction that takes the blocks `bs` from `old` to `new` is in the log, and each of them
is at home old or new. -/
structure Logged (bs : List UInt32) (old new d : Nat → Block) : Prop where
  head : ∃ hb, d start = headBlock hb bs
  copy : ∀ bi ∈ bs.zipIdx, d (start + bi.2 + 1) = new bi.1.toNat
  home : ∀ b, Outside start size b → d b = old b ∨ d b = new b
  rest : ∀ b, Outside start size b → (∀ c ∈ bs, c.toNat ≠ b) → d b = new b

variable {start size}

/-- A write inside the log area, but not to the header, leaves the log idle. -/
theorem Idle.update (h : Idle start size base d) (v : Block)
    (hb : start < b) (hb' : b < start + size) : Idle start size base (update d b v) where
  clear := by rw [update_of_ne (by omega)]; exact h.clear
  same c hc := by
    rw [update_of_ne (by rintro rfl; rcases hc with hc | hc <;> omega)]
    exact h.same c hc

/-- Clearing the header of a disk that is `base` outside the log makes the log idle. -/
theorem idle_of_clear (hb : Block) (hsize : 0 < size) (h : SameOutside start size d base) :
    Idle start size base (update d start (headBlock hb [])) where
  clear := by rw [update_self, headBlock_word_zero]; rfl
  same c hc := by
    rw [update_of_ne (by rintro rfl; rcases hc with hc | hc <;> omega)]
    exact h c hc

section
variable {bs : List UInt32} {old new d : Nat → Block}
  (hlen : bs.length < size) (hout : ∀ b ∈ bs, Outside start size b.toNat)

include hlen hout

/-- Home blocks are outside the part of the log the loops touch. -/
theorem outside_loop : ∀ b ∈ bs, b.toNat < start ∨ start + 0 + bs.length < b.toNat := by
  intro b hb
  rcases hout b hb with h | h <;> omega

/-- Installing any block of the transaction stays in the phase. -/
theorem Logged.install (h : Logged start size bs old new d) (hbi : bi ∈ bs.zipIdx) :
    Logged start size bs old new (update d bi.1.toNat (new bi.1.toNat)) := by
  have hmem := fst_mem_of_mem_zipIdx hbi
  have ho := hout _ hmem
  refine ⟨?_, fun ci hci => ?_, fun b hb => ?_, fun b hb hne => ?_⟩
  · rw [update_of_ne (by rcases ho with ho | ho <;> omega)]
    exact h.head
  · have hlt := snd_lt_of_mem_zipIdx hci
    rw [update_of_ne (by rcases ho with ho | ho <;> omega)]
    exact h.copy ci hci
  · rcases eq_or_ne b bi.1.toNat with rfl | hne
    · exact .inr (update_self ..)
    · rw [update_of_ne hne]; exact h.home b hb
  · rw [update_of_ne (hne _ hmem).symm]
    exact h.rest b hb hne

omit hlen hout in
/-- The writes of `install_trans` from a logged disk. -/
theorem Logged.install_writes (h : Logged start size bs old new d) :
    (bs.zipIdx.map fun bi => (bi.1.toNat, d (start + bi.2 + 1))) =
      bs.zipIdx.map fun bi => (bi.1.toNat, new bi.1.toNat) :=
  map_congr_left fun bi hbi => by rw [h.copy bi hbi]

/-- `install_trans` and the clearing of the header, cut anywhere, leave the disk logged or the log
idle on the new disk; uncut, they do the latter. -/
theorem Logged.always (h : Logged start size bs old new d) (hb : Block) :
    Always (fun d => Logged start size bs old new d ∨ Idle start size new d) d
        ((bs.zipIdx.map fun bi => (bi.1.toNat, new bi.1.toNat)) ++ [(start, headBlock hb [])]) ∧
      Idle start size new (applyWrites d ((bs.zipIdx.map fun bi => (bi.1.toNat, new bi.1.toNat)) ++
          [(start, headBlock hb [])])) := by
  have hkeep : Always (Logged start size bs old new) d
      (bs.zipIdx.map fun bi => (bi.1.toNat, new bi.1.toNat)) :=
    .of_step h fun d' hd' w hw => by
      obtain ⟨bi, hbi, rfl⟩ := mem_map.1 hw
      exact hd'.install hlen hout hbi
  have hlast := hkeep.last
  -- after the loop every home block is new
  have hnew : SameOutside start size
      (applyWrites d (bs.zipIdx.map fun bi => (bi.1.toNat, new bi.1.toNat))) new := by
    intro b hb
    by_cases hin : ∃ c ∈ bs, c.toNat = b
    · obtain ⟨c, hc, rfl⟩ := hin
      obtain ⟨i, hi, rfl⟩ := getElem_of_mem hc
      refine applyWrites_of_mem (mem_map.2 ⟨(bs.get ⟨i, hi⟩, i), ?_, rfl⟩) ?_
      · exact mem_zipIdx_iff_getElem?.2 (by simp)
      · rintro w hw hwe
        obtain ⟨bi, -, rfl⟩ := mem_map.1 hw
        exact congrArg new hwe
    · exact hlast.rest b hb fun c hc hcb => hin ⟨c, hc, hcb⟩
  have hidle := idle_of_clear hb (by omega) hnew
  refine ⟨Always.append ?_ ⟨.inl hlast, .inr hidle⟩, ?_⟩
  · exact always_iff_take.2 fun k => .inl (always_iff_take.1 hkeep k)
  · rw [applyWrites_append]
    exact hidle

/-- The writes of a recovery from a logged disk. -/
theorem Logged.recoveryWrites_eq (h : Logged start size bs old new d) (hfit : bs.length ≤ LOGSIZE) :
    ∃ hb, recoveryWrites start d =
      (bs.zipIdx.map fun bi => (bi.1.toNat, new bi.1.toNat)) ++ [(start, headBlock hb [])] := by
  obtain ⟨hb, hhead⟩ := h.head
  have hread : read_head start (.boot d) = bs := read_head_headBlock hhead hfit
  have hspec := installFrom_spec (m := .boot d) (outside_loop hlen hout)
  refine ⟨(install_trans start bs (.boot d)).bread start, ?_⟩
  rw [recoveryWrites, recover_from_log, hread, write_head, Dev.bwrite_issued, install_trans,
    hspec.1, ← h.install_writes]
  simp [Dev.boot, Dev.bread]

end

/-- The writes of a recovery that finds no transaction. -/
theorem Idle.recoveryWrites_eq (h : Idle start size base d) :
    recoveryWrites start d = [(start, headBlock (d start) [])] := by
  have hread : read_head start (.boot d) = [] := read_head_of_zero h.clear
  rw [recoveryWrites, recover_from_log, hread]
  rfl

/-- A recovery that finds no transaction changes nothing outside the log. -/
theorem Idle.recovered (hsize : 0 < size) (h : Idle start size base d)
    (hr : Recovered (recoveryWrites start) d d') : Idle start size base d' := by
  refine hr.induct (fun d hd => ?_) (fun d hd => ?_) h
  · rw [hd.recoveryWrites_eq]
    exact ⟨hd, idle_of_clear _ hsize hd.same⟩
  · rw [hd.recoveryWrites_eq]
    exact idle_of_clear _ hsize hd.same

/-- A recovery that finds the transaction completes it, however often it is cut. -/
theorem Logged.recovered (hlen : bs.length < size)
    (hout : ∀ b ∈ bs, Outside start size b.toNat) (hfit : bs.length ≤ LOGSIZE)
    (h : Logged start size bs old new d ∨ Idle start size new d)
    (hr : Recovered (recoveryWrites start) d d') : Idle start size new d' := by
  refine hr.induct (P := fun d => Logged start size bs old new d ∨ Idle start size new d)
    (fun d hd => ?_) (fun d hd => ?_) h
  · rcases hd with hd | hd
    · obtain ⟨hb, he⟩ := hd.recoveryWrites_eq hlen hout hfit
      rw [he]
      exact (hd.always hlen hout hb).1
    · rw [hd.recoveryWrites_eq]
      exact ⟨.inr hd, .inr (idle_of_clear _ (by omega) hd.same)⟩
  · rcases hd with hd | hd
    · obtain ⟨hb, he⟩ := hd.recoveryWrites_eq hlen hout hfit
      rw [he]
      exact (hd.always hlen hout hb).2
    · rw [hd.recoveryWrites_eq]
      exact idle_of_clear _ (by omega) hd.same

end

/-! ## The theorem -/

/-- Among the first `k` writes of `ws` there is a `write_head` with `n > 0`. -/
def HeadWritten (start : Nat) (ws : List (Nat × Block)) (k : Nat) : Prop :=
  ∃ hb, (start, hb) ∈ ws.take k ∧ hb.word 0 ≠ 0

/-- The disk with every home block replaced by its cached contents. -/
def installed (lh : Header) (disk : Nat → Block) (cache : Nat → Option Block) (b : Nat) : Block :=
  if ∃ c ∈ lh.block, c.toNat = b then (cache b).getD (disk b) else disk b

section
variable {start size : Nat} {lh : Header} {disk : Nat → Block} {cache : Nat → Option Block}

/-- The writes of `commit`: the log, the header, the home blocks, the header again. -/
theorem commitWrites_eq (disk : Nat → Block) (cache : Nat → Option Block)
    (hpos : 0 < lh.block.length) (hlen : lh.block.length < size)
    (hout : ∀ b ∈ lh.block, Outside start size b.toNat) :
    ∃ hb hb', commitWrites start lh disk cache =
      (lh.block.zipIdx.map fun bi => (start + bi.2 + 1, installed lh disk cache bi.1.toNat)) ++
      (start, headBlock hb lh.block) ::
      ((lh.block.zipIdx.map fun bi => (bi.1.toNat, installed lh disk cache bi.1.toNat)) ++
        [(start, headBlock hb' [])]) := by
  let m : Dev := { disk, cache, issued := [] }
  let m1 := write_log start lh.block m
  let m2 := write_head start lh.block m1
  have hloop := outside_loop hlen hout
  obtain ⟨hw, -, hcopy⟩ := writeLogFrom_spec (m := m) hloop
  have hi := (installFrom_spec (m := m2) hloop).1
  have hcached : ∀ bi ∈ lh.block.zipIdx, m.bread bi.1.toNat = installed lh disk cache bi.1.toNat :=
    fun bi hbi => (if_pos ⟨bi.1, fst_mem_of_mem_zipIdx hbi, rfl⟩).symm
  have hcopy2 : ∀ bi ∈ lh.block.zipIdx,
      m2.bread (start + bi.2 + 1) = installed lh disk cache bi.1.toNat := fun bi hbi => by
    rw [← hcached bi hbi, ← hcopy bi hbi]
    exact Dev.bread_bwrite_of_ne _ _ (by omega)
  refine ⟨m1.bread start, (install_trans start lh.block m2).bread start, ?_⟩
  have h₁ : m1.issued =
      lh.block.zipIdx.map fun bi => (start + bi.2 + 1, installed lh disk cache bi.1.toNat) := by
    rw [show m1.issued = _ from hw, nil_append]
    exact map_congr_left fun bi hbi => by rw [hcached bi hbi]
  have h₂ : m2.issued = m1.issued ++ [(start, headBlock (m1.bread start) lh.block)] := rfl
  have h3 : (install_trans start lh.block m2).issued = m2.issued ++
      lh.block.zipIdx.map fun bi => (bi.1.toNat, installed lh disk cache bi.1.toNat) := by
    rw [install_trans, hi]
    congr 1
    exact map_congr_left fun bi hbi => by rw [hcopy2 bi hbi]
  have hc : commitWrites start lh disk cache = (install_trans start lh.block m2).issued ++
      [(start, headBlock ((install_trans start lh.block m2).bread start) [])] := by
    rw [commitWrites, commit, if_pos hpos]
    rfl
  rw [hc, h3, h₂, h₁]
  simp

/-- Writing the log leaves it idle. -/
theorem idle_write_log (hlen : lh.block.length < size) (h0 : (disk start).word 0 = 0)
    (v : Nat → Block) : Always (Idle start size disk) disk
      (lh.block.zipIdx.map fun bi => (start + bi.2 + 1, v bi.1.toNat)) :=
  .of_step ⟨h0, fun _ _ => rfl⟩ fun d hd w hw => by
    obtain ⟨bi, hbi, rfl⟩ := mem_map.1 hw
    have := snd_lt_of_mem_zipIdx hbi
    exact hd.update _ (by simp only; omega) (by simp only; omega)

/-- `write_head` with `n > 0`, after the log is written, commits the transaction. -/
theorem logged_write_head (cache : Nat → Option Block) (hlen : lh.block.length < size)
    (h0 : (disk start).word 0 = 0) (hb : Block) :
      Logged start size lh.block disk (installed lh disk cache)
      (update (applyWrites disk (lh.block.zipIdx.map fun bi =>
        (start + bi.2 + 1, installed lh disk cache bi.1.toNat)))
          start (headBlock hb lh.block)) := by
  have hidle := (@idle_write_log _ _ lh _ hlen h0 (installed lh disk cache)).last
  have hne : ∀ b, Outside start size b → b ≠ start := by
    rintro b (hb | hb) rfl <;> omega
  refine ⟨⟨hb, update_self ..⟩, fun bi hbi => ?_, fun b hbo => ?_, fun b hbo hnot => ?_⟩
  · rw [update_of_ne (by omega)]
    refine applyWrites_of_mem (mem_map.2 ⟨bi, hbi, rfl⟩) fun w hw hwe => ?_
    -- the log blocks are written once each
    obtain ⟨ci, hci, rfl⟩ := mem_map.1 hw
    have hix : ci.2 = bi.2 := by simp only at hwe; omega
    have h1 := mem_zipIdx_iff_getElem?.1 hci
    have h2 := mem_zipIdx_iff_getElem?.1 hbi
    rw [hix, h2] at h1
    rw [Option.some.inj h1]
  · rw [update_of_ne (hne b hbo)]
    exact .inl (hidle.same b hbo)
  · rw [update_of_ne (hne b hbo), hidle.same b hbo, installed, if_neg]
    rintro ⟨c, hc, rfl⟩
    exact hnot c hc rfl

/-- Before the header is written the log is idle, and no header was written. -/
theorem log_prefix (cache : Nat → Option Block) (hlen : lh.block.length < size)
    (h0 : (disk start).word 0 = 0) (hk : k ≤ lh.block.length)
    (hws : ∃ rest, ws = (lh.block.zipIdx.map fun bi =>
      (start + bi.2 + 1, installed lh disk cache bi.1.toNat)) ++ rest) :
    ¬ HeadWritten start ws k ∧ Idle start size disk (applyWrites disk (ws.take k)) := by
  obtain ⟨rest, rfl⟩ := hws
  rw [HeadWritten, take_append_of_le_length (by simpa using hk)]
  refine ⟨?_, always_iff_take.1 (idle_write_log hlen h0 _) k⟩
  rintro ⟨hb, hmem, -⟩
  obtain ⟨bi, -, he⟩ := mem_map.1 (mem_of_mem_take hmem)
  have := congrArg Prod.fst he
  simp only at this
  omega

/-- From the header on, the disk is logged or the log idle on the new disk. -/
theorem log_suffix (cache : Nat → Option Block) (hpos : 0 < lh.block.length)
    (hlen : lh.block.length < size) (hout : ∀ b ∈ lh.block, Outside start size b.toNat)
    (h0 : (disk start).word 0 = 0) (hk : lh.block.length < k) :
    HeadWritten start (commitWrites start lh disk cache) k ∧
    (Logged start size lh.block disk (installed lh disk cache)
        (applyWrites disk ((commitWrites start lh disk cache).take k)) ∨
      Idle start size (installed lh disk cache)
        (applyWrites disk ((commitWrites start lh disk cache).take k))) := by
  obtain ⟨hb, hb', he⟩ := commitWrites_eq disk cache hpos hlen hout
  obtain ⟨j, rfl⟩ : ∃ j, k = lh.block.length + (j + 1) := ⟨k - lh.block.length - 1, by omega⟩
  rw [he, HeadWritten]
  have hl : (lh.block.zipIdx.map fun bi =>
      (start + bi.2 + 1, installed lh disk cache bi.1.toNat)).length = lh.block.length := by simp
  rw [← hl, take_length_add_append, take_succ_cons]
  constructor
  · refine ⟨headBlock hb lh.block, by simp, ?_⟩
    have h1 := toInt32_ofNat lh.fits
    rw [headBlock_word_zero]
    intro h
    rw [h] at h1
    exact hpos.ne h1
  · rw [applyWrites_append]
    have hlog := logged_write_head cache hlen h0 hb
    exact always_iff_take.1 (hlog.always hlen hout hb').1 j

end

/-- **Crash atomicity of the redo log.** The log is empty on disk and a transaction of blocks
outside it is committed. Cut `commit` after any number `k` of its writes, and the recovery after
it any number of times: at the end the header counts no block, and the disk outside the log is
the new one, with every home block replaced by its cached contents, if `write_head` with `n > 0`
was among the `k` writes, and the old one if it was not. The last part says the same as an
equivalence, which takes two disks that differ. -/
theorem crash_atomic (start size : Nat) (lh : Header) (disk : Nat → Block)
    (cache : Nat → Option Block) (h0 : (disk start).word 0 = 0) (hlen : lh.block.length < size)
    (hout : ∀ b ∈ lh.block, Outside start size b.toNat) (k : Nat) (d' : Nat → Block)
    (hr : Recovered (recoveryWrites start)
      (applyWrites disk ((commitWrites start lh disk cache).take k)) d') : (d' start).word 0 = 0 ∧
    (HeadWritten start (commitWrites start lh disk cache) k →
      SameOutside start size d' (installed lh disk cache)) ∧
    (¬ HeadWritten start (commitWrites start lh disk cache) k → SameOutside start size d' disk) ∧
    (¬ SameOutside start size disk (installed lh disk cache) →
      (SameOutside start size d' (installed lh disk cache) ↔
        HeadWritten start (commitWrites start lh disk cache) k)) := by
  have hend : HeadWritten start (commitWrites start lh disk cache) k ∧
        Idle start size (installed lh disk cache) d' ∨
      ¬ HeadWritten start (commitWrites start lh disk cache) k ∧ Idle start size disk d' := by
    rcases Nat.eq_zero_or_pos lh.block.length with hz | hpos
    · have hnil : commitWrites start lh disk cache = [] := by
        rw [commitWrites, commit, if_neg (by omega)]
      rw [hnil, take_nil] at hr
      rw [hnil]
      exact .inr ⟨by simp [HeadWritten], Idle.recovered (by omega) ⟨h0, fun _ _ => rfl⟩ hr⟩
    · rcases Nat.lt_or_ge lh.block.length k with hk | hk
      · obtain ⟨hw, hd⟩ := log_suffix cache hpos hlen hout h0 hk
        exact .inl ⟨hw, Logged.recovered hlen hout lh.fits hd hr⟩
      · obtain ⟨hb, hb', he⟩ := commitWrites_eq disk cache hpos hlen hout
        obtain ⟨hw, hd⟩ := log_prefix cache hlen h0 hk ⟨_, he⟩
        exact .inr ⟨hw, hd.recovered (by omega) hr⟩
  rcases hend with ⟨hw, hd⟩ | ⟨hw, hd⟩
  · exact ⟨hd.clear, fun _ => hd.same, fun h => absurd hw h,
      fun _ => ⟨fun _ => hw, fun _ => hd.same⟩⟩
  · refine ⟨hd.clear, fun h => absurd h hw, fun _ => hd.same,
      fun hne => ⟨fun h => ?_, fun h => absurd h hw⟩⟩
    exact absurd (fun b hb => (hd.same b hb).symm.trans (h b hb)) hne

/-- A transaction of the blocks 100 and 101. -/
def twoBlocks : Header := ⟨[100, 101], by decide⟩

/-- A disk of zeros. -/
def zeros (_ : Nat) : Block := fun _ => 0

/-- The two blocks are cached, with new contents. -/
def dirty (b : Nat) : Option Block := if b = 100 ∨ b = 101 then some fun _ => 1 else none

/-- The disk after a crash between the two writes of `install_trans`. -/
def halfInstalled : Nat → Block := applyWrites zeros ((commitWrites 2 twoBlocks zeros dirty).take 4)

/-- Block 100 is installed and block 101 is not; the recovery installs both. -/
theorem crash_atomic_twoBlocks :
    (halfInstalled 100 = fun _ => 1) ∧ (halfInstalled 101 = fun _ => 0) ∧
    SameOutside 2 30 (applyWrites halfInstalled (recoveryWrites 2 halfInstalled))
      (installed twoBlocks zeros dirty) := by
  have hlen : twoBlocks.block.length < 30 := by decide
  have hout : ∀ b ∈ twoBlocks.block, Outside 2 30 b.toNat := by simp [twoBlocks, Outside]
  obtain ⟨hb, hb', he⟩ := commitWrites_eq zeros dirty (by decide) hlen hout
  have hw : HeadWritten 2 (commitWrites 2 twoBlocks zeros dirty) 4 :=
    (log_suffix _ (by decide) hlen hout rfl (by decide)).1
  refine ⟨?_, ?_, (crash_atomic 2 30 twoBlocks zeros dirty rfl hlen hout 4 _ (.finish _)).2.1 hw⟩
  · rw [halfInstalled, he]
    simp [twoBlocks, applyWrites, installed, dirty]
  · rw [halfInstalled, he]
    simp [twoBlocks, applyWrites]
    rfl

end Msboss.Log
