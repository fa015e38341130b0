import Msboss.Param
import Msboss.Bio.Cache
import Msboss.Lib.Crash

/-!
# Committing and recovering

`write_log`, `write_head`, `install_trans`, `read_head`, `commit` and `recover_from_log` of
`log.c`, over a disk behind the buffer cache. A block is its 128 words, so that the header block is
a block like any other: its word 0 is `n` and its word `i + 1` is `block[i]`. `bread` returns the
cached contents where there are any, `bwrite` writes through, and every write to the disk is
recorded in `issued`, in order: a crash keeps a prefix of these.
-/

namespace Msboss.Log

open List Function

/-- A disk block, as an array of `uint`. -/
abbrev Block := Fin (BSIZE / 4) → UInt32

/-- The word `i` of a block. -/
def Block.word (b : Block) (i : Nat) : UInt32 := if h : i < BSIZE / 4 then b ⟨i, h⟩ else 0

/-- The block with the word `i` set. -/
def Block.setWord (b : Block) (i : Nat) (v : UInt32) : Block := fun j => if j.1 = i then v else b j

/-- The disk, the contents of the buffers that are valid, and the writes issued so far. -/
structure Dev where
  disk : Nat → Block
  cache : Nat → Option Block
  issued : List (Nat × Block)

/-- The contents of block `b`, from its buffer if it has one. -/
def Dev.bread (m : Dev) (b : Nat) : Block := (m.cache b).getD (m.disk b)

/-- Write the buffer of block `b`, with contents `v`, to the disk. -/
def Dev.bwrite (m : Dev) (b : Nat) (v : Block) : Dev where
  disk := update m.disk b v
  cache := update m.cache b (some v)
  issued := m.issued ++ [(b, v)]

/-- The machine after a reboot: nothing is cached. -/
def Dev.boot (disk : Nat → Block) : Dev := { disk, cache := fun _ => none, issued := [] }

/-- The in-memory header `log.lh`: the home blocks of the transaction. The array has `LOGSIZE`
entries. -/
structure Header where
  block : List UInt32
  fits : block.length ≤ LOGSIZE

/-- The loop of `install_trans` from `tail` on. -/
def installFrom (start : Nat) : Nat → List UInt32 → Dev → Dev
  | _, [], m => m
  | tail, b :: bs, m =>
    installFrom start (tail + 1) bs (m.bwrite b.toNat (m.bread (start + tail + 1)))

/-- Copy committed blocks from the log to their home location. -/
def install_trans (start : Nat) (block : List UInt32) (m : Dev) : Dev :=
  installFrom start 0 block m

/-- The loop of `write_log` from `tail` on. -/
def writeLogFrom (start : Nat) : Nat → List UInt32 → Dev → Dev
  | _, [], m => m
  | tail, b :: bs, m =>
    writeLogFrom start (tail + 1) bs (m.bwrite (start + tail + 1) (m.bread b.toNat))

/-- Copy modified blocks from the cache to the log. -/
def write_log (start : Nat) (block : List UInt32) (m : Dev) : Dev := writeLogFrom start 0 block m

/-- `hb->n` and `hb->block[i]` set from the in-memory header, the rest of the block left alone. -/
def headBlock (hb : Block) (block : List UInt32) : Block :=
  block.zipIdx.foldl (fun hb bi => hb.setWord (bi.2 + 1) bi.1)
    (hb.setWord 0 (UInt32.ofNat block.length))

/-- Write the in-memory log header to disk. -/
def write_head (start : Nat) (block : List UInt32) (m : Dev) : Dev :=
  m.bwrite start (headBlock (m.bread start) block)

/-- Read the log header from disk: `n` is an `int`, and a negative one stands for no block. -/
def read_head (start : Nat) (m : Dev) : List UInt32 :=
  let hb := m.bread start
  (range (hb.word 0).toInt32.toInt.toNat).map fun i => hb.word (i + 1)

/-- `recover_from_log`. -/
def recover_from_log (start : Nat) (m : Dev) : Dev :=
  write_head start [] (install_trans start (read_head start m) m)

/-- `commit`. -/
def commit (start : Nat) (lh : Header) (m : Dev) : Dev :=
  if 0 < lh.block.length then
    write_head start [] (install_trans start lh.block
      (write_head start lh.block (write_log start lh.block m)))
  else m

/-- The writes of a recovery from `disk`. -/
def recoveryWrites (start : Nat) (disk : Nat → Block) : List (Nat × Block) :=
  (recover_from_log start (.boot disk)).issued

/-- The writes of `commit`. -/
def commitWrites (start : Nat) (lh : Header) (disk : Nat → Block) (cache : Nat → Option Block) :
    List (Nat × Block) :=
  (commit start lh { disk, cache, issued := [] }).issued

/-! ## The writes each function issues -/

@[simp] theorem Dev.bwrite_issued (m : Dev) (b : Nat) (v : Block) :
    (m.bwrite b v).issued = m.issued ++ [(b, v)] := rfl

theorem Dev.bread_bwrite_self (m : Dev) (b : Nat) (v : Block) : (m.bwrite b v).bread b = v := by
  simp [Dev.bread, Dev.bwrite]

theorem Dev.bread_bwrite_of_ne (m : Dev) (v : Block) (h : c ≠ b) :
    (m.bwrite b v).bread c = m.bread c := by
  simp [Dev.bread, Dev.bwrite, h]

/-- `install_trans` copies the log blocks it found at first, as the home blocks lie outside the
log. -/
theorem installFrom_spec : ∀ {tail : Nat} {bs : List UInt32} {m : Dev},
    (∀ b ∈ bs, b.toNat < start ∨ start + tail + bs.length < b.toNat) →
    (installFrom start tail bs m).issued = m.issued ++
      (bs.zipIdx tail).map (fun bi => (bi.1.toNat, m.bread (start + bi.2 + 1))) ∧
    (installFrom start tail bs m).bread start = m.bread start
  | _, [], _, _ => by simp [installFrom]
  | tail, b :: bs, m, h => by
    have hb := h b (.head _)
    simp only [length_cons] at h hb
    obtain ⟨h1, h2⟩ := @installFrom_spec start (tail + 1) bs
      (m.bwrite b.toNat (m.bread (start + tail + 1)))
      (fun c hc => by have := h c (.tail _ hc); omega)
    refine ⟨?_, ?_⟩
    · rw [installFrom, h1, Dev.bwrite_issued, append_assoc]
      simp only [zipIdx_cons, map_cons, singleton_append]
      congr 2
      refine map_congr_left fun bi hbi => ?_
      have hi := snd_lt_of_mem_zipIdx hbi
      have hi' := le_snd_of_mem_zipIdx hbi
      rw [Dev.bread_bwrite_of_ne _ _ (by omega)]
    · rw [installFrom, h2, Dev.bread_bwrite_of_ne _ _ (by omega)]

/-- `write_log` copies the cached home blocks, which are then what the log blocks hold. -/
theorem writeLogFrom_spec : ∀ {tail : Nat} {bs : List UInt32} {m : Dev},
    (∀ b ∈ bs, b.toNat < start ∨ start + tail + bs.length < b.toNat) →
    (writeLogFrom start tail bs m).issued = m.issued ++
      (bs.zipIdx tail).map (fun bi => (start + bi.2 + 1, m.bread bi.1.toNat)) ∧
    (∀ c, c ≤ start + tail ∨ start + tail + bs.length < c →
      (writeLogFrom start tail bs m).bread c = m.bread c) ∧ ∀ bi ∈ bs.zipIdx tail,
      (writeLogFrom start tail bs m).bread (start + bi.2 + 1) = m.bread bi.1.toNat
  | _, [], _, _ => by simp [writeLogFrom]
  | tail, b :: bs, m, h => by
    simp only [length_cons] at h
    obtain ⟨h1, h2, h3⟩ := @writeLogFrom_spec start (tail + 1) bs
      (m.bwrite (start + tail + 1) (m.bread b.toNat))
      (fun c hc => by have := h c (.tail _ hc); omega)
    have hhome : ∀ bi ∈ bs.zipIdx (tail + 1),
        (m.bwrite (start + tail + 1) (m.bread b.toNat)).bread bi.1.toNat = m.bread bi.1.toNat :=
      fun bi hbi => by
        have := h bi.1 (.tail _ (fst_mem_of_mem_zipIdx hbi))
        exact Dev.bread_bwrite_of_ne _ _ (by omega)
    refine ⟨?_, fun c hc => ?_, fun bi hbi => ?_⟩
    · rw [writeLogFrom, h1, Dev.bwrite_issued, append_assoc]
      simp only [zipIdx_cons, map_cons, singleton_append]
      congr 2
      exact map_congr_left fun bi hbi => by rw [hhome bi hbi]
    · simp only [length_cons] at hc
      rw [writeLogFrom, h2 c (by omega), Dev.bread_bwrite_of_ne _ _ (by omega)]
    · rw [zipIdx_cons] at hbi
      rcases mem_cons.1 hbi with rfl | hbi
      · rw [writeLogFrom, h2 _ (by simp only; omega), Dev.bread_bwrite_self]
      · rw [writeLogFrom, h3 bi hbi, hhome bi hbi]

/-! ## Over the buffer cache -/

/-- The device is what the buffer cache shows: the disk, and of each block the data of its valid
buffer, or what is on the disk. -/
structure Shows (s : Bio.State Block) (dev : UInt32) (m : Dev) : Prop where
  disk : ∀ n, m.disk n.toNat = s.disk dev n
  cached : ∀ {b n}, (s.buf b).Caches dev n → (s.buf b).valid = true →
    m.bread n.toNat = (s.buf b).data
  uncached : ∀ {n}, (∀ b, (s.buf b).Caches dev n → (s.buf b).valid = false) →
    m.bread n.toNat = s.disk dev n

section
variable {s : Bio.State Block} {dev n : UInt32} {m : Dev} {b : Bio.BufId}

/-- The transfer of `bread` gives the contents of the block. -/
theorem Shows.read (h : Shows s dev m) (hs : Bio.Stored s) (hdev : dev ≠ Bio.noDev)
    (hb : (s.buf b).Caches dev n) (hbusy : (s.buf b).busy = true) (hvalid : (s.buf b).valid = false)
    (hclean : (s.buf b).dirty = false) (p : Nat) (c : Bio.Pc) :
    Shows (s.iderw p b c) dev m ∧ ((s.iderw p b c).buf b).data = m.bread n.toNat := by
  have hread : m.bread n.toNat = s.disk dev n :=
    h.uncached fun b' hb' => by rw [hs.unique hdev hb' hb]; exact hvalid
  have hbuf : (s.iderw p b c).buf =
      update s.buf b { s.buf b with valid := true, data := s.disk dev n } := by
    simp [Bio.State.iderw, hbusy, hvalid, hclean, Bio.State.goto, Bio.State.wakeup,
      Bio.State.setBuf, hb.1, hb.2]
  have hdisk : (s.iderw p b c).disk = s.disk := by
    simp [Bio.State.iderw, hbusy, hvalid, hclean, Bio.State.goto, Bio.State.wakeup,
      Bio.State.setBuf]
  refine ⟨⟨fun k => by rw [hdisk, h.disk], fun {b' k} hb' hv => ?_, fun {k} hno => ?_⟩, ?_⟩
  · rw [hbuf] at hb' hv ⊢
    rcases eq_or_ne b' b with rfl | hne
    · rw [update_self] at hb' ⊢
      rw [← show n = k from hb.2.symm.trans hb'.2, hread]
    · rw [update_of_ne hne] at hb' hv ⊢
      exact h.cached hb' hv
  · rw [hdisk]
    refine h.uncached fun b' hb' => ?_
    have := hno b'
    rw [hbuf] at this
    rcases eq_or_ne b' b with rfl | hne
    · exact hvalid
    · rw [update_of_ne hne] at this
      exact this hb'
  · rw [hbuf, update_self, hread]

/-- The transfer of `bwrite` writes the block. -/
theorem Shows.write (h : Shows s dev m) (hs : Bio.Stored s) (hdev : dev ≠ Bio.noDev)
    (hb : (s.buf b).Caches dev n) (hbusy : (s.buf b).busy = true) (hdirty : (s.buf b).dirty = true)
    (p : Nat) (c : Bio.Pc) : Shows (s.iderw p b c) dev (m.bwrite n.toNat (s.buf b).data) := by
  have hbuf : (s.iderw p b c).buf =
      update s.buf b { s.buf b with valid := true, dirty := false } := by
    simp [Bio.State.iderw, hbusy, hdirty, Bio.State.goto, Bio.State.wakeup, Bio.State.setBuf]
  have hdisk : (s.iderw p b c).disk = Bio.put s.disk dev n (s.buf b).data := by
    simp [Bio.State.iderw, hbusy, hdirty, Bio.State.goto, hb.1, hb.2]
  have hne {k : UInt32} (hk : k ≠ n) : k.toNat ≠ n.toNat := mt UInt32.toNat_inj.1 hk
  refine ⟨fun k => ?_, fun {b' k} hb' hv => ?_, fun {k} hno => ?_⟩
  · rw [hdisk, Bio.put, Dev.bwrite]
    rcases eq_or_ne k n with rfl | hk
    · simp
    · simp [hk, hne hk, h.disk]
  · rw [hbuf] at hb' hv ⊢
    rcases eq_or_ne b' b with rfl | hbb
    · rw [update_self] at hb' ⊢
      rw [← show n = k from hb.2.symm.trans hb'.2, Dev.bread_bwrite_self]
    · rw [update_of_ne hbb] at hb' hv ⊢
      have hk : k ≠ n := by
        rintro rfl
        exact hbb (hs.unique hdev hb' hb)
      rw [Dev.bread_bwrite_of_ne _ _ (hne hk), h.cached hb' hv]
  · rw [hbuf] at hno
    have hk : k ≠ n := by
      rintro rfl
      have := hno b
      rw [update_self] at this
      cases this hb
    rw [Dev.bread_bwrite_of_ne _ _ (hne hk), hdisk, Bio.put, if_neg fun h => hk h.2]
    refine h.uncached fun b' hb' => ?_
    have := hno b'
    rw [update_of_ne] at this
    · exact this hb'
    · rintro rfl
      exact hk (hb'.2.symm.trans hb.2)

end

end Msboss.Log
