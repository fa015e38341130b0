import Msboss.Fs.Consistency

/-!
# The free map

`balloc` and `bfree` taken by themselves, for any super block and any free map. `balloc` here has
the loops of the source, with an `int` for the first block of each round: where `b += BPB` leaves
the range of an `int` nothing is said about what follows, and that is an outcome of its own.
Otherwise it is the `balloc` of `Msboss.Fs.Blocks` (`balloc_eq`); `bfree` is the one there.

`bfree` reads the super block again. It undoes `balloc` unless `balloc` has handed out block 1, and
so has zeroed the super block (`exact_iff`).
-/

namespace Msboss.Fs.Bitmap

/-! ## The code -/

/-- Why a call does not return. -/
inductive Stop
  | panic (e : Panic)
  /-- An `int` overflows. -/
  | overflow
  deriving DecidableEq, Repr

/-- The inner loop of `balloc`, of at most `turns` turns, over the bits of the block `data` of the
free map that starts with the bit of `b`. -/
def bitLoop (size : Nat) (data : Block) (b : Nat) : Nat → Nat → Option Nat
  | 0, _ => none
  | turns + 1, bi =>
    if bi < BPB ∧ b + bi < size then
      if (data (bi / 8)).toNat &&& 2 ^ (bi % 8) = 0 then some bi
      else bitLoop size data b turns (bi + 1)
    else none

/-- What the loops of `balloc` come to. -/
inductive Search
  /-- The bit `bi` from `b` on is clear. -/
  | free (b bi : Nat)
  | full
  | overflow
  deriving DecidableEq, Repr

/-- The outer loop of `balloc`, of at most `turns` turns. -/
def blockLoop (s : State) : Nat → Nat → Search
  | 0, _ => .full
  | turns + 1, b =>
    if b < s.sb.size then
      match bitLoop s.sb.size (s.block (s.sb.BBLOCK b)) b BPB 0 with
      | some bi => .free b bi
      | none => if b + BPB < 2 ^ 31 then blockLoop s turns (b + BPB) else .overflow
    else .full

/-- `balloc`. -/
def balloc : EStateM Stop State Nat := do
  let s ← get
  match blockLoop s (s.sb.size / BPB + 1) 0 with
  | .overflow => throw .overflow
  | .full => throw (.panic .balloc)
  | .free b bi =>
    let bno := s.sb.BBLOCK b
    set ((s.setBlock bno (Bytes.setBit (s.block bno) bi)).setBlock (b + bi) fun _ => 0)
    return b + bi

/-! ## The property -/

/-- The super block in memory is the one on the disk, the free map comes after it and has 32-bit
block numbers, and its own blocks are taken. -/
structure Mapped (s : State) : Prop where
  super : s.sb = .ofBlock (s.block 1)
  start : 2 ≤ s.sb.bmapstart
  number : ∀ c < s.sb.size, s.sb.BBLOCK c < 2 ^ 32
  own : ∀ c < s.sb.size, s.sb.BBLOCK c < s.sb.size → s.taken (s.sb.BBLOCK c) = true

/-- The bit of `c` in the free map of `s`, on another disk. -/
def bitOn (s : State) (block : Nat → Block) (c : Nat) : Bool :=
  Bytes.bit (block (s.sb.BBLOCK c)) (c % BPB)

/-- Only the bit of `b` was changed, to `v`, in its block of the free map. -/
structure OneBit (s s' : State) (b : Nat) (v : Bool) : Prop where
  bits : ∀ c < s.sb.size, bitOn s s'.block c = if c = b then v else s.taken c
  inBlock : ∀ i, Bytes.bit (s'.block (s.sb.BBLOCK b)) i =
    if i = b % BPB then v else Bytes.bit (s.block (s.sb.BBLOCK b)) i

/-- What `balloc` and `bfree` are for. -/
structure Exact (s : State) : Prop where
  balloc : (∃ b s', balloc s = .ok b s' ∧ b < s.sb.size ∧ s.taken b = false ∧
      (∀ c < b, s.taken c = true) ∧ OneBit s s' b true ∧ s'.block b = (fun _ => 0) ∧
      ∀ c, c ≠ b → c ≠ s.sb.BBLOCK b → s'.block c = s.block c) ∨
    (∃ s', balloc s = .error (.panic .balloc) s') ∧ ∀ c < s.sb.size, s.taken c = true
  bfree : ∀ b < s.sb.size, (∃ s', bfree b s = .ok ⟨⟩ s' ∧ s.taken b = true ∧ OneBit s s' b false ∧
      ∀ c, c ≠ s.sb.BBLOCK b → s'.block c = s.block c) ∨
    (∃ s', bfree b s = .error .bfree s') ∧ s.taken b = false
  restores : ∀ b s', Bitmap.balloc s = .ok b s' →
    ∃ s'', Fs.bfree b s' = .ok ⟨⟩ s'' ∧ ∀ c < s.sb.size, bitOn s s''.block c = s.taken c

/-- What they need: the search ends before an `int` overflows, and the first block that is free is
not the super block. -/
def Served (s : State) : Prop :=
  (s.sb.size ≤ 2 ^ 31 - BPB ∨ ∃ c < s.sb.size, c < 2 ^ 31 ∧ s.taken c = false) ∧
    ¬ (1 < s.sb.size ∧ s.taken 0 = true ∧ s.taken 1 = false)

/-! ## The search -/

section
variable {s s' : State} {b c bi : Nat}

theorem and_two_pow_eq_zero (n i : Nat) : n &&& 2 ^ i = 0 ↔ n.testBit i = false := by
  rw [Nat.and_two_pow]
  cases n.testBit i <;> simp

/-- The inner loop finds the first clear bit. -/
theorem bitLoop_spec (size : Nat) (data : Block) (b : Nat) : ∀ (turns bi : Nat), BPB ≤ bi + turns →
    (∀ i < bi, b + i < size → Bytes.bit data i = true) →
    match bitLoop size data b turns bi with
    | some k => k < BPB ∧ b + k < size ∧ Bytes.bit data k = false ∧ ∀ i < k, Bytes.bit data i = true
    | none => ∀ i < BPB, b + i < size → Bytes.bit data i = true
  | 0, bi, hturns, hset => fun i hi hlt => hset i (by omega) hlt
  | turns + 1, bi, hturns, hset => by
    unfold bitLoop
    by_cases h : bi < BPB ∧ b + bi < size
    · rw [if_pos h]
      by_cases hclear : (data (bi / 8)).toNat &&& 2 ^ (bi % 8) = 0
      · rw [if_pos hclear]
        exact ⟨h.1, h.2, (and_two_pow_eq_zero ..).1 hclear, fun i hi => hset i hi (by omega)⟩
      rw [if_neg hclear]
      refine bitLoop_spec size data b turns (bi + 1) (by omega) fun i hi hlt => ?_
      rcases Nat.lt_succ_iff_lt_or_eq.1 hi with hi | rfl
      · exact hset i hi hlt
      · exact Bool.eq_true_of_not_eq_false fun h0 => hclear ((and_two_pow_eq_zero ..).2 h0)
    · rw [if_neg h]
      exact fun i hi hlt => hset i (by omega) hlt

/-- The bits of a round. -/
theorem taken_add (s : State) (j : Nat) (h : bi < BPB) :
    s.taken (j * BPB + bi) = Bytes.bit (s.block (s.sb.BBLOCK (j * BPB))) bi := by
  have h1 : (j * BPB + bi) / BPB = j * BPB / BPB := by
    simp only [BPB, BSIZE] at *
    omega
  have h2 : (j * BPB + bi) % BPB = bi := by
    simp only [BPB, BSIZE] at *
    omega
  rw [State.taken, Superblock.BBLOCK, Superblock.BBLOCK, h1, h2]

theorem round_le (h : j * BPB < 2 ^ 31) : j * BPB + BPB ≤ 2 ^ 31 := by
  simp only [BPB, BSIZE] at h ⊢
  omega

/-- The loops find the first clear bit, if an `int` does not overflow before. -/
theorem blockLoop_spec (s : State) (hturns : s.sb.size < (j + turns) * BPB)
    (hj : j * BPB < 2 ^ 31) (hset : ∀ c < j * BPB, c < s.sb.size → s.taken c = true) :
    match blockLoop s turns (j * BPB) with
    | .free b bi => BPB ∣ b ∧ bi < BPB ∧ b + bi < s.sb.size ∧ b + bi < 2 ^ 31 ∧
      s.taken (b + bi) = false ∧ ∀ c < b + bi, s.taken c = true
    | .full => s.sb.size ≤ 2 ^ 31 - BPB ∧ ∀ c < s.sb.size, s.taken c = true
    | .overflow => 2 ^ 31 - BPB < s.sb.size ∧ ∀ c < s.sb.size, c < 2 ^ 31 → s.taken c = true := by
  have hle := round_le hj
  induction turns generalizing j with
  | zero =>
    rw [Nat.add_zero] at hturns
    exact ⟨by omega, fun c hc => hset c (by omega) hc⟩
  | succ turns ih =>
    have hround : (∀ i < BPB, j * BPB + i < s.sb.size → s.taken (j * BPB + i) = true) →
        ∀ c < (j + 1) * BPB, c < s.sb.size → s.taken c = true := fun h c hc hlt => by
      rcases Nat.lt_or_ge c (j * BPB) with hlow | hlow
      · exact hset c hlow hlt
      · rw [← Nat.add_sub_cancel' hlow]
        rw [Nat.succ_mul] at hc
        exact h (c - j * BPB) (by omega) (by omega)
    have hbits := bitLoop_spec s.sb.size (s.block (s.sb.BBLOCK (j * BPB))) (j * BPB)
      BPB 0 (by omega) fun i hi => absurd hi (Nat.not_lt_zero i)
    unfold blockLoop
    by_cases hsize : j * BPB < s.sb.size
    · rw [if_pos hsize]
      cases hloop : bitLoop s.sb.size (s.block (s.sb.BBLOCK (j * BPB))) (j * BPB) BPB 0 with
      | some bi =>
        rw [hloop] at hbits
        obtain ⟨hbi, hlt, hfree, hlow⟩ := hbits
        rw [← taken_add s j hbi] at hfree
        refine ⟨Dvd.intro_left j rfl, hbi, hlt, by omega, hfree, fun c hc => ?_⟩
        rcases Nat.lt_or_ge c (j * BPB) with hcj | hcj
        · exact hset c hcj (by omega)
        · rw [← Nat.add_sub_cancel' hcj, taken_add s j (by omega)]
          exact hlow _ (by omega)
      | none =>
        rw [hloop] at hbits
        have hset' := hround fun i hi hlt => by
          rw [taken_add s j hi]
          exact hbits i hi hlt
        dsimp only
        rw [show j * BPB + BPB = (j + 1) * BPB from (Nat.succ_mul ..).symm]
        by_cases hint : (j + 1) * BPB < 2 ^ 31
        · rw [if_pos hint]
          exact ih (by rwa [Nat.add_right_comm, Nat.add_assoc]) hint hset' (round_le hint)
        · rw [if_neg hint]
          rw [Nat.succ_mul] at hint
          exact ⟨by omega, fun c hc hlt => hset' c (by rw [Nat.succ_mul]; omega) hc⟩
    · rw [if_neg hsize]
      exact ⟨by omega, fun c hc => hset c (by omega) hc⟩

/-- The state after `balloc` has found a bit of the round that starts at `b`. -/
theorem allocated_add (s : State) (hb : BPB ∣ b) (hbi : bi < BPB) :
    (s.setBlock (s.sb.BBLOCK b) (Bytes.setBit (s.block (s.sb.BBLOCK b)) bi)).setBlock (b + bi)
      (fun _ => 0) = s.allocated (b + bi) := by
  have hmod : (b + bi) % BPB = bi := by
    simp only [BPB, BSIZE] at hb hbi ⊢
    omega
  have hblock : s.sb.BBLOCK (b + bi) = s.sb.BBLOCK b := by
    simp only [Superblock.BBLOCK, BPB, BSIZE] at hb hbi ⊢
    omega
  rw [State.allocated, hmod, hblock]

/-- What `balloc` does. -/
theorem balloc_cases (s : State) :
    (∃ b, balloc s = .ok b (s.allocated b) ∧ b < s.sb.size ∧ b < 2 ^ 31 ∧ s.taken b = false ∧
      ∀ c < b, s.taken c = true) ∨
    (balloc s = .error (.panic .balloc) s ∧ s.sb.size ≤ 2 ^ 31 - BPB ∧
      ∀ c < s.sb.size, s.taken c = true) ∨
    (balloc s = .error .overflow s ∧ 2 ^ 31 - BPB < s.sb.size ∧
      ∀ c < s.sb.size, c < 2 ^ 31 → s.taken c = true) := by
  have hturns : s.sb.size < (0 + (s.sb.size / BPB + 1)) * BPB := by
    simp only [BPB, BSIZE]
    omega
  have hspec := blockLoop_spec s hturns (by rw [Nat.zero_mul]; decide)
    fun c hc => absurd hc (by rw [Nat.zero_mul]; exact Nat.not_lt_zero c)
  rw [Nat.zero_mul] at hspec
  have hcode : balloc s = match blockLoop s (s.sb.size / BPB + 1) 0 with
      | .overflow => .error .overflow s
      | .full => .error (.panic .balloc) s
      | .free b bi => .ok (b + bi) ((s.setBlock (s.sb.BBLOCK b)
        (Bytes.setBit (s.block (s.sb.BBLOCK b)) bi)).setBlock (b + bi) fun _ => 0) := by
    change (match blockLoop s (s.sb.size / BPB + 1) 0 with
      | .overflow => _
      | .full => _
      | .free b bi => _ : EStateM Stop State Nat) s = _
    cases blockLoop s (s.sb.size / BPB + 1) 0 <;> rfl
  rw [hcode]
  cases hloop : blockLoop s (s.sb.size / BPB + 1) 0 with
  | free b bi =>
    rw [hloop] at hspec
    obtain ⟨hdvd, hbi, hlt, hint, hfree, hlow⟩ := hspec
    have hstate := congrArg (EStateM.Result.ok (ε := Stop) (b + bi)) (allocated_add s hdvd hbi)
    exact .inl ⟨b + bi, hstate, hlt, hint, hfree, hlow⟩
  | full =>
    rw [hloop] at hspec
    exact .inr (.inl ⟨rfl, hspec⟩)
  | overflow =>
    rw [hloop] at hspec
    exact .inr (.inr ⟨rfl, hspec⟩)

/-- Unless an `int` overflows, this is the `balloc` of the other modules. -/
theorem balloc_eq (s : State) : balloc s = .error .overflow s ∨ balloc s = match Fs.balloc s with
    | .ok b s' => .ok b s'
    | .error e s' => .error (.panic e) s' := by
  have hcode : Fs.balloc s = s.ballocScan.elim (.error .balloc s) fun b =>
    .ok b (s.allocated b) := by
    unfold Fs.balloc
    cases hscan : s.ballocScan with
    | none => simp [get, getThe, MonadStateOf.get, bind, EStateM.bind, EStateM.get, hscan]; rfl
    | some b => simp [get, getThe, MonadStateOf.get, bind, EStateM.bind, EStateM.get, hscan]; rfl
  rw [hcode, ballocScan_eq]
  obtain ⟨b, heq, hlt, -, hfree, hlow⟩ | ⟨heq, -, hfull⟩ | ⟨heq, -⟩ := balloc_cases s
  · have hfind : (List.range s.sb.size).find? (fun b => !s.taken b) = some b := by
      rw [List.find?_range_eq_some]
      exact ⟨by rw [hfree]; rfl, List.mem_range.2 hlt, fun c hc => by rw [hlow c hc]; rfl⟩
    rw [heq, hfind]
    exact .inr rfl
  · have hfind : (List.range s.sb.size).find? (fun b => !s.taken b) = none := by
      refine List.find?_eq_none.2 fun c hc => ?_
      rw [hfull c (List.mem_range.1 hc)]
      decide
    rw [heq, hfind]
    exact .inr rfl
  · exact .inl heq

/-! ## The two functions -/

/-- `bfree` looks at the free map of the super block on the disk. -/
theorem bfree_apply (ht : { s with sb := .ofBlock (s.block 1) } = t) (b : Nat) :
    bfree b s = if t.taken b then .ok ⟨⟩ (t.freed b) else .error .bfree t := by
  have hcode : bfree b s = (if t.taken b then
      log_write (t.sb.BBLOCK b) (Bytes.clearBit (t.block (t.sb.BBLOCK b)) (b % BPB))
      else throw .bfree : M Unit) t := by
    rw [← ht]
    rfl
  rw [hcode]
  split <;> rfl

theorem bfree_eq (hsb : s.sb = .ofBlock (s.block 1)) (b : Nat) :
    bfree b s = if s.taken b then .ok ⟨⟩ (s.freed b) else .error .bfree s :=
  bfree_apply (by rw [← hsb]) b

/-- A block of the free map is not free. -/
theorem Mapped.ne (h : Mapped s) (hb : b < s.sb.size) (hfree : s.taken b = false)
    (hc : c < s.sb.size) : s.sb.BBLOCK c ≠ b := by
  rintro rfl
  rw [h.own c hc hb] at hfree
  cases hfree

theorem oneBit_allocated (h : Mapped s) (hb : b < s.sb.size) (hfree : s.taken b = false) :
    OneBit s (s.allocated b) b true where
  bits c hc := by
    refine (taken_allocated (h.ne hb hfree hc)).trans ?_
    split <;> simp [*]
  inBlock i := by
    rw [State.allocated, setBlock_of_ne _ _ (h.ne hb hfree hb), setBlock_self, Bytes.bit_setBit]
    split <;> simp [*]

theorem oneBit_freed (s : State) (b : Nat) : OneBit s (s.freed b) b false where
  bits c _ := by
    refine (freed_taken s b c).trans ?_
    split <;> simp [*]
  inBlock i := by
    rw [State.freed, setBlock_self, Bytes.bit_clearBit]
    split <;> simp [*]

/-- The super block is where it was. -/
theorem Mapped.super_allocated (h : Mapped s) (hb : b ≠ 1) :
    (s.allocated b).sb = .ofBlock ((s.allocated b).block 1) := by
  have hstart := h.start
  have hge := Superblock.Layout.bitmap_ge s.sb b
  rw [allocated_block hb.symm (by omega)]
  exact h.super

/-- `bfree` after `balloc` restores the free map, unless the super block was zeroed. -/
theorem Mapped.restores (h : Mapped s) (hb : b < s.sb.size) (hfree : s.taken b = false)
    (h1 : b ≠ 1) : ∃ s'', bfree b (s.allocated b) = .ok ⟨⟩ s'' ∧
      ∀ c < s.sb.size, bitOn s s''.block c = s.taken c := by
  have hbits := (oneBit_allocated h hb hfree).bits
  have htaken : (s.allocated b).taken b = true := by
    have := hbits b hb
    rwa [if_pos rfl] at this
  rw [bfree_eq (h.super_allocated h1), if_pos htaken]
  refine ⟨_, rfl, fun c hc => ?_⟩
  refine ((oneBit_freed (s.allocated b) b).bits c hc).trans ?_
  split
  · next heq => rw [heq, hfree]
  · next hne => exact (hbits c hc).trans (if_neg hne)

/-- With a super block of zeros, `bfree` does not find the free map. -/
theorem Mapped.lost (h : Mapped s) (h1 : 1 < s.sb.size) (hfree : s.taken 1 = false) :
    ¬ ∃ s'', bfree 1 (s.allocated 1) = .ok ⟨⟩ s'' ∧
      ∀ c < s.sb.size, bitOn s s''.block c = s.taken c := by
  rintro ⟨s'', hok, hbits⟩
  have hge := Superblock.Layout.bitmap_ge s.sb 1
  have hstart := h.start
  have hzero : (Superblock.ofBlock ((s.allocated 1).block 1)).bmapstart = 0 := by
    rw [allocated_self]
    exact word_zero 6
  rw [bfree_apply rfl] at hok
  split at hok
  · cases hok
    -- it has looked at block 0, which is not a block of the free map
    have hblock :
      ((State.freed { s.allocated 1 with sb := .ofBlock ((s.allocated 1).block 1) } 1).block
        (s.sb.BBLOCK 1)) = (s.allocated 1).block (s.sb.BBLOCK 1) :=
      setBlock_of_ne _ _ (by simp only [Superblock.BBLOCK, hzero] at hge ⊢; omega)
    have hbit := (oneBit_allocated h h1 hfree).bits 1 h1
    have hback := hbits 1 h1
    unfold bitOn at hbit hback
    rw [hblock, hbit, if_pos rfl, hfree] at hback
    cases hback
  · cases hok

/-- For every super block and every free map with its own blocks taken. -/
theorem exact_iff (s : State) (h : Mapped s) : Exact s ↔ Served s := by
  constructor
  · intro hE
    have hcases := balloc_cases s
    refine ⟨?_, fun ⟨h1, ht0, ht1⟩ => ?_⟩
    · obtain ⟨b, -, hlt, hint, hfree, -⟩ | ⟨-, hsize, -⟩ | ⟨hover, -⟩ := hcases
      · exact .inr ⟨b, hlt, hint, hfree⟩
      · exact .inl hsize
      obtain ⟨b, s', hok, -⟩ | ⟨⟨s', hpanic⟩, -⟩ := hE.balloc
      · rw [hover] at hok
        cases hok
      · rw [hover] at hpanic
        cases hpanic
    · obtain ⟨b, hok, hlt, -, hfree, hlow⟩ | ⟨-, -, hfull⟩ | ⟨-, -, hfull⟩ := hcases
      · have hb : b = 1 := by
          rcases Nat.lt_trichotomy b 1 with hb | hb | hb
          · obtain rfl : b = 0 := Nat.lt_one_iff.1 hb
            rw [ht0] at hfree
            cases hfree
          · exact hb
          · rw [hlow 1 hb] at ht1
            cases ht1
        subst hb
        exact h.lost h1 ht1 (hE.restores 1 _ hok)
      · rw [hfull 1 h1] at ht1
        cases ht1
      · rw [hfull 1 h1 (by decide)] at ht1
        cases ht1
  · rintro ⟨hint, hsuper⟩
    have hcases : (∃ b, balloc s = .ok b (s.allocated b) ∧ b < s.sb.size ∧ s.taken b = false ∧
        ∀ c < b, s.taken c = true) ∨
        balloc s = .error (.panic .balloc) s ∧ ∀ c < s.sb.size, s.taken c = true := by
      obtain ⟨b, hok, hlt, -, hrest⟩ | ⟨hpanic, -, hfull⟩ | ⟨-, hsize, hfull⟩ := balloc_cases s
      · exact .inl ⟨b, hok, hlt, hrest⟩
      · exact .inr ⟨hpanic, hfull⟩
      · obtain hle | ⟨c, hc, hlt, hfree⟩ := hint
        · omega
        · rw [hfull c hc hlt] at hfree
          cases hfree
    refine ⟨?_, fun b hb => ?_, fun b s' hok => ?_⟩
    · obtain ⟨b, hok, hlt, hfree, hlow⟩ | ⟨hpanic, hfull⟩ := hcases
      · exact .inl ⟨b, _, hok, hlt, hfree, hlow, oneBit_allocated h hlt hfree, allocated_self s b,
          fun c hne hne' => allocated_block hne hne'⟩
      · exact .inr ⟨⟨s, hpanic⟩, hfull⟩
    · rw [bfree_eq h.super]
      split
      · next ht => exact .inl ⟨_, rfl, ht, oneBit_freed s b, fun c hne => setBlock_of_ne _ _ hne⟩
      · next ht => exact .inr ⟨⟨s, rfl⟩, Bool.eq_false_of_not_eq_true ht⟩
    · obtain ⟨b', hok', hlt, hfree, hlow⟩ | ⟨hpanic, -⟩ := hcases
      · rw [hok'] at hok
        cases hok
        refine h.restores hlt hfree fun h1 => hsuper ?_
        subst h1
        exact ⟨hlt, hlow 0 Nat.zero_lt_one, hfree⟩
      · rw [hpanic] at hok
        cases hok

end

/-- Eight blocks, with the free map in block 2. -/
def tiny (map : UInt8) : State where
  sb := ⟨8, 0, 0, 0, 2⟩
  block b i :=
    if b = 1 ∧ i = 0 then 8 else if b = 1 ∧ i = 24 then 2 else if b = 2 ∧ i = 0 then map else 0
  inode _ := .blank .free
  ref _ := 0
  valid _ := false
  ops := []
  mem _ := 0
  loads := []
  stores := []

/-- The first three blocks are taken. -/
theorem exact_iff_three : Mapped (tiny 7) ∧ Exact (tiny 7) := by
  have h : Mapped (tiny 7) := ⟨by decide, by decide, by decide, by decide⟩
  refine ⟨h, (exact_iff _ h).2 ⟨.inl (by decide), by decide⟩⟩

/-- The super block is not marked as taken: `balloc` hands it out, and `bfree` panics. -/
theorem superblock_freed : Mapped (tiny 5) ∧ ∃ s', balloc (tiny 5) = .ok 1 s' ∧
    ∃ s'', bfree 1 s' = .error .bfree s'' :=
  ⟨⟨by decide, by decide, by decide, by decide⟩, _, rfl, _, rfl⟩

end Msboss.Fs.Bitmap
