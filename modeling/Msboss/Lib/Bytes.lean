import Mathlib

/-!
# Bytes

Little-endian numbers, and memories of bytes (functions from addresses) that are read and written a
few bytes or a bit at a time.
-/

namespace Msboss.Bytes

open Function

/-! ## Little-endian numbers -/

/-- The number with these bytes, the lowest first. -/
def leNat : List UInt8 → Nat
  | [] => 0
  | b :: bs => b.toNat + 2 ^ 8 * leNat bs

/-- The `n` low bytes of `w`, the lowest first. -/
def leBytes : Nat → Nat → List UInt8
  | 0, _ => []
  | n + 1, w => UInt8.ofNat w :: leBytes n (w / 2 ^ 8)

@[simp] theorem length_leBytes (n w : Nat) : (leBytes n w).length = n := by
  induction n generalizing w with
  | zero => rfl
  | succ n ih => rw [leBytes, List.length_cons, ih]

theorem leNat_leBytes (n w : Nat) : leNat (leBytes n w) = w % 2 ^ (8 * n) := by
  induction n generalizing w with
  | zero => rw [leBytes, leNat, Nat.mul_zero, Nat.pow_zero, Nat.mod_one]
  | succ n ih =>
    rw [leBytes, leNat, ih, Nat.mul_succ, Nat.add_comm, Nat.pow_add, Nat.mul_comm (2 ^ (8 * n)),
      Nat.mod_mul, Nat.add_comm]
    rfl

theorem leNat_lt (bs : List UInt8) : leNat bs < 2 ^ (8 * bs.length) := by
  induction bs with
  | nil => exact Nat.one_pos
  | cons b bs ih =>
    have hb := b.toNat_lt
    rw [leNat, List.length_cons, Nat.mul_succ, Nat.add_comm (8 * _), Nat.pow_add]
    omega

/-- Zero bytes are the number zero. -/
theorem leNat_replicate_zero (n : Nat) : leNat (List.replicate n 0) = 0 := by
  induction n with
  | zero => rfl
  | succ n ih => rw [List.replicate_succ, leNat, ih]; rfl

/-! ## Memories -/

/-- The `n` bytes from `off` on. -/
def read (m : Nat → UInt8) (off n : Nat) : List UInt8 := (List.range n).map fun i => m (off + i)

/-- The memory with the bytes stored from `off` on. -/
def write (m : Nat → UInt8) (off : Nat) (bytes : List UInt8) : Nat → UInt8 := fun i =>
  if off ≤ i ∧ i < off + bytes.length then bytes.getD (i - off) 0 else m i

@[simp] theorem length_read (m : Nat → UInt8) (off n : Nat) : (read m off n).length = n := by
  simp [read]

section
variable {m : Nat → UInt8} {off off' n : Nat} {bytes : List UInt8}

theorem read_write_self : read (write m off bytes) off bytes.length = bytes := by
  refine List.ext_getElem (by simp [read]) fun i h _ => ?_
  have hi : i < bytes.length := by simpa [read] using h
  simp [read, write, hi]

/-- A part of what was written. -/
theorem read_write_part {j : Nat} (h : j + n ≤ bytes.length) :
    read (write m off bytes) (off + j) n = (bytes.drop j).take n := by
  refine List.ext_getElem (by simp; omega) fun i hi _ => ?_
  have hi : i < n := by simpa using hi
  have hlt : j + i < bytes.length := by omega
  simp [read, write, Nat.add_assoc, hlt]

theorem read_write_of_disjoint (h : off' + n ≤ off ∨ off + bytes.length ≤ off') :
    read (write m off bytes) off' n = read m off' n := by
  refine List.map_congr_left fun i hi => ?_
  have hi := List.mem_range.1 hi
  rw [write, if_neg (by omega)]

end

/-! ## Bits -/

/-- Bit `i`, counted from the lowest bit of the first byte. -/
def bit (m : Nat → UInt8) (i : Nat) : Bool := (m (i / 8)).toNat.testBit (i % 8)

/-- The memory with bit `i` set. -/
def setBit (m : Nat → UInt8) (i : Nat) : Nat → UInt8 :=
  update m (i / 8) (m (i / 8) ||| UInt8.ofNat (2 ^ (i % 8)))

/-- The bits of a power of two, in a byte. -/
theorem testBit_two_pow_mod (i j : Nat) :
    (UInt8.ofNat (2 ^ (i % 8))).toNat.testBit (j % 8) = decide (i % 8 = j % 8) := by
  have hpow : (UInt8.ofNat (2 ^ (i % 8))).toNat = 2 ^ (i % 8) := by
    rw [UInt8.toNat_ofNat']
    exact Nat.mod_eq_of_lt (Nat.pow_lt_pow_right (by decide) (Nat.mod_lt _ (by decide)))
  rw [hpow, Nat.testBit_two_pow]

theorem bit_setBit (m : Nat → UInt8) (i j : Nat) :
    bit (setBit m i) j = (decide (j = i) || bit m j) := by
  unfold bit setBit
  rcases eq_or_ne (j / 8) (i / 8) with h | h
  · have hji : i % 8 = j % 8 ↔ j = i := by omega
    rw [h, update_self, UInt8.toNat_or, Nat.testBit_or, testBit_two_pow_mod,
      Bool.or_comm, decide_eq_decide.2 hji]
  · rw [update_of_ne h, decide_eq_false (fun hj => h (by rw [hj])), Bool.false_or]

/-- The memory with bit `i` clear. -/
def clearBit (m : Nat → UInt8) (i : Nat) : Nat → UInt8 :=
  update m (i / 8) (m (i / 8) &&& ~~~UInt8.ofNat (2 ^ (i % 8)))

theorem bit_clearBit (m : Nat → UInt8) (i j : Nat) :
    bit (clearBit m i) j = (!decide (j = i) && bit m j) := by
  unfold bit clearBit
  rcases eq_or_ne (j / 8) (i / 8) with h | h
  · have hji : i % 8 = j % 8 ↔ j = i := by omega
    have hnot (x : UInt8) : (~~~x).toNat.testBit (j % 8) = !x.toNat.testBit (j % 8) := by
      have hlt : j % 8 < 8 := Nat.mod_lt _ (by decide)
      change (~~~x).toBitVec.toNat.testBit _ = !x.toBitVec.toNat.testBit _
      rw [BitVec.testBit_toNat, BitVec.testBit_toNat, UInt8.toBitVec_not, BitVec.getLsbD_not,
        decide_eq_true hlt, Bool.true_and]
    rw [h, update_self, UInt8.toNat_and, Nat.testBit_and, hnot, testBit_two_pow_mod,
      Bool.and_comm, decide_eq_decide.2 hji]
  · rw [update_of_ne h, decide_eq_false (fun hj => h (by rw [hj])), Bool.not_false,
      Bool.true_and]

end Msboss.Bytes
