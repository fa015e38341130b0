import Msboss.Lib.Bytes

/-!
# `memmove`

There are two: the kernel's in `string.c`, which chooses the direction of its loop, and the user's
in `ulib.c`, which always goes up. Addresses are 32-bit numbers, and so is the length, which the
user's `memmove` takes as an `int`.

Both are compared with `moved`, which reads the whole range before it stores it. The kernel's is
`moved` for all ranges that do not wrap (`memmove_eq`). The loop that goes up has read a byte of the
source after it stored to it if the destination starts inside the source, and it is `moved` if and
only if the source repeats itself there (`ascend_eq_iff`).
-/

namespace Msboss.Strings

open Function

/-- The bytes by their address. -/
abbrev Memory := Nat → UInt8

/-! ## The code -/

/-- `while (n-- > 0) *d++ = *s++`. -/
def ascend : Nat → Memory → Nat → Nat → Memory
  | 0, m, _, _ => m
  | n + 1, m, d, s => ascend n (update m d (m s)) ((d + 1) % 2 ^ 32) ((s + 1) % 2 ^ 32)

/-- The address before. -/
def pred (a : Nat) : Nat := if a = 0 then 0xffffffff else a - 1

/-- `while (n-- > 0) *--d = *--s`. -/
def descend : Nat → Memory → Nat → Nat → Memory
  | 0, m, _, _ => m
  | n + 1, m, d, s => descend n (update m (pred d) (m (pred s))) (pred d) (pred s)

/-- `memmove(dst, src, n)` of `string.c`. -/
def memmove (m : Memory) (dst src n : Nat) : Memory :=
  if src < dst ∧ (src + n) % 2 ^ 32 > dst then
    descend n m ((dst + n) % 2 ^ 32) ((src + n) % 2 ^ 32)
  else ascend n m dst src

/-- `memmove(vdst, vsrc, n)` of `ulib.c`; a length from `2 ^ 31` on is negative. -/
def ulibMemmove (m : Memory) (vdst vsrc n : Nat) : Memory :=
  ascend ((n : Int).bmod (2 ^ 32)).toNat m vdst vsrc

/-! ## The property -/

/-- The memory in which the bytes at `src` are stored at `dst`. -/
def moved (m : Memory) (dst src n : Nat) : Memory := Bytes.write m dst (Bytes.read m src n)

/-- Where the destination starts inside the source, the source repeats itself from there on. -/
def Repeats (m : Memory) (dst src n : Nat) : Prop :=
  src < dst → ∀ i, i + (dst - src) < n → m (src + (i + (dst - src))) = m (src + i)

/-- What the user's `memmove` needs. -/
def Tolerated (m : Memory) (dst src n : Nat) : Prop :=
  if n < 2 ^ 31 then Repeats m dst src n else ∀ i < n, m (dst + i) = m (src + i)

section
variable {m : Memory} {dst src d s n a i : Nat}

theorem moved_apply (m : Memory) (dst src n a : Nat) :
    moved m dst src n a = if dst ≤ a ∧ a < dst + n then m (src + (a - dst)) else m a := by
  unfold moved Bytes.write Bytes.read
  simp only [List.length_map, List.length_range]
  split
  · next h =>
    have hlt : a - dst < n := by omega
    simp [hlt]
  · rfl

theorem moved_zero (m : Memory) (dst src : Nat) : moved m dst src 0 = m := by
  funext a
  rw [moved_apply, if_neg (by omega)]

theorem moved_add (hi : i < n) : moved m dst src n (dst + i) = m (src + i) := by
  rw [moved_apply, if_pos (by omega), Nat.add_sub_cancel_left]

/-- `moved` leaves the memory as it is. -/
theorem eq_moved_iff : m = moved m dst src n ↔ ∀ i < n, m (dst + i) = m (src + i) := by
  refine ⟨fun h i hi => ?_, fun h => ?_⟩
  · calc m (dst + i) = moved m dst src n (dst + i) := congrFun h _
      _ = m (src + i) := moved_add hi
  · funext a
    rw [moved_apply]
    split
    · next ha =>
      have hi := h (a - dst) (by omega)
      rwa [Nat.add_sub_cancel' ha.1] at hi
    · rfl

/-! ## Up -/

/-- A round, where the address that follows is used only if there are more rounds. -/
theorem ascend_succ (hd : d + (n + 1) ≤ 2 ^ 32) (hs : s + (n + 1) ≤ 2 ^ 32) :
    ascend (n + 1) m d s = ascend n (update m d (m s)) (d + 1) (s + 1) := by
  rw [ascend]
  cases n with
  | zero => rfl
  | succ n => rw [Nat.mod_eq_of_lt (by omega), Nat.mod_eq_of_lt (by omega)]

theorem ascend_of_outside : ∀ {n m d s}, d + n ≤ 2 ^ 32 → s + n ≤ 2 ^ 32 → a < d ∨ d + n ≤ a →
    ascend n m d s a = m a
  | 0, _, _, _, _, _, _ => rfl
  | n + 1, m, d, s, hd, hs, ha => by
    rw [ascend_succ hd hs, ascend_of_outside (by omega) (by omega) (by omega),
      update_of_ne (by omega)]

/-- The bytes of the source before the destination are read before a store to them. -/
theorem ascend_add : ∀ {n m d s i}, d + n ≤ 2 ^ 32 → s + n ≤ 2 ^ 32 → i < n → s + i < d →
    ascend n m d s (d + i) = m (s + i)
  | n + 1, m, d, s, 0, hd, hs, _, _ => by
    rw [ascend_succ hd hs, ascend_of_outside (by omega) (by omega) (by omega)]
    exact update_self ..
  | n + 1, m, d, s, i + 1, hd, hs, hi, hlt => by
    have ih := ascend_add (m := update m d (m s)) (d := d + 1) (s := s + 1) (i := i)
      (n := n) (by omega) (by omega) (by omega) (by omega)
    rw [ascend_succ hd hs, show d + (i + 1) = d + 1 + i by omega, ih,
      update_of_ne (by omega), show s + 1 + i = s + (i + 1) by omega]

/-- The other bytes are read after a store to them. -/
theorem ascend_again : ∀ {n m d s i}, d + n ≤ 2 ^ 32 → s + n ≤ 2 ^ 32 → s < d → i + (d - s) < n →
    ascend n m d s (d + (i + (d - s))) = ascend n m d s (d + i)
  | n + 1, m, d, s, 0, hd, hs, hlt, hi => by
    have hfirst := ascend_add (m := update m d (m s)) (d := d + 1) (s := s + 1)
      (i := d - s - 1) (n := n) (by omega) (by omega) (by omega) (by omega)
    rw [ascend_succ hd hs, show d + (0 + (d - s)) = d + 1 + (d - s - 1) by omega, hfirst,
      show s + 1 + (d - s - 1) = d by omega,
      ascend_of_outside (a := d + 0) (by omega) (by omega) (by omega)]
    rfl
  | n + 1, m, d, s, i + 1, hd, hs, hlt, hi => by
    have ih := ascend_again (m := update m d (m s)) (d := d + 1) (s := s + 1) (i := i)
      (n := n) (by omega) (by omega) (by omega) (by omega)
    rw [show d + 1 - (s + 1) = d - s by omega] at ih
    rw [ascend_succ hd hs, show d + (i + 1 + (d - s)) = d + 1 + (i + (d - s)) by omega, ih,
      show d + (i + 1) = d + 1 + i by omega]

/-- A store of the loop changes no byte that is still to be read. -/
theorem Repeats.read (h : Repeats m d s (n + 1)) (hi : i < n) :
    update m d (m s) (s + 1 + i) = m (s + 1 + i) := by
  rcases eq_or_ne (s + 1 + i) d with heq | hne
  · have h0 := h (by omega) 0 (by omega)
    rw [show s + (0 + (d - s)) = d by omega, Nat.add_zero] at h0
    rw [heq, update_self, h0]
  · rw [update_of_ne hne]

theorem ascend_eq_moved : ∀ {n m d s}, d + n ≤ 2 ^ 32 → s + n ≤ 2 ^ 32 → Repeats m d s n →
    ascend n m d s = moved m d s n
  | 0, m, d, s, _, _, _ => (moved_zero m d s).symm
  | n + 1, m, d, s, hd, hs, h => by
    have hrest : Repeats (update m d (m s)) (d + 1) (s + 1) n := fun hlt i hi => by
      rw [show d + 1 - (s + 1) = d - s by omega] at hi ⊢
      rw [h.read hi, h.read (by omega), show s + 1 + (i + (d - s)) = s + (i + 1 + (d - s)) by omega,
        h (by omega) (i + 1) (by omega), show s + 1 + i = s + (i + 1) by omega]
    rw [ascend_succ hd hs, ascend_eq_moved (by omega) (by omega) hrest]
    funext a
    rw [moved_apply, moved_apply]
    split
    · next ha =>
      rw [if_pos (by omega), h.read (by omega), show s + 1 + (a - (d + 1)) = s + (a - d) by omega]
    · rcases eq_or_ne a d with rfl | hne
      · rw [update_self, if_pos (by omega), Nat.sub_self, Nat.add_zero]
      · rw [update_of_ne hne, if_neg (by omega)]

/-- The loop that goes up moves the bytes if and only if the source repeats itself where it is
overwritten before it is read. -/
theorem ascend_eq_iff (hd : d + n ≤ 2 ^ 32) (hs : s + n ≤ 2 ^ 32) :
    ascend n m d s = moved m d s n ↔ Repeats m d s n := by
  refine ⟨fun h hlt i hi => ?_, ascend_eq_moved hd hs⟩
  have hagain := ascend_again (m := m) hd hs hlt hi
  rwa [h, moved_add hi, moved_add (by omega)] at hagain

/-! ## Down -/

theorem pred_add_one (h : a < 2 ^ 32) : pred ((a + 1) % 2 ^ 32) = a := by
  unfold pred
  split <;> omega

/-- Going down, a byte of the source below the destination is read before a store to it. -/
theorem descend_eq_moved (hlt : s < d) (hd : d + n ≤ 2 ^ 32) :
    descend n m ((d + n) % 2 ^ 32) ((s + n) % 2 ^ 32) = moved m d s n := by
  induction n generalizing m with
  | zero => rw [descend, moved_zero]
  | succ n ih =>
    have hd' : d + n < 2 ^ 32 := by omega
    have hs' : s + n < 2 ^ 32 := by omega
    simp only [Nat.mod_eq_of_lt hd', Nat.mod_eq_of_lt hs'] at ih
    simp only [descend, ← Nat.add_assoc, pred_add_one hd', pred_add_one hs', ih hd'.le]
    funext a
    rw [moved_apply, moved_apply]
    split
    · next ha => rw [if_pos (by omega), update_of_ne (by omega)]
    · rcases eq_or_ne a (d + n) with rfl | hne
      · rw [update_self, if_pos (by omega), Nat.add_sub_cancel_left]
      · rw [update_of_ne hne, if_neg (by omega)]

/-! ## The two functions -/

theorem memmove_eq (hd : dst + n ≤ 2 ^ 32) (hs : src + n ≤ 2 ^ 32) :
    memmove m dst src n = moved m dst src n := by
  unfold memmove
  split
  · next h => exact descend_eq_moved h.1 hd
  next h =>
  -- the ranges are apart, or the destination is below: nothing is read after a store to it
  refine ascend_eq_moved hd hs fun hlt i hi => absurd ⟨hlt, ?_⟩ h
  rw [Nat.mod_eq_of_lt (by omega)]
  omega

theorem ulibMemmove_eq_iff (hn : n < 2 ^ 32) (hd : dst + n ≤ 2 ^ 32) (hs : src + n ≤ 2 ^ 32) :
    ulibMemmove m dst src n = moved m dst src n ↔ Tolerated m dst src n := by
  unfold ulibMemmove Tolerated
  split
  · next h =>
    have hlen : ((n : Int).bmod (2 ^ 32)).toNat = n := by
      rw [Int.bmod_def]
      omega
    rw [hlen]
    exact ascend_eq_iff hd hs
  · next h =>
    have hlen : ((n : Int).bmod (2 ^ 32)).toNat = 0 := by
      rw [Int.bmod_def]
      omega
    rw [hlen]
    exact eq_moved_iff

/-- Both functions move the bytes, however the ranges overlap, if and only if the length is an `int`
and the source repeats itself where the destination starts inside it, or the bytes are there
already. -/
theorem memmoves_iff (m : Memory) (dst src n : Nat) (hn : n < 2 ^ 32) (hd : dst + n ≤ 2 ^ 32)
    (hs : src + n ≤ 2 ^ 32) :
    memmove m dst src n = moved m dst src n ∧ ulibMemmove m dst src n = moved m dst src n ↔
      Tolerated m dst src n := by
  rw [ulibMemmove_eq_iff hn hd hs]
  exact and_iff_right (memmove_eq hd hs)

/-- Three bytes one place down, to where two of them are read from. -/
theorem memmoves_iff_down : memmove UInt8.ofNat 4 5 3 = moved UInt8.ofNat 4 5 3 ∧
      ulibMemmove UInt8.ofNat 4 5 3 = moved UInt8.ofNat 4 5 3 :=
  (memmoves_iff UInt8.ofNat 4 5 3 (by decide) (by decide) (by decide)).2 fun h =>
    absurd h (by decide)

/-- Two bytes one place up: the user's `memmove` stores the first of them twice. -/
theorem ulibMemmove_overlap : moved UInt8.ofNat 5 4 2 6 = 5 ∧ ulibMemmove UInt8.ofNat 5 4 2 6 = 4 ∧
      ulibMemmove UInt8.ofNat 5 4 2 ≠ moved UInt8.ofNat 5 4 2 :=
  ⟨by decide, by decide, fun h => absurd (congrFun h 6) (by decide)⟩

end

end Msboss.Strings
