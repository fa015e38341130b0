import Mathlib

/-!
# Ring buffers with wrapping counters

A ring of `N` cells with two 32-bit counters that only ever go up, modulo `2 ^ 32`: the next cell to
fill is `nwrite % N`, the next to read `nread % N`. `Ring.Queue` relates such a buffer to the list
of everything stored so far and the list of everything read so far. It holds however often the
counters have wrapped, as long as `N` divides `2 ^ 32`, and tells what the code can see (is it
empty, is it full, what comes next) in terms of the two lists.
-/

namespace Msboss

open Function

universe u

/-- The cells and the counters. -/
structure Ring (α : Type u) where
  data : Nat → α
  nread : UInt32
  nwrite : UInt32

namespace Ring

variable {α : Type u}

/-- Fills the next cell. -/
def push (b : Ring α) (N : Nat) (x : α) : Ring α where
  data := update b.data (b.nwrite.toNat % N) x
  nread := b.nread
  nwrite := b.nwrite + 1

/-- The next cell to read. -/
def front (b : Ring α) (N : Nat) : α := b.data (b.nread.toNat % N)

/-- Leaves the next cell to read behind. -/
def pop (b : Ring α) : Ring α := { b with nread := b.nread + 1 }

/-- The buffer after `stored` has gone in and `served` has come out. -/
structure Queue (N : Nat) (b : Ring α) (stored served : List α) : Prop where
  nread : b.nread.toNat = served.length % 2 ^ 32
  nwrite : b.nwrite.toNat = stored.length % 2 ^ 32
  order : served <+: stored
  size : stored.length ≤ served.length + N
  data : ∀ {j : Nat} {x : α}, served.length ≤ j → stored[j]? = some x → b.data (j % N) = x

variable {N : Nat} {b : Ring α} {stored served : List α}

theorem Queue.init (hr : b.nread = 0) (hw : b.nwrite = 0) : Queue N b [] [] where
  nread := by rw [hr]; rfl
  nwrite := by rw [hw]; rfl
  order := List.prefix_rfl
  size := Nat.zero_le _
  data _ h := nomatch h

/-- The distance of two counters. -/
theorem toNat_sub_counter {c d : UInt32} {m n : Nat} (hc : c.toNat = m % 2 ^ 32)
    (hd : d.toNat = n % 2 ^ 32) (hle : n ≤ m) (hlt : m < n + 2 ^ 32) : (c - d).toNat = m - n := by
  rw [UInt32.toNat_sub, hc, hd]
  omega

/-- How much is in the buffer. -/
theorem Queue.count (h : Queue N b stored served) (hN : N < 2 ^ 32) :
    (b.nwrite - b.nread).toNat = stored.length - served.length :=
  toNat_sub_counter h.nwrite h.nread h.order.length_le (h.size.trans_lt (Nat.add_lt_add_left hN _))

theorem Queue.empty_iff (h : Queue N b stored served) (hN : N < 2 ^ 32) :
    b.nread = b.nwrite ↔ served = stored := by
  have hle := h.order.length_le
  have hsize := h.size
  rw [← UInt32.toNat_inj, h.nread, h.nwrite]
  refine ⟨fun heq => h.order.eq_of_length (by omega), fun heq => by rw [heq]⟩

theorem Queue.full_iff (h : Queue N b stored served) (hN : N < 2 ^ 32) :
    b.nwrite = b.nread + UInt32.ofNat N ↔ stored.length = served.length + N := by
  have hle := h.order.length_le
  have hsize := h.size
  rw [← UInt32.toNat_inj, UInt32.toNat_add, UInt32.toNat_ofNat', h.nread, h.nwrite]
  omega

/-- The counter modulo the size of the ring. -/
theorem mod_mod_of_counter {c : UInt32} {n : Nat} (hdvd : N ∣ 2 ^ 32) (hc : c.toNat = n % 2 ^ 32) :
    c.toNat % N = n % N := by
  rw [hc, Nat.mod_mod_of_dvd _ hdvd]

theorem toNat_succ {c : UInt32} {n : Nat} (hc : c.toNat = n % 2 ^ 32) :
    (c + 1).toNat = (n + 1) % 2 ^ 32 := by
  rw [UInt32.toNat_add, hc, UInt32.toNat_one]
  omega

theorem Queue.push (h : Queue N b stored served) (hdvd : N ∣ 2 ^ 32)
    (hroom : stored.length < served.length + N) (x : α) :
    Queue N (b.push N x) (stored ++ [x]) served where
  nread := h.nread
  nwrite := by
    rw [List.length_append]
    exact toNat_succ h.nwrite
  order := h.order.trans (List.prefix_append ..)
  size := by
    rw [List.length_append]
    exact hroom
  data {j y} hj hy := by
    have hcell : (b.push N x).data = update b.data (stored.length % N) x := by
      rw [← mod_mod_of_counter hdvd h.nwrite]
      rfl
    rw [hcell]
    rcases Nat.lt_or_ge j stored.length with hlt | hge
    · rw [List.getElem?_append_left hlt] at hy
      -- the cells of the bytes in the buffer are different from the new one
      have hne : j % N ≠ stored.length % N := fun heq => by
        have hd := (Nat.modEq_iff_dvd' hlt.le).1 heq
        exact absurd (Nat.le_of_dvd (by omega) hd) (by omega)
      rw [update_of_ne hne]
      exact h.data hj hy
    · obtain rfl : j = stored.length := by
        have := (List.getElem?_eq_some_iff.1 hy).1
        rw [List.length_append, List.length_singleton] at this
        omega
      rw [List.getElem?_concat_length] at hy
      cases hy
      exact update_self ..

theorem Queue.pop (h : Queue N b stored served) (hdvd : N ∣ 2 ^ 32) (hne : served ≠ stored) :
    Queue N b.pop stored (served ++ [b.front N]) := by
  obtain ⟨rest, rfl⟩ := h.order
  cases rest with
  | nil => exact absurd (List.append_nil served).symm hne
  | cons x rest =>
    have hfront : b.front N = x := by
      rw [front, mod_mod_of_counter hdvd h.nread]
      exact h.data le_rfl (by rw [List.getElem?_append_right le_rfl, Nat.sub_self]; rfl)
    rw [hfront]
    refine ⟨?_, h.nwrite, ⟨rest, by rw [List.append_assoc]; rfl⟩, ?_, fun {j y} hj hy => ?_⟩
    · rw [List.length_append]
      exact toNat_succ h.nread
    · have := h.size
      simp only [List.length_append, List.length_cons, List.length_nil] at this ⊢
      omega
    · rw [List.length_append, List.length_singleton] at hj
      exact h.data (by omega) hy

end Ring

end Msboss
