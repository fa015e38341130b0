import Msboss.Fs.Blocks
import Msboss.Lib.Hoare

/-!
# What blocks hold

Words, inodes and bits that are stored in a block and read back, `balloc`'s search of the free map
as a search over all blocks of the disk, and how `ilock` ends.
-/

namespace Msboss.Fs

open Function List List

/-! ## Words -/

theorem word_zero (i : Nat) : word (fun _ => 0) i = 0 := by
  have : Bytes.read (fun _ => 0) (4 * i) 4 = replicate 4 0 := by simp [Bytes.read]
  rw [word, this, Bytes.leNat_replicate_zero]

theorem word_setWord (bp : Block) (hw : w < 2 ^ 32) (j : Nat) :
    word (setWord bp i w) j = if j = i then w else word bp j := by
  unfold word setWord
  rcases eq_or_ne j i with rfl | hne
  · have hread : Bytes.read (Bytes.write bp (4 * j) (Bytes.leBytes 4 w)) (4 * j) _ = _ :=
      Bytes.read_write_self
    rw [Bytes.length_leBytes] at hread
    rw [if_pos rfl, hread, Bytes.leNat_leBytes, Nat.mod_eq_of_lt hw]
  · rw [if_neg hne, Bytes.read_write_of_disjoint]
    rw [Bytes.length_leBytes]
    omega

/-! ## Inodes -/

/-- The inodes have the same type and the same blocks. -/
structure Inode.Alike (x y : Inode) : Prop where
  type : x.type = y.type
  addrs : ∀ k ≤ NDIRECT, x.addrs k = y.addrs k

theorem Inode.Alike.refl (x : Inode) : x.Alike x := ⟨rfl, fun _ _ => rfl⟩

/-- And the same size. -/
structure Inode.Same (x y : Inode) : Prop extends x.Alike y where
  size : x.size = y.size

theorem Inode.Same.refl (x : Inode) : x.Same x := ⟨.refl x, rfl⟩

theorem Inode.Same.symm {x y : Inode} (h : x.Same y) : y.Same x :=
  ⟨⟨h.type.symm, fun k hk => (h.addrs k hk).symm⟩, h.size.symm⟩

theorem Inode.Same.trans {x y z : Inode} (h : x.Same y) (h' : y.Same z) : x.Same z :=
  ⟨⟨h.type.trans h'.type, fun k hk => (h.addrs k hk).trans (h'.addrs k hk)⟩, h.size.trans h'.size⟩

theorem FileType.ofCode_code (t : FileType) : FileType.ofCode t.code = t := by
  cases t <;> rfl

/-- Pieces of equal length, taken out of their concatenation. -/
theorem take_drop_flatMap {f : Nat → List UInt8} (hf : ∀ i, (f i).length = n)
    (l : List Nat) (k : Nat) : ((l.flatMap f).drop (n * k)).take n = (l[k]?).elim [] f := by
  induction l generalizing k with
  | nil => simp
  | cons i l ih =>
    rw [flatMap_cons]
    cases k with
    | zero => simp [← hf i]
    | succ k =>
      rw [Nat.mul_succ, Nat.add_comm, ← drop_drop, drop_left' (hf i), ih]
      rfl

theorem length_addrs (x : Inode) :
    ((range (NDIRECT + 1)).flatMap fun i => Bytes.leBytes 4 (x.addrs i)).length = 52 := by
  simp [length_flatMap, NDIRECT]

theorem length_bytes (x : Inode) : x.bytes.length = 64 := by
  simp only [Inode.bytes, length_append, Bytes.length_leBytes, length_addrs]

/-- An inode that is written is there. -/
theorem ofBlock_write (bp : Block) (o : Nat) {x : Inode} (hs : x.size < 2 ^ 32)
    (ha : ∀ k ≤ NDIRECT, x.addrs k < 2 ^ 32) :
    (Inode.ofBlock (Bytes.write bp o x.bytes) o).Same x := by
  have hread {j n : Nat} (h : j + n ≤ 64) :
      Bytes.read (Bytes.write bp o x.bytes) (o + j) n = (x.bytes.drop j).take n :=
    Bytes.read_write_part (by rw [length_bytes]; exact h)
  refine ⟨⟨?_, fun k hk => ?_⟩, ?_⟩
  · have h0 := hread (show 0 + 2 ≤ 64 by decide)
    rw [Nat.add_zero] at h0
    have htake : (x.bytes.drop 0).take 2 = Bytes.leBytes 2 x.type.code := by
      simp only [Inode.bytes, drop_zero, append_assoc]
      exact take_left' (Bytes.length_leBytes ..)
    have hcode : x.type.code < 2 ^ (8 * 2) := by cases x.type <;> decide
    simp only [Inode.ofBlock, h0, htake, Bytes.leNat_leBytes, Nat.mod_eq_of_lt hcode,
      FileType.ofCode_code]
  · have hk4 := hread (show 12 + 4 * k + 4 ≤ 64 by simp only [NDIRECT] at hk; omega)
    have htake : (x.bytes.drop (12 + 4 * k)).take 4 = Bytes.leBytes 4 (x.addrs k) := by
      have hget : (range (NDIRECT + 1))[k]? = some k := by
        rw [getElem?_range (Nat.lt_succ_of_le hk)]
      rw [← drop_drop, Inode.bytes, drop_left' (by simp),
        take_drop_flatMap (fun i => Bytes.length_leBytes ..), hget]
      rfl
    simp only [Inode.ofBlock, if_pos hk, Nat.add_assoc o, hk4, htake, Bytes.leNat_leBytes]
    exact Nat.mod_eq_of_lt (ha k hk)
  · have h8 := hread (show 8 + 4 ≤ 64 by decide)
    have htake : (x.bytes.drop 8).take 4 = Bytes.leBytes 4 x.size := by
      rw [Inode.bytes, append_assoc, drop_left' (by simp)]
      exact take_left' (Bytes.length_leBytes ..)
    simp only [Inode.ofBlock, h8, htake, Bytes.leNat_leBytes]
    exact Nat.mod_eq_of_lt hs

/-- And so are its links. -/
theorem nlink_ofBlock_write (bp : Block) (o : Nat) {x : Inode} (h : -2 ^ 15 ≤ x.nlink)
    (h' : x.nlink < 2 ^ 15) : (Inode.ofBlock (Bytes.write bp o x.bytes) o).nlink = x.nlink := by
  have h6 : Bytes.read (Bytes.write bp o x.bytes) (o + 6) 2 = (x.bytes.drop 6).take 2 :=
    Bytes.read_write_part (by rw [length_bytes]; decide)
  have htake : (x.bytes.drop 6).take 2 = Bytes.leBytes 2 (x.nlink % 2 ^ 16).toNat := by
    rw [Inode.bytes, append_assoc, append_assoc, drop_left' (by simp)]
    exact take_left' (Bytes.length_leBytes ..)
  simp only [Inode.ofBlock, h6, htake, Bytes.leNat_leBytes, short]
  split <;> omega

/-- And the other inodes of the block are left. -/
theorem ofBlock_write_other (bp : Block) (x : Inode) (h : o' + 64 ≤ o ∨ o + 64 ≤ o') :
    Inode.ofBlock (Bytes.write bp o x.bytes) o' = Inode.ofBlock bp o' := by
  have hread {j n : Nat} (hj : j + n ≤ 64) :
      Bytes.read (Bytes.write bp o x.bytes) (o' + j) n = Bytes.read bp (o' + j) n :=
    Bytes.read_write_of_disjoint (by rw [length_bytes]; omega)
  have h0 := hread (show 0 + 2 ≤ 64 by decide)
  rw [Nat.add_zero] at h0
  have haddrs (k : Nat) : (if k ≤ NDIRECT then
      Bytes.leNat (Bytes.read (Bytes.write bp o x.bytes) (o' + 12 + 4 * k) 4) else 0) =
      if k ≤ NDIRECT then Bytes.leNat (Bytes.read bp (o' + 12 + 4 * k) 4) else 0 := by
    split
    · next hk => rw [Nat.add_assoc, hread (by simp only [NDIRECT] at hk; omega)]
    · rfl
  simp only [Inode.ofBlock, h0, hread (show 2 + 2 ≤ 64 by decide),
    hread (show 4 + 2 ≤ 64 by decide), hread (show 6 + 2 ≤ 64 by decide),
    hread (show 8 + 4 ≤ 64 by decide), haddrs]

/-! ## The free map -/

/-- The bit of block `b` in the free map is set. -/
def State.taken (s : State) (b : Nat) : Bool := Bytes.bit (s.block (s.sb.BBLOCK b)) (b % BPB)

/-- A search piece by piece. -/
theorem find_chunks (c : Nat) : (range c).findSome? (fun j =>
        ((range (min B (n - j * B))).find? fun i => p (j * B + i)).map (j * B + ·)) =
      (range (min n (c * B))).find? p := by
  induction c with
  | zero => simp
  | succ c ih =>
    rw [range_succ, findSome?_append, ih]
    rcases Nat.le_total n (c * B) with hle | hle
    · have h0 : n - c * B = 0 := by omega
      have h1 : n ≤ (c + 1) * B := hle.trans (Nat.mul_le_mul_right B (Nat.le_succ c))
      simp [h0, Nat.min_eq_left hle, Nat.min_eq_left h1]
    have hsplit : min n ((c + 1) * B) = c * B + min B (n - c * B) := by
      rw [Nat.succ_mul]
      omega
    rw [hsplit, range_add, find?_append, find?_map, Nat.min_eq_right hle]
    simp

/-- `balloc` finds the first block that is not taken. -/
theorem ballocScan_eq (s : State) : s.ballocScan = (range s.sb.size).find? fun b => !s.taken b := by
  have hbit (j bi : Nat) (h : bi < BPB) :
      s.taken (j * BPB + bi) = Bytes.bit (s.block (s.sb.BBLOCK (j * BPB))) bi := by
    have h1 : (j * BPB + bi) / BPB = j * BPB / BPB := by
      simp only [BPB, BSIZE] at *
      omega
    have h2 : (j * BPB + bi) % BPB = bi := by
      simp only [BPB, BSIZE] at *
      omega
    rw [State.taken, Superblock.BBLOCK, Superblock.BBLOCK, h1, h2]
  have hmin : min s.sb.size ((s.sb.size + (BPB - 1)) / BPB * BPB) = s.sb.size := by
    simp only [BPB, BSIZE]
    omega
  have hfind := find_chunks (p := fun b => !s.taken b) (B := BPB) (n := s.sb.size)
    ((s.sb.size + (BPB - 1)) / BPB)
  rw [hmin] at hfind
  rw [← hfind, State.ballocScan]
  refine congrArg (fun f => findSome? f _) (funext fun j => congrArg (Option.map _) ?_)
  refine find?_congr fun bi hbi => ?_
  rw [hbit j bi (by have := mem_range.1 hbi; omega)]

/-! ## Locking an inode -/

theorem leaves_ilock_cases (hQ : s.CanLock ip → Q ⟨⟩ (s.lock ip)) (h0 : s.ref ip < 1 → E .ilock s)
    (hfree : 1 ≤ s.ref ip → ¬ s.CanLock ip → E .noType (s.lock ip)) : Leaves (ilock ip) s Q E := by
  unfold ilock
  rw [leaves_get_bind]
  split
  · next href => exact h0 href
  next href =>
  have href : 1 ≤ s.ref ip := Nat.not_lt.1 href
  have hfree := hfree href
  unfold State.lock at hQ hfree
  split
  · next hv =>
    rw [if_pos hv] at hQ
    exact hQ ⟨href, .inl hv⟩
  next hv =>
  rw [if_neg hv] at hQ hfree
  unfold setInode setValid
  rw [leaves_modify_bind, leaves_modify_bind]
  dsimp only
  split
  · next ht => exact hfree fun h => h.2.elim hv fun h => h ht
  · next ht => exact hQ ⟨href, .inr ht⟩

theorem leaves_ilock (hQ : s.CanLock ip → Q ⟨⟩ (s.lock ip))
    (hE : ¬ s.CanLock ip → E .ilock s ∧ E .noType (s.lock ip)) : Leaves (ilock ip) s Q E :=
  leaves_ilock_cases hQ (fun href => (hE fun h => Nat.not_lt.2 h.1 href).1) fun _ h => (hE h).2

/-! ## What calls leave alone -/

/-- A property that stores to blocks and to the size and the addresses of the cached inode `ip`
leave alone. -/
structure Aloof (ip : Nat) (P : State → Prop) : Prop where
  log_write : ∀ s b data, P s → Stays (log_write b data) s P
  setInode : ∀ s f, (∀ x : Inode, (f x).nlink = x.nlink ∧ (f x).type = x.type) → P s →
    Stays (setInode ip f) s P

namespace Aloof

variable {s : State} {ip bn : Nat} {P : State → Prop}

theorem balloc (hP : Aloof ip P) (h : P s) : Stays balloc s P := by
  unfold Fs.balloc
  rw [stays_get_bind]
  split
  · exact h
  · exact (hP.log_write s _ _ h).bind fun _ t h₁ => (hP.log_write t _ _ h₁).bind fun _ _ h₂ => h₂

theorem indirect (hP : Aloof ip P) (h : P s) : Stays (indirect ip) s P := by
  unfold Fs.indirect
  rw [stays_get_bind]
  dsimp only
  split
  · exact (hP.balloc h).bind fun _ t h₁ =>
      (hP.setInode t _ (fun _ => by exact ⟨rfl, rfl⟩) h₁).bind fun _ _ h₂ => h₂
  · exact h

theorem bmap (hP : Aloof ip P) (h : P s) : Stays (bmap ip bn) s P := by
  unfold Fs.bmap
  split
  · rw [stays_get_bind]
    dsimp only
    split
    · exact (hP.balloc h).bind fun _ t h₁ =>
      (hP.setInode t _ (fun _ => by exact ⟨rfl, rfl⟩) h₁).bind fun _ _ h₂ => h₂
    · exact h
  split
  swap
  · exact h
  refine (hP.indirect h).bind fun ind s1 h₁ => ?_
  rw [stays_get_bind]
  dsimp only
  split
  · refine (hP.balloc h₁).bind fun addr s2 h₂ => ?_
    rw [stays_get_bind]
    exact (hP.log_write s2 _ _ h₂).bind fun _ _ h3 => h3
  · exact h₁

theorem writeLoop (hP : Aloof ip P) (hload : ∀ s src n, P s → Stays (load src n) s P) (h : P s) :
    Stays (writeLoop ip src off n fuel tot) s P := by
  induction fuel generalizing s tot with
  | zero => exact h
  | succ fuel ih =>
    unfold Fs.writeLoop
    split
    swap
    · exact h
    refine (hP.bmap h).bind fun b t ht => (hload t _ _ ht).bind fun data u hu => ?_
    rw [stays_get_bind]
    exact (hP.log_write u _ _ hu).bind fun _ _ hv => ih hv

theorem writei (hP : Aloof ip P) (hload : ∀ s src n, P s → Stays (load src n) s P)
    (h : P s) : Stays (writei ip src off n) s P := by
  unfold Fs.writei
  rw [stays_get_bind]
  dsimp only
  split
  · split
    · exact (hload s _ _ h).bind fun _ _ h₁ => h₁
    · exact h
  split
  · exact h
  split
  · exact h
  refine (hP.writeLoop hload h).bind fun _ t ht => ?_
  split
  · refine (hP.setInode t _ (fun _ => by exact ⟨rfl, rfl⟩) ht).bind fun _ u hu => ?_
    exact Stays.bind (m := iupdate ip) (hP.log_write u _ _ hu) fun _ _ hv => hv
  · exact ht

end Aloof

/-- The cache but for the size and the addresses of `ip`. -/
structure State.Kin (s : State) (ip : Nat) (s' : State) : Prop where
  sb : s'.sb = s.sb
  ref : s'.ref = s.ref
  valid : s'.valid = s.valid
  inode : ∀ j ≠ ip, s'.inode j = s.inode j
  nlink : ∀ j, (s'.inode j).nlink = (s.inode j).nlink
  type : ∀ j, (s'.inode j).type = (s.inode j).type

theorem kin_aloof (s : State) (ip : Nat) : Aloof ip (s.Kin ip) where
  log_write _ _ _ h := ⟨h.sb, h.ref, h.valid, h.inode, h.nlink, h.type⟩
  setInode t f hf h := by
    have hset {j : Nat} : (update t.inode ip (f (t.inode ip)) j).nlink = (t.inode j).nlink ∧
        (update t.inode ip (f (t.inode ip)) j).type = (t.inode j).type := by
      rcases eq_or_ne j ip with rfl | hne
      · rw [update_self]
        exact hf _
      · rw [update_of_ne hne]
        exact ⟨rfl, rfl⟩
    exact ⟨h.sb, h.ref, h.valid, fun j hj => (update_of_ne hj _ _).trans (h.inode j hj),
      fun j => hset.1.trans (h.nlink j), fun j => hset.2.trans (h.type j)⟩

theorem State.Kin.memory {s : State} {mem : Nat → UInt8} {loads stores : List Nat} :
    s.Kin ip { s with mem, loads, stores } :=
  ⟨rfl, rfl, rfl, fun _ _ => rfl, fun _ => rfl, fun _ => rfl⟩

/-- A call of `writei` leaves the rest of the cache alone. -/
theorem kin_writei {s0 s : State} (h : s0.Kin ip s) : Stays (writei ip src off n) s (s0.Kin ip) :=
  (kin_aloof s0 ip).writei (fun _ _ _ h => ⟨h.sb, h.ref, h.valid, h.inode, h.nlink, h.type⟩) h

end Msboss.Fs
