import Msboss.Fs.Layout
import Msboss.Lib.Owners
import Msboss.Lib.Hoare
import Msboss.Lib.System

/-!
# Who owns a block

A block of the data zone is part of one file at most, as a direct block, an indirect block or a
block listed in one, and the free map has the blocks that are part of a file (`Owned`).

In the middle of a call the disk is behind: `writei` records a new block in the cached inode first.
So the invariant is stated for whatever stands for the inodes on the disk (`State.Holds`); in
`readi` and `writei` it is the cached inode in the place of the one on the disk (`Writing`), and
`bmap` keeps that (`leaves_bmap`).
-/

namespace Msboss.Fs

open Function State Finset

instance : NeZero NINDIRECT := ⟨by decide⟩

/-! ## Places -/

/-- Where a block number can stand. -/
inductive Place
  | direct (i : Nat) (k : Fin NDIRECT)
  | indirect (i : Nat)
  | entry (i : Nat) (j : Fin NINDIRECT)
  deriving DecidableEq

/-- The inode of a place. -/
def Place.inum : Place → Nat
  | .direct i _ | .indirect i | .entry i _ => i

/-- The first data block; all before are metadata. -/
def Superblock.datastart (sb : Superblock) : Nat := sb.size - sb.nblocks

/-- The order of the disk: the super block, inodes, the free map, data. -/
structure Superblock.Layout (sb : Superblock) : Prop where
  super : 1 < sb.inodestart
  order : sb.inodestart ≤ sb.bmapstart
  zone : sb.bmapstart < sb.datastart
  inodes : ∀ i < sb.ninodes, sb.IBLOCK i < sb.bmapstart
  bitmap : ∀ b < sb.size, sb.BBLOCK b < sb.datastart
  word : sb.size < 2 ^ 32

namespace State

/-- The inode is in use. -/
def Live (s : State) (ino : Nat → Inode) (i : Nat) : Prop := i < s.sb.ninodes ∧ (ino i).type ≠ .free

instance (s : State) (ino : Nat → Inode) (i : Nat) : Decidable (s.Live ino i) :=
  inferInstanceAs (Decidable (_ ∧ _))

/-- The block number at a place, with the given inodes; 0 is none. -/
def own (s : State) (ino : Nat → Inode) : Place → Nat
  | .direct i k => if s.Live ino i then (ino i).addrs k else 0
  | .indirect i => if s.Live ino i then (ino i).addrs NDIRECT else 0
  | .entry i j =>
    if s.Live ino i ∧ (ino i).addrs NDIRECT ≠ 0 then word (s.block ((ino i).addrs NDIRECT)) j else 0

end State

/-- The place of block `k` of the file `i`. -/
def filePlace (i k : Nat) : Place :=
  if h : k < NDIRECT then .direct i ⟨k, h⟩ else .entry i (Fin.ofNat NINDIRECT (k - NDIRECT))

/-- The blocks for so many bytes. -/
def blocksFor (n : Nat) : Nat := (n + (BSIZE - 1)) / BSIZE

/-- With the given inodes, no block is at two places, the bits of the free map are those of the
metadata and of the blocks at a place, and the file `i` has the blocks below `K i`. -/
structure State.Holds (s : State) (ino : Nat → Inode) (K : Nat → Nat) : Prop where
  owners : Owners (s.own ino) (fun b => s.taken b = true) s.sb.datastart s.sb.size
  shape : ∀ i, s.Live ino i → ∀ k < MAXFILE, s.own ino (filePlace i k) ≠ 0 ↔ k < K i
  fits : ∀ i, s.Live ino i → K i ≤ MAXFILE

/-- The file system on the disk: every block is at one place at most, the free map is right, and
every inode has the blocks for its size. -/
def State.Owned (s : State) : Prop := s.Holds s.dinode fun i => blocksFor (s.dinode i).size

/-- A cached inode is as on the disk. -/
def State.Cached (s : State) (i : Nat) : Prop :=
  i < s.sb.ninodes → 0 < s.ref i → s.valid i = true →
    (s.inode i).Same (s.dinode i) ∧ (s.inode i).type ≠ .free

/-- Between two calls. -/
structure State.Sound (s : State) : Prop where
  super : s.sb = .ofBlock (s.block 1)
  layout : s.sb.Layout
  owned : s.Owned
  cached : ∀ i, s.Cached i

/-! ## What changes of the state leave alone -/

theorem filePlace_inum (i k : Nat) : (filePlace i k).inum = i := by
  unfold filePlace
  split <;> rfl

theorem filePlace_inj (hk : k < MAXFILE) (hl : l < MAXFILE)
    (h : filePlace i k = filePlace j l) : i = j ∧ k = l := by
  unfold filePlace at h
  have hmod {n : Nat} (hn : n < MAXFILE) (h : ¬ n < NDIRECT) : (n - NDIRECT) % NINDIRECT =
    n - NDIRECT := by
    refine Nat.mod_eq_of_lt ?_
    simp only [MAXFILE] at hn
    omega
  split at h
  · split at h
    · cases h
      exact ⟨rfl, rfl⟩
    · cases h
  next hk' =>
  split at h
  · cases h
  next hl' =>
  obtain ⟨rfl, hkl⟩ := Place.entry.inj h
  have := Fin.ext_iff.1 hkl
  rw [Fin.val_ofNat, Fin.val_ofNat, hmod hk hk', hmod hl hl'] at this
  exact ⟨rfl, by omega⟩

section
variable {s s' : State} {ino ino' : Nat → Inode} {K K' : Nat → Nat} {i b c : Nat} {x : Place}

theorem Superblock.Layout.inodes_ge (sb : Superblock) (i : Nat) : sb.inodestart ≤ sb.IBLOCK i :=
  Nat.le_add_left ..

theorem Superblock.Layout.bitmap_ge (sb : Superblock) (b : Nat) : sb.bmapstart ≤ sb.BBLOCK b :=
  Nat.le_add_left ..

theorem live_congr (hsb : s'.sb = s.sb) (h : i < s.sb.ninodes → (ino' i).Alike (ino i)) :
    s'.Live ino' i ↔ s.Live ino i := by
  unfold State.Live
  rw [hsb]
  exact and_congr_right fun hi => by rw [(h hi).type]

theorem own_direct (h : s.Live ino i) (k : Fin NDIRECT) :
    s.own ino (.direct i k) = (ino i).addrs k := if_pos h

theorem own_indirect (h : s.Live ino i) : s.own ino (.indirect i) =
    (ino i).addrs NDIRECT := if_pos h

theorem own_entry (h : s.Live ino i) (j : Fin NINDIRECT) : s.own ino (.entry i j) =
    if (ino i).addrs NDIRECT = 0 then 0 else word (s.block ((ino i).addrs NDIRECT)) j := by
  simp only [own, h, true_and, ne_eq, ite_not]

theorem own_of_not_live (h : ¬ s.Live ino x.inum) : s.own ino x = 0 := by
  cases x with
  | direct i k => exact if_neg h
  | indirect i => exact if_neg h
  | entry i j => exact if_neg fun h' => h h'.1

/-- What is at a place depends on its inode and on the indirect block of this inode. -/
theorem own_eq (hi : x.inum = i) (hsb : s'.sb = s.sb)
    (hsame : i < s.sb.ninodes → (ino' i).Alike (ino i)) (hblock : s.own ino (.indirect i) ≠ 0 →
      s'.block (s.own ino (.indirect i)) = s.block (s.own ino (.indirect i))) :
    s'.own ino' x = s.own ino x := by
  have hlive := live_congr hsb hsame
  by_cases hl : s.Live ino i
  swap
  · rw [own_of_not_live (by rw [hi]; exact mt hlive.1 hl), own_of_not_live (by rw [hi]; exact hl)]
  have haddrs := (hsame hl.1).addrs
  have hl' := hlive.2 hl
  rw [own_indirect hl] at hblock
  cases x with
  | direct j k =>
    obtain rfl : j = i := hi
    rw [own_direct hl, own_direct hl']
    exact haddrs k k.isLt.le
  | indirect j =>
    obtain rfl : j = i := hi
    rw [own_indirect hl, own_indirect hl']
    exact haddrs NDIRECT le_rfl
  | entry j k =>
    obtain rfl : j = i := hi
    rw [own_entry hl, own_entry hl', haddrs NDIRECT le_rfl]
    split
    · rfl
    · next h0 => rw [hblock h0]

theorem own_congr (h : ∀ i < s.sb.ninodes, (ino' i).Alike (ino i)) : s.own ino' = s.own ino :=
  funext fun x => own_eq rfl rfl (h x.inum) fun _ => rfl

/-- What `Holds` depends on; an inode that comes into use has no blocks. -/
theorem State.Holds.of_own (h : s.Holds ino K) (hsb : s'.sb = s.sb) (hown : s'.own ino' = s.own ino)
    (ht : ∀ b < s.sb.size, s'.taken b = s.taken b)
    (hlive : ∀ i, s'.Live ino' i → s.Live ino i ∧ K' i = K i ∨
      (∀ k, s.own ino (filePlace i k) = 0) ∧ K' i = 0) : s'.Holds ino' K' where
  owners := by
    rw [hsb, hown]
    exact h.owners.congr fun b hb => by rw [ht b hb]
  shape i hi k hk := by
    rw [hown]
    rcases hlive i hi with ⟨hi, hK⟩ | ⟨h0, hK⟩
    · rw [hK]
      exact h.shape i hi k hk
    · rw [hK]
      exact iff_of_false (not_not.2 (h0 k)) (Nat.not_lt_zero k)
  fits i hi := by
    rcases hlive i hi with ⟨hi, hK⟩ | ⟨-, hK⟩
    · rw [hK]
      exact h.fits i hi
    · rw [hK]
      exact Nat.zero_le _

theorem State.Holds.congr (h : s.Holds ino K) (hsb : s'.sb = s.sb)
    (hlive : ∀ i, s'.Live ino' i → s.Live ino i) (hown : s'.own ino' = s.own ino)
    (ht : ∀ b < s.sb.size, s'.taken b = s.taken b) (hK : ∀ i, s.Live ino i → K' i = K i) :
    s'.Holds ino' K' :=
  h.of_own hsb hown ht fun i hi => .inl ⟨hlive i hi, hK i (hlive i hi)⟩

/-- Block `b` holds something else. -/
def State.setBlock (s : State) (b : Nat) (data : Block) : State :=
  { s with block := update s.block b data, ops := s.ops.modifyHead (b :: ·) }

theorem log_write_eq (b : Nat) (data : Block) : log_write b data = modify fun s =>
    s.setBlock b data :=
  rfl

theorem setBlock_of_ne (s : State) (data : Block) (h : c ≠ b) :
    (s.setBlock b data).block c = s.block c := update_of_ne h _ _

theorem setBlock_self (s : State) (b : Nat) (data : Block) : (s.setBlock b data).block b = data :=
  update_self ..

/-- The inodes stand before the free map. -/
theorem dinode_of_meta (hL : s.sb.Layout) (hsb : s'.sb = s.sb)
    (hmeta : ∀ c < s.sb.bmapstart, s'.block c = s.block c) (hi : i < s.sb.ninodes) :
    s'.dinode i = s.dinode i := by
  unfold dinode
  rw [hsb, hmeta _ (hL.inodes i hi)]

theorem dinode_setBlock (s : State) (data : Block) (h : b ≠ s.sb.IBLOCK i) :
    (s.setBlock b data).dinode i = s.dinode i :=
  congrArg (Inode.ofBlock · _) (setBlock_of_ne s data h.symm)

theorem taken_setBlock (s : State) (data : Block) (h : b ≠ s.sb.BBLOCK c) :
    (s.setBlock b data).taken c = s.taken c :=
  congrArg (Bytes.bit · _) (setBlock_of_ne s data h.symm)

/-- The contents of a file's block are no matter. -/
theorem State.Holds.setData (h : s.Holds ino K) (hL : s.sb.Layout) (data : Block)
    (hx : s.own ino x ≠ 0) (hne : ∀ i, x ≠ .indirect i) :
    (s.setBlock (s.own ino x) data).Holds ino K := by
  have hzone := h.owners.zone hx
  refine h.congr rfl (fun _ => id) (funext fun y => own_eq rfl rfl (fun _ => .refl _) fun h0 => ?_)
    (fun b hb => taken_setBlock s data ?_) fun _ _ => rfl
  · refine setBlock_of_ne s data fun heq => hne y.inum ?_
    exact (h.owners.single h0 heq).symm
  · have := hL.bitmap b hb
    omega

end

/-! ## Allocating a block -/

/-- The blocks that are free. -/
def State.freeBlocks (s : State) : Finset Nat := {b ∈ range s.sb.size | s.taken b = false}

/-- The state after `balloc` has returned `b`. -/
def State.allocated (s : State) (b : Nat) : State :=
  (s.setBlock (s.sb.BBLOCK b)
    (Bytes.setBit (s.block (s.sb.BBLOCK b)) (b % BPB))).setBlock b fun _ => 0

section
variable {s : State} {ino ino' : Nat → Inode} {K K' : Nat → Nat} {i b c : Nat} {x : Place}

theorem leaves_balloc_cases (hQ : ∀ b < s.sb.size, s.taken b = false → Q b (s.allocated b))
    (hE : s.freeBlocks = ∅ → E .balloc s) : Leaves balloc s Q E := by
  unfold balloc
  rw [leaves_get_bind, ballocScan_eq]
  split
  · next hnone =>
    refine hE (filter_eq_empty_iff.2 fun b hb => ?_)
    have htaken := List.find?_eq_none.1 hnone b (List.mem_range.2 (mem_range.1 hb))
    simpa using htaken
  · next b hb =>
    have hfree := List.find?_some hb
    have hlt := List.mem_range.1 (List.mem_of_find?_eq_some hb)
    exact hQ b hlt (by simpa using hfree)

theorem allocated_block (hne : c ≠ b) (hne' : c ≠ s.sb.BBLOCK b) :
    (s.allocated b).block c = s.block c := by
  rw [allocated, setBlock_of_ne _ _ hne, setBlock_of_ne _ _ hne']

theorem allocated_self (s : State) (b : Nat) : (s.allocated b).block b = fun _ => 0 :=
  update_self ..

/-- A free block is a data block. -/
theorem State.Holds.free_ge (h : s.Holds ino K) (hb : b < s.sb.size) (hfree : s.taken b = false) :
    s.sb.datastart ≤ b :=
  h.owners.le_of_free hb (by simp [hfree])

theorem allocated_meta (hL : s.sb.Layout) (hge : s.sb.datastart ≤ b)
    (hc : c < s.sb.bmapstart) : (s.allocated b).block c = s.block c := by
  have h1 := hL.zone
  have h2 := Superblock.Layout.bitmap_ge s.sb b
  exact allocated_block (by omega) (by omega)

theorem allocated_dinode (hL : s.sb.Layout) (hge : s.sb.datastart ≤ b)
    (hi : i < s.sb.ninodes) : (s.allocated b).dinode i = s.dinode i :=
  dinode_of_meta hL rfl (fun _ => allocated_meta hL hge) hi

/-- `balloc` sets one bit, as long as it does not zero the free map. -/
theorem taken_allocated (hdata : s.sb.BBLOCK c ≠ b) :
    (s.allocated b).taken c = (decide (c = b) || s.taken c) := by
  have hself : (s.allocated b).taken c = Bytes.bit ((s.setBlock (s.sb.BBLOCK b)
      (Bytes.setBit (s.block (s.sb.BBLOCK b)) (b % BPB))).block (s.sb.BBLOCK c)) (c % BPB) :=
    congrArg (Bytes.bit · _) (setBlock_of_ne _ _ hdata)
  rw [hself]
  rcases eq_or_ne (s.sb.BBLOCK c) (s.sb.BBLOCK b) with heq | hne
  · have hmod : c % BPB = b % BPB ↔ c = b := by
      simp only [Superblock.BBLOCK, BPB, BSIZE] at *
      omega
    rw [heq, setBlock_self, Bytes.bit_setBit, decide_eq_decide.2 hmod, ← heq]
    rfl
  · have hcb : c ≠ b := fun h => hne (by rw [h])
    rw [setBlock_of_ne _ _ hne, decide_eq_false hcb, Bool.false_or]
    rfl

theorem allocated_taken (hL : s.sb.Layout) (hge : s.sb.datastart ≤ b)
    (hc : c < s.sb.size) : (s.allocated b).taken c = (decide (c = b) || s.taken c) := by
  have := hL.bitmap c hc
  exact taken_allocated (by omega)

/-- `balloc` takes one of the free blocks. -/
theorem card_freeBlocks_allocated (hL : s.sb.Layout) (hge : s.sb.datastart ≤ b) (hb : b < s.sb.size)
    (hfree : s.taken b = false) : (s.allocated b).freeBlocks.card + 1 = s.freeBlocks.card := by
  have herase : (s.allocated b).freeBlocks = s.freeBlocks.erase b := by
    ext c
    simp only [freeBlocks, mem_filter, mem_erase, mem_range]
    constructor
    · rintro ⟨hc, ht⟩
      have hc : c < s.sb.size := hc
      rw [allocated_taken hL hge hc, Bool.or_eq_false_iff, decide_eq_false_iff_not] at ht
      exact ⟨ht.1, hc, ht.2⟩
    · rintro ⟨hne, hc, ht⟩
      refine ⟨hc, ?_⟩
      rw [allocated_taken hL hge hc, ht, decide_eq_false hne]
      rfl
  have hmem : b ∈ s.freeBlocks := mem_filter.2 ⟨mem_range.2 hb, hfree⟩
  rw [herase, card_erase_add_one hmem]

/-- `balloc` changes nothing that the places depend on. -/
theorem allocated_own (h : s.Holds ino K) (hL : s.sb.Layout) (hb : b < s.sb.size)
    (hfree : s.taken b = false) : (s.allocated b).own ino = s.own ino := by
  have hge := h.free_ge hb hfree
  refine funext fun y => own_eq rfl rfl (fun _ => .refl _) fun h0 => ?_
  have hzone := h.owners.zone h0
  have hmap := hL.bitmap b hb
  exact allocated_block (h.owners.own_ne hb (by simp [hfree]) _) (by omega)

/-- The place `x` is given the block that `balloc` has returned. -/
theorem State.Holds.give {s' : State} (h : s.Holds ino K) (hL : s.sb.Layout) (hb : b < s.sb.size)
    (hfree : s.taken b = false) (hsb : s'.sb = s.sb) (hlive : ∀ i, s'.Live ino' i ↔ s.Live ino i)
    (hown : s'.own ino' = update (s.own ino) x b) (hx : s.own ino x = 0)
    (ht : ∀ c < s.sb.size, s'.taken c = (s.allocated b).taken c)
    (hshape : ∀ i, s.Live ino i → ∀ k < MAXFILE,
      update (s.own ino) x b (filePlace i k) ≠ 0 ↔ k < K' i)
    (hfits : ∀ i, s.Live ino i → K' i ≤ MAXFILE) : s'.Holds ino' K' where
  owners := by
    rw [hsb, hown]
    refine h.owners.give hx hb (by simp [hfree]) fun c hc => ?_
    rw [ht c hc, allocated_taken hL (h.free_ge hb hfree) hc, Bool.or_eq_true, decide_eq_true_eq,
      or_comm]
  shape i hi k hk := by
    rw [hown]
    exact hshape i ((hlive i).1 hi) k hk
  fits i hi := hfits i ((hlive i).1 hi)

/-- A direct block is recorded. -/
theorem own_setDirect (hl : s.Live ino i) (k : Fin NDIRECT) (b : Nat) :
    s.own (update ino i { ino i with addrs := update (ino i).addrs k b }) =
      update (s.own ino) (.direct i k) b := by
  generalize hino : update ino i _ = ino'
  have hself : ino' i = { ino i with addrs := update (ino i).addrs k b } := by
    rw [← hino, update_self]
  have hl' : s.Live ino' i := ⟨hl.1, by rw [hself]; exact hl.2⟩
  have hind : (ino' i).addrs NDIRECT = (ino i).addrs NDIRECT := by
    rw [hself]
    exact update_of_ne k.isLt.ne' _ _
  funext y
  by_cases hy : y.inum = i
  swap
  · have hne : y ≠ .direct i k := fun h => hy (by rw [h]; rfl)
    rw [update_of_ne hne]
    refine own_eq rfl rfl (fun _ => ?_) fun _ => rfl
    rw [← hino, update_of_ne hy]
    exact .refl _
  cases y with
  | direct j l =>
    obtain rfl : j = i := hy
    rw [own_direct hl', hself]
    rcases eq_or_ne l k with rfl | hlk
    · rw [update_self]
      exact update_self ..
    · have hne : Place.direct j l ≠ .direct j k := fun h => hlk (Place.direct.inj h).2
      rw [update_of_ne hne, own_direct hl]
      exact update_of_ne (fun h => hlk (Fin.ext h)) _ _
  | indirect j =>
    obtain rfl : j = i := hy
    have hne : Place.indirect j ≠ .direct j k := nofun
    rw [own_indirect hl', update_of_ne hne, own_indirect hl, hind]
  | entry j l =>
    obtain rfl : j = i := hy
    have hne : Place.entry j l ≠ .direct j k := nofun
    rw [own_entry hl', update_of_ne hne, own_entry hl, hind]

/-- An indirect block is recorded, with no entries. -/
theorem own_setIndirect (hl : s.Live ino i) (h0 : (ino i).addrs NDIRECT = 0)
    (hzero : ∀ j, word (s.block b) j = 0) :
    s.own (update ino i { ino i with addrs := update (ino i).addrs NDIRECT b }) =
      update (s.own ino) (.indirect i) b := by
  generalize hino : update ino i _ = ino'
  have hself : ino' i = { ino i with addrs := update (ino i).addrs NDIRECT b } := by
    rw [← hino, update_self]
  have hl' : s.Live ino' i := ⟨hl.1, by rw [hself]; exact hl.2⟩
  have hind : (ino' i).addrs NDIRECT = b := by
    rw [hself]
    exact update_self NDIRECT b (ino i).addrs
  funext y
  by_cases hy : y.inum = i
  swap
  · have hne : y ≠ .indirect i := fun h => hy (by rw [h]; rfl)
    rw [update_of_ne hne]
    refine own_eq rfl rfl (fun _ => ?_) fun _ => rfl
    rw [← hino, update_of_ne hy]
    exact .refl _
  cases y with
  | direct j l =>
    obtain rfl : j = i := hy
    have hne : Place.direct j l ≠ .indirect j := nofun
    rw [own_direct hl', update_of_ne hne, own_direct hl, hself]
    exact update_of_ne l.isLt.ne _ _
  | indirect j =>
    obtain rfl : j = i := hy
    rw [own_indirect hl', update_self, hind]
  | entry j l =>
    obtain rfl : j = i := hy
    have hne : Place.entry j l ≠ .indirect j := nofun
    rw [own_entry hl', update_of_ne hne, own_entry hl, hind, h0, if_pos rfl, hzero, ite_self]

/-- An entry of an indirect block is recorded. -/
theorem own_setEntry (hl : s.Live ino i) (h0 : (ino i).addrs NDIRECT ≠ 0)
    (hsingle : ∀ y, s.own ino y = (ino i).addrs NDIRECT → y = .indirect i)
    (j : Fin NINDIRECT) (hb : b < 2 ^ 32) :
    (s.setBlock ((ino i).addrs NDIRECT) (setWord (s.block ((ino i).addrs NDIRECT)) j b)).own ino =
      update (s.own ino) (.entry i j) b := by
  generalize hs' : s.setBlock _ _ = s'
  have hsb : s'.sb = s.sb := by rw [← hs']; rfl
  have hl' : s'.Live ino i := by rw [← hs']; exact hl
  have hself : s'.block ((ino i).addrs NDIRECT) =
      setWord (s.block ((ino i).addrs NDIRECT)) j b := by
    rw [← hs']
    exact setBlock_self ..
  funext y
  by_cases hy : y.inum = i
  swap
  · have hne : y ≠ .entry i j := fun h => hy (by rw [h]; rfl)
    rw [update_of_ne hne]
    refine own_eq rfl hsb (fun _ => .refl _) fun hy0 => ?_
    rw [← hs']
    refine setBlock_of_ne _ _ fun heq => hy ?_
    exact Place.indirect.inj (hsingle _ heq)
  cases y with
  | direct k l =>
    obtain rfl : k = i := hy
    have hne : Place.direct k l ≠ .entry k j := nofun
    rw [own_direct hl', update_of_ne hne, own_direct hl]
  | indirect k =>
    obtain rfl : k = i := hy
    have hne : Place.indirect k ≠ .entry k j := nofun
    rw [own_indirect hl', update_of_ne hne, own_indirect hl]
  | entry k l =>
    obtain rfl : k = i := hy
    rw [own_entry hl', if_neg h0, hself, word_setWord _ hb]
    rcases eq_or_ne l j with rfl | hlj
    · rw [if_pos rfl, update_self]
    · have hne : Place.entry k l ≠ .entry k j := fun h => hlj (Place.entry.inj h).2
      rw [if_neg (fun h => hlj (Fin.ext h)), update_of_ne hne, own_entry hl, if_neg h0]

end

/-! ## `bmap` -/

/-- The inodes with the cached one in the place of `ip`. -/
def State.view (s : State) (ip : Nat) : Nat → Inode := update s.dinode ip (s.inode ip)

/-- In the middle of `readi` or `writei` on `ip`, a file of size `z`, when it has `K` blocks. -/
structure State.Writing (s : State) (ip K z : Nat) : Prop where
  super : s.sb = .ofBlock (s.block 1)
  layout : s.sb.Layout
  holds : s.Holds (s.view ip) (update (fun i => blocksFor (s.dinode i).size) ip K)
  live : s.Live (s.view ip) ip
  cached : ∀ i ≠ ip, s.Cached i
  size : (s.inode ip).size = z
  disk : (s.dinode ip).size = z
  grown : blocksFor z ≤ K

/-- Panics that are no fault of the free map. -/
def Harmless (e : Panic) (_ : State) : Prop := e ≠ .bfree

section
variable {s : State} {ip K z bn b : Nat}

theorem view_self (s : State) (ip : Nat) : s.view ip ip = s.inode ip := update_self ..

theorem view_of_ne (h : i ≠ ip) : s.view ip i = s.dinode i := update_of_ne h _ _

/-- The number of blocks that a file has. -/
theorem State.Writing.shape (h : s.Writing ip K z) (hbn : bn < MAXFILE) :
    s.own (s.view ip) (filePlace ip bn) ≠ 0 ↔ bn < K := by
  have := h.holds.shape ip h.live bn hbn
  rwa [update_self] at this

theorem State.Writing.le (h : s.Writing ip K z) : K ≤ MAXFILE := by
  have := h.holds.fits ip h.live
  rwa [update_self] at this

/-- What `Writing` depends on. -/
theorem State.Writing.frame {s' : State} (h : s.Writing ip K z) (hsb : s'.sb = s.sb)
    (hmeta : ∀ c < s.sb.bmapstart, s'.block c = s.block c)
    (hinode : ∀ i ≠ ip, s'.inode i = s.inode i) (href : s'.ref = s.ref)
    (hvalid : s'.valid = s.valid)
    (htype : (s'.inode ip).type = (s.inode ip).type) (hsize : (s'.inode ip).size = z) (hle : K ≤ K')
    (hholds : (∀ i, s'.Live (s'.view ip) i ↔ s.Live (s.view ip) i) →
      s'.Holds (s'.view ip) (update (fun i => blocksFor (s.dinode i).size) ip K')) :
    s'.Writing ip K' z := by
  have hL := h.layout
  have hdinode {i : Nat} (hi : i < s.sb.ninodes) : s'.dinode i = s.dinode i :=
    dinode_of_meta hL hsb hmeta hi
  have hlive (i : Nat) : s'.Live (s'.view ip) i ↔ s.Live (s.view ip) i := by
    unfold State.Live
    rw [hsb]
    refine and_congr_right fun hi => ?_
    rcases eq_or_ne i ip with rfl | hne
    · rw [view_self, view_self, htype]
    · rw [view_of_ne hne, view_of_ne hne, hdinode hi]
  have hone : 1 < s.sb.bmapstart := by
    have h1 := hL.super
    have h2 := hL.order
    omega
  refine ⟨?_, ?_, ?_, (hlive ip).2 h.live, fun i hi hlt hr hv => ?_, hsize, ?_, h.grown.trans hle⟩
  · rw [hsb, hmeta 1 hone]
    exact h.super
  · rw [hsb]
    exact hL
  · refine (hholds hlive).congr rfl (fun _ => id) rfl (fun _ _ => rfl) fun i hi => ?_
    rcases eq_or_ne i ip with rfl | hne
    · rw [update_self, update_self]
    · rw [update_of_ne hne, update_of_ne hne, hdinode ((hlive i).1 hi).1]
  · rw [hsb] at hlt
    rw [href] at hr
    rw [hvalid] at hv
    rw [hinode i hi, hdinode hlt]
    exact h.cached i hi hlt hr hv
  · rw [hdinode h.live.1]
    exact h.disk

/-- The state after `balloc` has returned `b` and the cached inode has been changed. -/
theorem State.Writing.give {s' : State} (h : s.Writing ip K z)
    (hb : b < s.sb.size) (hfree : s.taken b = false) (hx : s.own (s.view ip) x = 0)
    (hsb : s'.sb = s.sb) (hmeta : ∀ c < s.sb.bmapstart, s'.block c = s.block c)
    (ht : ∀ c < s.sb.size, s'.taken c = (s.allocated b).taken c)
    (hown : s'.own (s'.view ip) = update (s.own (s.view ip)) x b)
    (hinode : ∀ i ≠ ip, s'.inode i = s.inode i) (href : s'.ref = s.ref)
    (hvalid : s'.valid = s.valid)
    (htype : (s'.inode ip).type = (s.inode ip).type) (hsize : (s'.inode ip).size = z)
    (hle : K ≤ K') (hmax : K' ≤ MAXFILE)
    (hshape : ∀ k < MAXFILE, update (s.own (s.view ip)) x b (filePlace ip k) ≠ 0 ↔ k < K')
    (hx' : x.inum = ip) : s'.Writing ip K' z := by
  refine h.frame hsb hmeta hinode href hvalid htype hsize hle fun hlive => ?_
  refine h.holds.give h.layout hb hfree hsb hlive hown hx ht (fun i hi k hk => ?_) fun i hi => ?_
  · rcases eq_or_ne i ip with rfl | hne
    · rw [update_self]
      exact hshape k hk
    have hp : filePlace i k ≠ x := fun heq => hne (by rw [← filePlace_inum i k, heq, hx'])
    have := h.holds.shape i hi k hk
    rw [update_of_ne hne] at this ⊢
    rw [update_of_ne hp]
    exact this
  · rcases eq_or_ne i ip with rfl | hne
    · rw [update_self]
      exact hmax
    · have := h.holds.fits i hi
      rw [update_of_ne hne] at this ⊢
      exact this

/-- The blocks that files have are theirs still, and hold what they held. -/
def State.Keeps (s : State) (ip : Nat) (s' : State) : Prop :=
  ∀ x, (∀ i, x ≠ .indirect i) → s.own (s.view ip) x ≠ 0 →
    s'.own (s'.view ip) x = s.own (s.view ip) x ∧
      s'.block (s.own (s.view ip) x) = s.block (s.own (s.view ip) x)

theorem State.Keeps.refl (s : State) (ip : Nat) : s.Keeps ip s := fun _ _ _ => ⟨rfl, rfl⟩

theorem State.Keeps.trans (h : s.Keeps ip s') (h' : s'.Keeps ip t) : s.Keeps ip t := by
  intro x hx h0
  obtain ⟨hown, hblock⟩ := h x hx h0
  obtain ⟨hown', hblock'⟩ := h' x hx (by rwa [hown])
  rw [hown] at hown' hblock'
  exact ⟨hown', hblock'.trans hblock⟩

/-- The inodes on the disk are as they were. -/
structure State.SameFront (s s' : State) : Prop where
  sb : s'.sb = s.sb
  block : ∀ c < s.sb.bmapstart, s'.block c = s.block c

theorem State.SameFront.refl (s : State) : s.SameFront s := ⟨rfl, fun _ _ => rfl⟩

theorem State.SameFront.trans (h : s.SameFront s') (h' : s'.SameFront t) : s.SameFront t :=
  ⟨h'.sb.trans h.sb, fun c hc => (h'.block c (by rwa [h.sb])).trans (h.block c hc)⟩

/-- A place without a block is given one that was free. -/
theorem State.Writing.keeps (h : s.Writing ip K z) (hb : b < s.sb.size)
    (hfree : s.taken b = false) (hx : s.own (s.view ip) x = 0)
    (hown : s'.own (s'.view ip) = update (s.own (s.view ip)) x b)
    (hblock : ∀ y, (∀ i, y ≠ .indirect i) → s.own (s.view ip) y ≠ 0 →
      s'.block (s.own (s.view ip) y) = (s.allocated b).block (s.own (s.view ip) y)) :
        s.Keeps ip s' := by
  intro y hy h0
  have hyx : y ≠ x := by
    rintro rfl
    exact h0 hx
  have hzone := h.holds.owners.zone h0
  have hmap := h.layout.bitmap b hb
  refine ⟨by rw [hown, update_of_ne hyx], (hblock y hy h0).trans (allocated_block ?_ (by omega))⟩
  exact h.holds.owners.own_ne hb (by simp [hfree]) y

/-- The cached inode with another block. -/
def State.withAddr (s : State) (ip k b : Nat) : State :=
  { s with
    inode := update s.inode ip
      { s.inode ip with addrs := update (s.inode ip).addrs k b } }

theorem setAddr_eq (ip k b : Nat) : setAddr ip k b = modify fun s => s.withAddr ip k b := rfl

theorem withAddr_self (s : State) (ip k b : Nat) : (s.withAddr ip k b).inode ip =
    { s.inode ip with addrs := update (s.inode ip).addrs k b } := update_self ..

/-- A block is recorded in the cached inode. -/
theorem State.Writing.giveAddr (h : s.Writing ip K z)
    (hb : b < s.sb.size) (hfree : s.taken b = false) (hx : s.own (s.view ip) x = 0)
    (hset : (s.allocated b).own (update (s.view ip) ip
        { s.view ip ip with addrs := update (s.view ip ip).addrs k b }) =
      update ((s.allocated b).own (s.view ip)) x b) (hle : K ≤ K') (hmax : K' ≤ MAXFILE)
    (hshape : ∀ k < MAXFILE, update (s.own (s.view ip)) x b (filePlace ip k) ≠ 0 ↔ k < K')
    (hx' : x.inum = ip) : ((s.allocated b).withAddr ip k b).Writing ip K' z ∧
      ((s.allocated b).withAddr ip k b).own (((s.allocated b).withAddr ip k b).view ip) =
        update (s.own (s.view ip)) x b := by
  have hL := h.layout
  have hge := h.holds.free_ge hb hfree
  have hown : ((s.allocated b).withAddr ip k b).own (((s.allocated b).withAddr ip k b).view ip) =
      update (s.own (s.view ip)) x b := by
    rw [← allocated_own h.holds hL hb hfree, ← hset]
    refine own_congr (s := s.allocated b) fun i hi => ?_
    rcases eq_or_ne i ip with rfl | hne
    · rw [view_self, withAddr_self, update_self, view_self]
      exact .refl _
    rw [view_of_ne hne, update_of_ne hne, view_of_ne hne]
    have hd : ((s.allocated b).withAddr ip k b).dinode i = s.dinode i :=
      allocated_dinode hL hge hi
    rw [hd]
    exact .refl _
  refine ⟨h.give hb hfree hx rfl (fun c hc => allocated_meta hL hge hc) (fun _ _ => rfl) hown
    (fun i hi => update_of_ne hi _ _) rfl rfl ?_ ?_ hle hmax hshape hx', hown⟩
  · rw [withAddr_self]
    rfl
  · rw [withAddr_self]
    exact h.size

/-- The next block of the file is recorded. -/
theorem shape_next (h : s.Writing ip K z) (hK : K < MAXFILE) (hb : b ≠ 0) : ∀ k < MAXFILE,
      update (s.own (s.view ip)) (filePlace ip K) b (filePlace ip k) ≠ 0 ↔ k < K + 1 := by
  intro k hk
  rcases eq_or_ne k K with rfl | hne
  · rw [update_self]
    exact iff_of_true hb (Nat.lt_succ_self _)
  · have hp : filePlace ip k ≠ filePlace ip K := fun heq => hne (filePlace_inj hk hK heq).2
    rw [update_of_ne hp, h.shape hk]
    omega

theorem free_ne_zero (h : s.Writing ip K z) (hb : b < s.sb.size) (hfree : s.taken b = false) :
    b ≠ 0 := by
  have h1 := h.holds.free_ge hb hfree
  have h2 := h.holds.owners.pos
  omega

/-- The blocks that `bmap` allocates for block `bn` of a file with `K` blocks: one if it is the
next, and the indirect block if there is none. -/
def State.cost (s : State) (ip K bn : Nat) : Nat :=
  (if bn < K then 0 else 1) + if ¬ bn < NDIRECT ∧ (s.inode ip).addrs NDIRECT = 0 then 1 else 0

/-- The indirect block, new or not. -/
structure State.HasIndirect (s : State) (ip K z ind : Nat) (s' : State) : Prop where
  writing : s'.Writing ip K z
  addr : (s'.inode ip).addrs NDIRECT = ind
  ne : ind ≠ 0
  old : (s.inode ip).addrs NDIRECT ≠ 0 → s' = s
  keeps : s.Keeps ip s'
  free : s'.freeBlocks.card + (if (s.inode ip).addrs NDIRECT = 0 then 1 else 0) = s.freeBlocks.card
  front : s.SameFront s'

theorem leaves_indirect (h : s.Writing ip K z) : Leaves (indirect ip) s
    (fun ind s' => s.HasIndirect ip K z ind s')
    fun e _ => e = .balloc ∧ (s.inode ip).addrs NDIRECT = 0 ∧ s.freeBlocks.card = 0 := by
  unfold indirect
  rw [leaves_get_bind]
  dsimp only
  split
  swap
  · next h0 => exact ⟨h, rfl, h0, fun _ => rfl, .refl s ip, by rw [if_neg h0]; rfl, .refl s⟩
  next h0 =>
  refine leaves_bind.2 (leaves_balloc_cases (fun b hb hfree => ?_) fun hnone =>
    ⟨rfl, h0, card_eq_zero.2 hnone⟩)
  rw [setAddr_eq, leaves_modify_bind, leaves_pure]
  have hview : (s.view ip ip).addrs NDIRECT = 0 := by rw [view_self]; exact h0
  have hzero (j : Nat) : word ((s.allocated b).block b) j = 0 := by
    rw [allocated_self, word_zero]
  have hx : s.own (s.view ip) (.indirect ip) = 0 := by
    rw [own_indirect h.live]
    exact hview
  obtain ⟨hW, hown⟩ := h.giveAddr (x := .indirect ip) hb hfree hx
    (own_setIndirect h.live hview hzero) le_rfl h.le (fun k hk => by
      have hp : filePlace ip k ≠ .indirect ip := by
        unfold filePlace
        split <;> nofun
      rw [update_of_ne hp]
      exact h.shape hk) rfl
  refine ⟨hW, ?_, free_ne_zero h hb hfree, fun hne => absurd h0 hne,
    h.keeps hb hfree hx hown fun _ _ _ => rfl, ?_, rfl,
    fun c hc => allocated_meta h.layout (h.holds.free_ge hb hfree) hc⟩
  · rw [withAddr_self]
    exact update_self NDIRECT b (s.inode ip).addrs
  · rw [if_pos h0]
    exact card_freeBlocks_allocated h.layout (h.holds.free_ge hb hfree) hb hfree

/-- A file without an indirect block is short. -/
theorem State.Writing.le_direct (h : s.Writing ip K z) (h0 : (s.inode ip).addrs NDIRECT = 0) :
    K ≤ NDIRECT := by
  by_contra hlt
  have hK := h.le
  have hne := (h.shape (show NDIRECT < MAXFILE by decide)).2 (Nat.lt_of_not_le hlt)
  have hp : filePlace ip NDIRECT = .entry ip 0 := rfl
  rw [hp, own_entry h.live, view_self, if_pos h0] at hne
  exact hne rfl

theorem filePlace_direct (hbn : bn < NDIRECT) : filePlace ip bn =
    .direct ip ⟨bn, hbn⟩ := dif_pos hbn

theorem filePlace_entry (hbn : ¬ bn < NDIRECT) (h : bn - NDIRECT < NINDIRECT) :
    filePlace ip bn = .entry ip ⟨bn - NDIRECT, h⟩ := by
  rw [filePlace, dif_neg hbn]
  exact congrArg (Place.entry ip) (Fin.ext (Nat.mod_eq_of_lt h))

/-- The next block of the file is recorded in the indirect block. -/
theorem State.Writing.giveEntry {ind : Nat} (h : s.Writing ip K z)
    (hind : (s.inode ip).addrs NDIRECT = ind) (h0 : ind ≠ 0) (hK : filePlace ip K = .entry ip j)
    (hlt : K < MAXFILE) (hb : b < s.sb.size) (hfree : s.taken b = false) :
    ((s.allocated b).setBlock ind (setWord ((s.allocated b).block ind) j b)).Writing ip (K + 1) z ∧
      ((s.allocated b).setBlock ind (setWord ((s.allocated b).block ind) j b)).own
        (((s.allocated b).setBlock ind (setWord ((s.allocated b).block ind) j b)).view ip) =
        update (s.own (s.view ip)) (filePlace ip K) b := by
  generalize hs' : (s.allocated b).setBlock ind _ = s'
  have hL := h.layout
  have hge := h.holds.free_ge hb hfree
  have hview : (s.view ip ip).addrs NDIRECT = ind := by rw [view_self, hind]
  have hown0 : s.own (s.view ip) (.indirect ip) = ind := by rw [own_indirect h.live, hview]
  have hzone := h.holds.owners.zone (x := .indirect ip) (by rw [hown0]; exact h0)
  rw [hown0] at hzone
  have hbmap := hL.zone
  have hsb : s'.sb = s.sb := by rw [← hs']; rfl
  have hmeta (c : Nat) (hc : c < s.sb.bmapstart) : s'.block c = s.block c := by
    rw [← hs', setBlock_of_ne _ _ (by omega)]
    exact allocated_meta hL hge hc
  have hinode : s'.inode = s.inode := by rw [← hs']; rfl
  have hown : s'.own (s'.view ip) = update (s.own (s.view ip)) (filePlace ip K) b := by
    have hview' : s'.own (s'.view ip) = s'.own (s.view ip) := by
      refine own_congr fun i hi => ?_
      rw [hsb] at hi
      rcases eq_or_ne i ip with rfl | hne
      · rw [view_self, view_self, hinode]
        exact .refl _
      · rw [view_of_ne hne, view_of_ne hne, dinode_of_meta hL hsb hmeta hi]
        exact .refl _
    rw [hview', ← hs', hK, ← allocated_own h.holds hL hb hfree, ← hview]
    refine own_setEntry (s := s.allocated b) h.live (by rw [hview]; exact h0) (fun y hy => ?_) j
      (hb.trans hL.word)
    rw [allocated_own h.holds hL hb hfree, hview, ← hown0] at hy
    exact h.holds.owners.single (by rw [hy, hown0]; exact h0) hy
  refine ⟨h.give hb hfree ?_ hsb hmeta (fun c hc => ?_) hown (fun i _ => by rw [hinode])
    (by rw [← hs']; rfl) (by rw [← hs']; rfl) (by rw [hinode]) (by rw [hinode]; exact h.size)
    (Nat.le_succ K) hlt (shape_next h hlt (free_ne_zero h hb hfree)) (filePlace_inum ip K), hown⟩
  · by_contra hne
    exact Nat.lt_irrefl _ ((h.shape hlt).1 hne)
  · rw [← hs']
    refine taken_setBlock _ _ ?_
    have := hL.bitmap c hc
    change ind ≠ s.sb.BBLOCK c
    omega

/-- What `bmap` leaves that has returned `b`. -/
structure State.Mapped (s : State) (ip K z bn b : Nat) (s' : State) : Prop where
  writing : s'.Writing ip (max K (bn + 1)) z
  own : s'.own (s'.view ip) (filePlace ip bn) = b
  ne : b ≠ 0
  old : bn < K → s' = s
  keeps : s.Keeps ip s'
  free : s'.freeBlocks.card + s.cost ip K bn = s.freeBlocks.card
  direct : (s'.inode ip).addrs NDIRECT = 0 → (s.inode ip).addrs NDIRECT = 0 ∧ bn < NDIRECT
  front : s.SameFront s'

/-- `bmap` for a block of the file or the one after it. -/
theorem leaves_bmap_cost (h : s.Writing ip K z) (hbn : bn ≤ K) (hmax : bn < MAXFILE) :
    Leaves (bmap ip bn) s (fun b s' => s.Mapped ip K z bn b s')
      fun e _ => e = .balloc ∧ s.freeBlocks.card < s.cost ip K bn := by
  -- a block that is there leaves the state alone
  have hold {s : State} {b : Nat} (h : s.Writing ip K z)
      (hb : s.own (s.view ip) (filePlace ip bn) = b) (h0 : b ≠ 0) :
      bn < K ∧ s.Writing ip (max K (bn + 1)) z := by
    have hlt : bn < K := (h.shape hmax).1 (by rw [hb]; exact h0)
    rw [Nat.max_eq_left hlt]
    exact ⟨hlt, h⟩
  -- and a new one is the next
  have hnext {s : State} (h : s.Writing ip K z) (h0 : s.own (s.view ip) (filePlace ip bn) = 0) :
      K = bn := by
    have : ¬ bn < K := fun hlt => (h.shape hmax).2 hlt h0
    omega
  have hmaxS : max bn (bn + 1) = bn + 1 := Nat.max_eq_right (Nat.le_succ bn)
  have hirr : ¬ bn < bn := Nat.lt_irrefl bn
  unfold bmap
  split
  · next hd =>
    have hplace : filePlace ip bn = _ := filePlace_direct hd
    have hown : s.own (s.view ip) (filePlace ip bn) = (s.inode ip).addrs bn := by
      rw [hplace, own_direct h.live, view_self]
    have hcost : s.cost ip K bn = if bn < K then 0 else 1 := by
      rw [cost, if_neg fun hno : ¬ bn < NDIRECT ∧ _ => hno.1 hd]
      rfl
    rw [leaves_get_bind, hcost]
    dsimp only
    split
    swap
    · next h0 =>
      obtain ⟨hlt, hW⟩ := hold h hown h0
      exact ⟨hW, hown, h0, fun _ => rfl, .refl s ip, by rw [hcost, if_pos hlt]; rfl,
        fun hz => ⟨hz, hd⟩, .refl s⟩
    · next h0 =>
      obtain rfl := hnext h (by rw [hown, h0])
      refine leaves_bind.2 (leaves_balloc_cases (fun b hb hfree => ?_) fun hnone => ?_)
      swap
      · rw [if_neg hirr, hnone]
        exact ⟨rfl, Nat.one_pos⟩
      rw [setAddr_eq, leaves_modify_bind, leaves_pure]
      have hne := free_ne_zero h hb hfree
      have hx : s.own (s.view ip) (filePlace ip K) = 0 := by rw [hown, h0]
      obtain ⟨hW, ho⟩ := h.giveAddr (x := filePlace ip K) (k := K) hb hfree hx
        (by rw [hplace]; exact own_setDirect (s := s.allocated b) h.live ⟨K, hd⟩ b)
        (Nat.le_succ K) hmax
        (shape_next h hmax hne) (filePlace_inum ip K)
      refine ⟨by rw [hmaxS]; exact hW, by rw [ho, update_self], hne, fun hlt => absurd hlt hirr,
        h.keeps hb hfree hx ho fun _ _ _ => rfl, ?_, fun hz => ⟨?_, hd⟩, rfl,
        fun c hc => allocated_meta h.layout (h.holds.free_ge hb hfree) hc⟩
      · rw [hcost, if_neg hirr]
        exact card_freeBlocks_allocated h.layout (h.holds.free_ge hb hfree) hb hfree
      · rw [withAddr_self] at hz
        exact (update_of_ne hd.ne' _ _).symm.trans hz
  next hd =>
  split
  swap
  · next hi =>
    simp only [MAXFILE] at hmax
    omega
  next hi =>
  have hplace : filePlace ip bn = _ := filePlace_entry hd hi
  have hcost : s.cost ip K bn =
      (if bn < K then 0 else 1) + if (s.inode ip).addrs NDIRECT = 0 then 1 else 0 := by
    simp only [cost, hd, not_false_eq_true, true_and]
  refine ((leaves_indirect h).mono (fun _ _ => id) ?_).bind fun ind t ht => ?_
  · rintro e _ ⟨rfl, h0, hcard⟩
    rw [hcost, hcard, if_pos h0]
    exact ⟨rfl, by omega⟩
  have hW := ht.writing
  have hfreet := ht.free
  have hview : (t.view ip ip).addrs NDIRECT = ind := by rw [view_self, ht.addr]
  have hown : t.own (t.view ip) (filePlace ip bn) = word (t.block ind) (bn - NDIRECT) := by
    rw [hplace, own_entry hW.live, hview, if_neg ht.ne]
  rw [leaves_get_bind]
  dsimp only
  split
  swap
  · next h0 =>
    obtain ⟨hlt, hW'⟩ := hold hW hown h0
    refine ⟨hW', hown, h0, fun _ => ht.old fun hz => ?_, ht.keeps, ?_, fun hz => ?_, ht.front⟩
    · have := h.le_direct hz
      omega
    · rw [hcost, if_pos hlt, Nat.zero_add]
      exact hfreet
    · exact absurd (ht.addr.symm.trans hz) ht.ne
  · next h0 =>
    obtain rfl := hnext hW (by rw [hown, h0])
    refine leaves_bind.2 (leaves_balloc_cases (fun b hb hfree => ?_) fun hnone => ?_)
    swap
    · rw [hnone] at hfreet
      rw [hcost, if_neg hirr, ← hfreet]
      exact ⟨rfl, by rw [card_empty]; omega⟩
    rw [leaves_get_bind, log_write_eq, leaves_modify_bind, leaves_pure]
    obtain ⟨hW', ho⟩ := hW.giveEntry ht.addr ht.ne hplace hmax hb hfree
    have hx : t.own (t.view ip) (filePlace ip K) = 0 := by rw [hown, h0]
    have hind : t.own (t.view ip) (.indirect ip) = ind := by rw [own_indirect hW.live, hview]
    refine ⟨by rw [hmaxS]; exact hW', by rw [ho, update_self], free_ne_zero hW hb hfree,
      fun hlt => absurd hlt hirr, ht.keeps.trans (hW.keeps hb hfree hx ho fun y hy hy0 => ?_), ?_,
      fun hz => absurd (ht.addr.symm.trans hz) ht.ne, ht.front.trans ⟨rfl, fun c hc => ?_⟩⟩
    · -- the indirect block holds no data
      refine setBlock_of_ne _ _ fun heq => hy ip ?_
      exact hW.holds.owners.single hy0 (heq.trans hind.symm)
    · rw [hcost, if_neg hirr, ← hfreet]
      have hcard := card_freeBlocks_allocated hW.layout (hW.holds.free_ge hb hfree) hb hfree
      have hset :
        ((t.allocated b).setBlock ind (setWord ((t.allocated b).block ind) (K - NDIRECT)
          b)).freeBlocks
          = (t.allocated b).freeBlocks := by
        refine filter_congr fun c hc => ?_
        rw [taken_setBlock]
        have hzone := hW.holds.owners.zone (x := .indirect ip) (by rw [hind]; exact ht.ne)
        rw [hind] at hzone
        have := hW.layout.bitmap c (mem_range.1 hc)
        change ind ≠ t.sb.BBLOCK c
        omega
      rw [hset]
      omega
    · have hzone := hW.holds.owners.zone (x := .indirect ip) (by rw [hind]; exact ht.ne)
      have hmap := hW.layout.zone
      rw [hind] at hzone
      rw [setBlock_of_ne _ _ (by omega)]
      exact allocated_meta hW.layout (hW.holds.free_ge hb hfree) hc

theorem leaves_bmap (h : s.Writing ip K z) (hbn : bn ≤ K) (hmax : bn < MAXFILE) :
    Leaves (bmap ip bn) s (fun b s' => s'.Writing ip (max K (bn + 1)) z ∧
      s'.own (s'.view ip) (filePlace ip bn) = b ∧ b ≠ 0 ∧ (bn < K → s' = s)) Harmless := by
  refine (leaves_bmap_cost h hbn hmax).mono
    (fun b s' hs' => ⟨hs'.writing, hs'.own, hs'.ne, hs'.old⟩) ?_
  rintro e s' ⟨rfl, -⟩
  exact nofun

end

end Msboss.Fs
