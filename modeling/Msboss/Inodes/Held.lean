import Msboss.Inodes.Disk

/-!
# The inode cache inside a call

`Held` is the state of the cache inside a call, with the references the call has made and the
inodes it has locked. Each function of `fs.c` has one lemma, which says how it changes these and
what becomes of the disk.
-/

namespace Msboss.Inodes

open Function List
open Fs (FileType)

/-- The surroundings of a call: the number of references to each entry of the cache from open files
and current directories, the inodes these entries are of, and what the call does not change. -/
structure Kept where
  count : InodeId → Nat
  inum : InodeId → Nat
  ninodes : Nat

/-- An open file or current directory is inode `n`. -/
def Kept.Has (K : Kept) (n : Nat) : Prop := ∃ i, 0 < K.count i ∧ K.inum i = n

/-- References of a call, each to an entry and with the number of the inode that the entry is of. -/
abbrev Refs := List (InodeId × Nat)

/-- How many of the references are to entry `i`. -/
def Refs.to (H : Refs) (i : InodeId) : Nat := (H.map Prod.fst).count i

/-- The entry `e` at `i` is as it should be inside a call that has made the references `H`, has
locked `L`, and has `D` on disk. -/
structure Fits (K : Kept) (H : Refs) (L : List InodeId) (D : Disk) (i : InodeId) (e : Entry) :
    Prop where
  refs : e.ref = K.count i + H.to i
  busy : e.busy = true ↔ i ∈ L
  locked : i ∈ L → 0 < H.to i ∧ e.valid = true
  device : 0 < e.ref → e.dev = ROOTDEV
  named : ∀ n, (i, n) ∈ H → e.inum = n
  kept : 0 < K.count i → e.inum = K.inum i
  loaded : 0 < K.count i → e.valid = true ∨ K.inum i = ROOTINO
  copied : 0 < e.ref → e.valid = true →
    e.type = (D e.inum).type ∧ e.nlink = (D e.inum).nlink ∧ e.type ≠ .free

/-- Inside a call, with `o` transactions open. -/
structure Held (K : Kept) (o : Int) (H : Refs) (L : List InodeId) (D : Disk) (s : Volume) :
    Prop where
  fits : ∀ i, Fits K H L D i (s.entry i)
  unique : ∀ i j, 0 < (s.entry i).ref → 0 < (s.entry j).ref →
    (s.entry i).inum = (s.entry j).inum → i = j
  nodup : L.Nodup
  disk : s.disk = D
  ops : s.outstanding = o
  ninodes : s.ninodes = K.ninodes

variable {K : Kept} {o : Int} {H H' : Refs} {L L' : List InodeId} {D D' : Disk} {s : Volume}
  {i j : InodeId}
  {n m : Nat} {e : Entry}

@[simp] theorem Refs.to_nil : Refs.to [] i = 0 := rfl

@[simp] theorem Refs.to_cons : Refs.to ((i, n) :: H) j = H.to j + if j = i then 1 else 0 := by
  simp only [Refs.to, map_cons, count_cons, beq_iff_eq]
  simp only [eq_comm]

theorem Refs.to_pos (h : (i, n) ∈ H) : 0 < H.to i :=
  count_pos_iff.2 (mem_map_of_mem (f := Prod.fst) h)

/-! ## Changing one entry -/

/-- An entry that a step does not touch, when the step's references, locks and changes of the disk
are at other entries. -/
theorem Fits.frame (h : Fits K H L D j e) (hH : ∀ n, (j, n) ∈ H' ↔ (j, n) ∈ H)
    (hto : H'.to j = H.to j) (hL : j ∈ L' ↔ j ∈ L) (hD : 0 < e.ref → e.valid = true →
      (D' e.inum).type = (D e.inum).type ∧ (D' e.inum).nlink = (D e.inum).nlink) :
    Fits K H' L' D' j e where
  refs := by rw [hto]; exact h.refs
  busy := by rw [hL]; exact h.busy
  locked := by rw [hto, hL]; exact h.locked
  device := h.device
  named n hn := h.named n ((hH n).1 hn)
  kept := h.kept
  loaded := h.loaded
  copied hr hv := by
    rw [(hD hr hv).1, (hD hr hv).2]
    exact h.copied hr hv

/-- A step that changes the entry `i` and perhaps the disk. -/
theorem Held.change (h : Held K o H L D s) (hfit : Fits K H' L' D' i e)
    (hframe : ∀ j, j ≠ i → Fits K H L D j (s.entry j) → Fits K H' L' D' j (s.entry j))
    (hunique : 0 < e.ref → ∀ j, j ≠ i → 0 < (s.entry j).ref → (s.entry j).inum ≠ e.inum)
    (hnodup : L'.Nodup) : Held K o H' L' D' { s with entry := update s.entry i e, disk := D' } where
  fits j := by
    by_cases hj : j = i
    · subst hj; simpa using hfit
    · simpa [hj] using hframe j hj (h.fits j)
  unique j k := by
    by_cases hj : j = i <;> by_cases hk : k = i
    · intros; rw [hj, hk]
    · subst hj
      simp only [update_self, ne_eq, hk, not_false_eq_true, update_of_ne]
      exact fun h1 h2 h3 => absurd h3.symm (hunique h1 k hk h2)
    · subst hk
      simp only [update_self, ne_eq, hj, not_false_eq_true, update_of_ne]
      exact fun h1 h2 h3 => absurd h3 (hunique h2 j hj h1)
    · simpa [hj, hk] using h.unique j k
  nodup := hnodup
  disk := rfl
  ops := h.ops
  ninodes := h.ninodes

/-- The same, when the disk stays. -/
theorem Held.changeEntry (h : Held K o H L D s) (hfit : Fits K H' L' D i e)
    (hframe : ∀ j, j ≠ i → Fits K H L D j (s.entry j) → Fits K H' L' D j (s.entry j))
    (hunique : 0 < e.ref → ∀ j, j ≠ i → 0 < (s.entry j).ref → (s.entry j).inum ≠ e.inum)
    (hnodup : L'.Nodup) : Held K o H' L' D { s with entry := update s.entry i e } := by
  have := h.change hfit hframe hunique hnodup
  rwa [← h.disk] at this ⊢

/-- An inode that is held has a reference. -/
theorem Held.ref_pos (h : Held K o H L D s) (hi : (i, n) ∈ H) : 0 < (s.entry i).ref := by
  have := Refs.to_pos hi
  rw [(h.fits i).refs]
  omega

/-- Another entry in use is of another inode. -/
theorem Held.inum_ne (h : Held K o H L D s) (hi : 0 < (s.entry i).ref) :
    ∀ j, j ≠ i → 0 < (s.entry j).ref → (s.entry j).inum ≠ (s.entry i).inum :=
  fun j hj hr he => hj (h.unique j i hr hi he)

/-- The order in which the call made its references and took its locks is no matter. -/
theorem Held.perm (h : Held K o H L D s) (hH : H.Perm H') (hL : L.Perm L') :
    Held K o H' L' D s where
  fits i := (h.fits i).frame (fun _ => hH.symm.mem_iff) ((hH.symm.map Prod.fst).count_eq i)
    hL.symm.mem_iff fun _ _ => ⟨rfl, rfl⟩
  unique := h.unique
  nodup := hL.nodup_iff.1 h.nodup
  disk := h.disk
  ops := h.ops
  ninodes := h.ninodes

/-! ## References -/

/-- One more reference to an entry that has one. -/
theorem Held.addRef (h : Held K o H L D s) (hi : 0 < (s.entry i).ref) :
    Held K o ((i, (s.entry i).inum) :: H) L D { s with
      entry := update s.entry i { s.entry i with ref := (s.entry i).ref + 1 } } := by
  have hf := h.fits i
  refine h.changeEntry ?_ ?_ (fun _ => h.inum_ne hi) h.nodup
  · exact {
      refs := by simp [hf.refs]; omega
      busy := hf.busy
      locked := fun hl => ⟨by simp, (hf.locked hl).2⟩
      device := fun _ => hf.device hi
      named := fun n hn => by
        obtain hn | hn := mem_cons.1 hn
        · exact (Prod.mk.inj hn).2.symm
        · exact hf.named n hn
      kept := hf.kept
      loaded := hf.loaded
      copied := fun _ => hf.copied hi }
  · intro j hj hfj
    exact hfj.frame (by simp [hj]) (by simp [hj]) Iff.rfl fun _ _ => ⟨rfl, rfl⟩

/-- An entry without references is taken for the inode `n`, which no other entry is of. -/
theorem Held.recycle (h : Held K o H L D s) (hi : (s.entry i).ref = 0)
    (hn : ∀ j, 0 < (s.entry j).ref → (s.entry j).inum ≠ n) : Held K o ((i, n) :: H) L D { s with
      entry := update s.entry i
        { s.entry i with dev := ROOTDEV, inum := n, ref := 1, busy := false, valid := false }
          } := by
  have hf := h.fits i
  have hk : K.count i = 0 := by have := hf.refs; omega
  have hto : H.to i = 0 := by have := hf.refs; omega
  have hl : i ∉ L := fun hl => by have := (hf.locked hl).1; omega
  refine h.changeEntry ?_ ?_ (fun _ j _ => hn j) h.nodup
  · exact {
      refs := by simp [hk, hto]
      busy := by simp [hl]
      locked := fun h => absurd h hl
      device := fun _ => rfl
      named := fun m hm => by
        obtain hm | hm := mem_cons.1 hm
        · exact (Prod.mk.inj hm).2.symm
        · have := Refs.to_pos hm
          omega
      kept := fun h => by omega
      loaded := fun h => by omega
      copied := fun _ h => by cases h }
  · intro j hj hfj
    exact hfj.frame (by simp [hj]) (by simp [hj]) Iff.rfl fun _ _ => ⟨rfl, rfl⟩

/-- The inode cache, the inodes on disk or a directory are full. -/
def Full (x : Stop) : Prop := x = .iget ∨ x = .ialloc ∨ x = .dirlink

/-- Or `dirlookup` is called for something that is not a directory. -/
def Lost (dir : Prop) (x : Stop) : Prop := Full x ∨ x = .dirlookup ∧ ¬ dir

theorem Full.ne (h : Full x) : x ≠ .noType := by
  rcases h with rfl | rfl | rfl <;> exact nofun

/-- `iget` takes a reference. -/
theorem ends_iget (h : Held K o H L D s) (n : Nat) :
    Ends (iget ROOTDEV n) s (fun i s' => Held K o ((i, n) :: H) L D s') Full := by
  unfold iget
  rw [ends_get_bind]
  split
  · next i hi =>
    obtain ⟨hpos, -, rfl⟩ : 0 < (s.entry i).ref ∧ _ ∧ _ := by
      simpa using List.find?_some hi
    exact h.addRef hpos
  next hnone =>
  have hfree : ∀ j, 0 < (s.entry j).ref → (s.entry j).inum ≠ n := by
    intro j hj hn
    have := List.find?_eq_none.1 hnone j (mem_finRange j)
    simp [hj, (h.fits j).device hj, hn] at this
  split
  · exact .inl rfl
  · next i hi => exact h.recycle (by simpa using List.find?_some hi) hfree

/-- `idup` takes another reference. -/
theorem ends_idup (h : Held K o H L D s) (hi : 0 < (s.entry i).ref) :
    Ends (idup i) s (fun j s' => j = i ∧ Held K o ((i, (s.entry i).inum) :: H) L D s') Full :=
  ⟨rfl, h.addRef hi⟩

/-- What putting a reference to the entry `i`, of inode `n`, does to the disk. The inode is freed if
it has no link and no reference is left, unless it was never read. -/
inductive Put (K : Kept) (H : Refs) (D : Disk) (i : InodeId) (n : Nat) (valid : Bool) : Disk → Prop
  | stays : (0 < K.count i ∨ 0 < H.to i ∨ (D n).nlink ≠ 0 ∨ valid = false) → Put K H D i n valid D
  | freed : K.count i = 0 → H.to i = 0 → (D n).nlink = 0 → (D n).type ≠ .free →
      Put K H D i n valid (D.free n)

/-- One reference less. -/
theorem Held.dropRef (h : Held K o ((i, n) :: H) L D s) (hi : i ∈ L → 0 < H.to i) :
    Held K o H L D { s with
      entry := update s.entry i { s.entry i with ref := (s.entry i).ref - 1 } } := by
  have hf := h.fits i
  have hpos := h.ref_pos mem_cons_self
  refine h.changeEntry ?_ ?_ (fun _ => h.inum_ne hpos) h.nodup
  · exact {
      refs := by simp [hf.refs]; omega
      busy := hf.busy
      locked := fun hl => ⟨hi hl, (hf.locked hl).2⟩
      device := fun _ => hf.device hpos
      named := fun m hm => hf.named m (mem_cons_of_mem _ hm)
      kept := hf.kept
      loaded := hf.loaded
      copied := fun _ => hf.copied hpos }
  · intro j hj hfj
    exact hfj.frame (by simp [hj]) (by simp [hj]) Iff.rfl fun _ _ => ⟨rfl, rfl⟩

/-- The last reference goes and the inode is freed. -/
theorem Held.dropInode (h : Held K o ((i, n) :: H) L D s) (hi : i ∉ L) (hk : K.count i = 0)
    (hto : H.to i = 0) (hbusy : e.busy = false) (href : e.ref = 0) :
    Held K o H L (D.free n) { s with
      entry := update s.entry i e
      disk := D.free n } := by
  have hpos := h.ref_pos mem_cons_self
  have hnum := (h.fits i).named n mem_cons_self
  refine h.change ?_ ?_ (fun h => absurd h (by omega)) h.nodup
  · exact {
      refs := by simp [hk, hto, href]
      busy := by simp [hbusy, hi]
      locked := fun h => absurd h hi
      device := fun h => absurd h (by omega)
      named := fun m hm => by
        have := Refs.to_pos hm
        omega
      kept := fun h => by omega
      loaded := fun h => by omega
      copied := fun h => absurd h (by omega) }
  · intro j hj hfj
    refine hfj.frame (by simp [hj]) (by simp [hj]) Iff.rfl fun hr => ?_
    have := h.inum_ne hpos j hj hr
    simp [Disk.free, update_of_ne (hnum ▸ this)]

/-- `iput` gives a reference back. -/
theorem ends_iput (h : Held K o ((i, n) :: H) L D s) (hi : i ∈ L → 0 < H.to i) :
    Ends (iput i) s (fun _ s' => ∃ D', Held K o H L D' s' ∧ Put K H D i n (s.entry i).valid D')
      Full := by
  have hf := h.fits i
  have hnum := hf.named n mem_cons_self
  have hrefs := hf.refs
  simp only [Refs.to_cons, if_true] at hrefs
  unfold iput
  rw [ends_get_bind]
  split
  · next hlast =>
    obtain ⟨href, hvalid, hnlink⟩ := hlast
    obtain ⟨-, hlinks, htype⟩ := hf.copied (by omega) hvalid
    rw [hnum] at hlinks
    have hnone : (D n).type ≠ .free := by
      rw [← hnum, ← (hf.copied (by omega) hvalid).1]
      exact htype
    have hi' : i ∉ L := fun hl => by have := hi hl; omega
    have hbusy : (s.entry i).busy = false := by
      rw [Bool.eq_false_iff]
      exact fun hb => hi' (hf.busy.1 hb)
    rw [if_neg (by simp [hbusy])]
    refine ⟨D.free n, ?_, .freed (by omega) (by omega) (hlinks ▸ hnlink) hnone⟩
    have := h.dropInode (e := { s.entry i with
      busy := false, valid := false, type := .free, ref := (s.entry i).ref - 1 }) hi'
      (by omega) (by omega) rfl (by simp [href])
    convert this using 2
    · simp [Disk.free, h.disk, hnum, hnlink]
    · simp
  · next hlast =>
    refine ⟨D, h.dropRef hi, .stays ?_⟩
    by_contra hc
    simp only [not_or, not_lt, ne_eq, not_not, Nat.le_zero_eq] at hc
    obtain ⟨hk, hto, hl, hv⟩ := hc
    refine hlast ⟨by omega, by simpa using hv, ?_⟩
    have := (hf.copied (by omega) (by simpa using hv)).2.1
    rw [this, hnum, hl]

/-! ## Locks -/

/-- The entry is locked, as read from the disk. -/
theorem Held.lock (h : Held K o H L D s) (hi : (i, n) ∈ H) (hfree : i ∉ L) (hvalid : e.valid = true)
    (hbusy : e.busy = true) (hsame : e.dev = (s.entry i).dev ∧ e.inum = (s.entry i).inum ∧
      e.ref = (s.entry i).ref)
    (htype : e.type = (D n).type) (hnlink : e.nlink = (D n).nlink) (hnone : (D n).type ≠ .free) :
    Held K o H (i :: L) D { s with entry := update s.entry i e } := by
  obtain ⟨hdev, hinum, href⟩ := hsame
  have hf := h.fits i
  have hpos := h.ref_pos hi
  have hnum := hf.named n hi
  refine h.changeEntry ?_ ?_ (fun _ => by rw [hinum]; exact h.inum_ne hpos)
    (nodup_cons.2 ⟨hfree, h.nodup⟩)
  · exact {
      refs := by rw [href]; exact hf.refs
      busy := by simp [hbusy]
      locked := fun _ => ⟨Refs.to_pos hi, hvalid⟩
      device := by rw [href, hdev]; exact hf.device
      named := by rw [hinum]; exact hf.named
      kept := by rw [hinum]; exact hf.kept
      loaded := fun _ => .inl hvalid
      copied := fun _ _ => by rw [hinum, hnum]; exact ⟨htype, hnlink, by rw [htype]; exact hnone⟩ }
  · intro j hj hfj
    exact hfj.frame (fun _ => Iff.rfl) rfl (by simp [hj]) fun _ _ => ⟨rfl, rfl⟩

/-- `ilock` locks, unless the inode is free or locked. -/
theorem ends_ilock (h : Held K o H L D s) (hi : (i, n) ∈ H) :
    Ends (ilock i) s (fun _ s' => Held K o H (i :: L) D s' ∧ i ∉ L ∧ (D n).type ≠ .free)
      fun x => x = .noType ∧ (D n).type = .free ∨ x = .blocked ∧ i ∈ L := by
  have hf := h.fits i
  have hpos := h.ref_pos hi
  have hnum := hf.named n hi
  unfold ilock
  rw [ends_get_bind, if_neg (by omega)]
  split
  · next hbusy => exact .inr ⟨rfl, hf.busy.1 hbusy⟩
  next hbusy =>
  have hfree : i ∉ L := fun hl => hbusy (hf.busy.2 hl)
  split
  · next hvalid =>
    obtain ⟨htype, hnlink, hnone⟩ := hf.copied hpos hvalid
    rw [hnum] at htype hnlink
    rw [htype] at hnone
    exact ⟨h.lock hi hfree hvalid rfl ⟨rfl, rfl, rfl⟩ htype hnlink hnone, hfree, hnone⟩
  · rw [h.disk, hnum]
    dsimp only
    rw [modifyEntry, ends_modify_bind]
    split
    · next hnone => exact .inl ⟨rfl, hnone⟩
    · next hnone =>
      exact ⟨h.lock hi hfree rfl rfl ⟨rfl, rfl, rfl⟩ rfl rfl hnone, hfree, hnone⟩

/-- `iunlock` unlocks an inode that is valid. -/
theorem ends_iunlock (h : Held K o H (i :: L) D s) : Ends (iunlock i) s
      (fun _ s' => Held K o H L D s' ∧ i ∉ L ∧ (s'.entry i).valid = true) Full := by
  have hf := h.fits i
  have hl := hf.locked mem_cons_self
  obtain ⟨hfree, hnodup⟩ := nodup_cons.1 h.nodup
  have hpos : 0 < (s.entry i).ref := by rw [hf.refs]; omega
  unfold iunlock
  rw [ends_get_bind, if_neg (by simp [hf.busy.2 mem_cons_self]; omega)]
  refine ⟨?_, hfree, by simp [hl.2]⟩
  refine h.changeEntry ?_ ?_ (fun _ => h.inum_ne hpos) hnodup
  · exact {
      refs := hf.refs
      busy := by simp [hfree]
      locked := fun h => absurd h hfree
      device := hf.device
      named := hf.named
      kept := hf.kept
      loaded := hf.loaded
      copied := hf.copied }
  · intro j hj hfj
    exact hfj.frame (fun _ => Iff.rfl) rfl (by simp [hj]) fun _ _ => ⟨rfl, rfl⟩

/-- What is in a locked entry. -/
theorem Held.locked_eq (h : Held K o H L D s) (hi : i ∈ L) (hn : (i, n) ∈ H) :
    (s.entry i).inum = n ∧ (s.entry i).type = (D n).type ∧ (s.entry i).nlink = (D n).nlink ∧
      (D n).type ≠ .free := by
  have hf := h.fits i
  have hnum := hf.named n hn
  obtain ⟨h1, h2, h3⟩ := hf.copied (h.ref_pos hn) (hf.locked hi).2
  rw [hnum] at h1 h2
  exact ⟨hnum, h1, h2, h1 ▸ h3⟩

/-- `iunlockput` does both. -/
theorem ends_iunlockput (h : Held K o ((i, n) :: H) (i :: L) D s) :
    Ends (iunlockput i) s (fun _ s' => ∃ D', Held K o H L D' s' ∧ Put K H D i n true D') Full := by
  refine (ends_iunlock h).bind fun _ s1 h₁ => ?_
  have := ends_iput h₁.1 fun hl => absurd hl h₁.2.1
  rwa [h₁.2.2] at this

/-! ## Lookups -/

/-- `dirlookup` finds the first entry with the name. -/
theorem ends_dirlookup (h : Held K o H L D s) (hi : i ∈ L) (hn : (i, n) ∈ H) (name : Name) :
    Ends (dirlookup i name) s (fun r s' => (D n).type = .dir ∧
      match r with
      | none => Held K o H L D s' ∧ slot (D n).dirents name = none
      | some (k, j) => Held K o ((j, inumAt (D n).dirents k) :: H) L D s' ∧
          slot (D n).dirents name = some k)
      (Lost ((D n).type = .dir)) := by
  obtain ⟨hnum, htype, -, -⟩ := h.locked_eq hi hn
  unfold dirlookup
  rw [ends_get_bind, hnum, htype, h.disk, (h.fits i).device (h.ref_pos hn)]
  split
  · next hdir => exact .inr ⟨rfl, hdir⟩
  next hdir =>
  rw [not_not] at hdir
  dsimp only
  split
  · next hslot => exact ⟨hdir, h, hslot⟩
  · next k hslot =>
    refine ((ends_iget h _).mono (fun _ _ hq => hq) fun _ hx => .inl hx).bind fun j s1 h₁ => ?_
    exact ⟨hdir, h₁, hslot⟩

/-- An inode without links is an open file or a current directory, if these are the inodes `R`. -/
def Quiet (R : Nat → Prop) (D : Disk) : Prop :=
  ∀ n, (D n).type ≠ .free → (D n).nlink = 0 → R n

/-- The inodes that directories name and those in use have a type. -/
structure Live (R : Nat → Prop) (D : Disk) : Prop where
  named : ∀ d, (D d).type = .dir → ∀ e ∈ (D d).dirents, e.inum ≠ 0 → (D e.inum).type ≠ .free
  root : (D ROOTINO).type ≠ .free
  used : ∀ n, R n → (D n).type ≠ .free

/-- What is assumed of the disk at the start of a call: that it is quiet, for what is said of the
disk after the call, and that it is live, for there to be no panic of `ilock`. -/
structure Assumed (Fine Safe : Prop) (R : Nat → Prop) (D : Disk) : Prop where
  quiet : Fine → Quiet R D
  live : Safe → Live R D
  fine : Safe → Fine

theorem Assumed.congr {Fine Safe : Prop} (h : Assumed Fine Safe R D)
    (heq : Fine → D' = D) : Assumed Fine Safe R D' where
  quiet hF := heq hF ▸ h.quiet hF
  live hS := heq (h.fine hS) ▸ h.live hS
  fine := h.fine

/-- An inode that has links or is in use is not freed. -/
theorem Put.eq_of_quiet (h : Held K o H L D0 s) (hi : (i, n) ∈ H)
    (hq : (D n).type ≠ .free → (D n).nlink = 0 → K.Has n)
    (hput : Put K H' D i n v D') : D' = D := by
  cases hput with
  | stays => rfl
  | freed hk _ hl ht =>
    obtain ⟨j, hj, hjn⟩ := hq ht hl
    have hpos : 0 < (s.entry j).ref := by rw [(h.fits j).refs]; omega
    have := h.unique j i hpos (h.ref_pos hi)
      (by rw [(h.fits j).kept hj, (h.fits i).named n hi, hjn])
    subst this
    omega

/-- Nothing is freed when a call puts what it has looked up. -/
theorem Put.eq_of_ready (h : Held K o H L D0 s) (hD : Quiet K.Has D) (hi : (i, n) ∈ H)
    (hput : Put K H' D i n v D') : D' = D := hput.eq_of_quiet h hi (hD n)

/-- The outcome of a lookup. If the disk was quiet before it, that is what the disk says, and the
disk has not changed. -/
def Found (Fine Safe : Prop) (K : Kept) (o : Int) (H : Refs) (D : Disk)
    (w : Option (Nat × Name)) : Option (InodeId × Name) → Volume → Prop
  | none, s => ∃ D', Held K o H [] D' s ∧ (Fine → D' = D ∧ w = none)
  | some (i, name), s => ∃ D' n, Held K o ((i, n) :: H) [] D' s ∧
      (Fine → D' = D ∧ w = some (n, name)) ∧ (Safe → (D' n).type ≠ .free)

/-- The panic of `ilock` on an inode without a type, if any, has its cause before the call. -/
def Fails (Safe : Prop) (x : Stop) : Prop := x = .noType → ¬ Safe

variable {Fine Safe : Prop}

/-- If nothing was wrong before the call, there is no room for something. -/
def Strains (Safe : Prop) (x : Stop) : Prop := Safe → Full x

theorem Full.fails (h : Full x) : Fails Safe x := fun hx => absurd hx h.ne

theorem Lost.fails {dir : Prop} (h : Lost dir x) : Fails Safe x := fun hx => by
  subst hx
  exact absurd rfl (h.resolve_right nofun).ne

theorem ends_fails {α : Type} {m : M α} {Q : α → Volume → Prop} (h : Ends m s Q Full) :
    Ends m s Q (Fails Safe) := h.mono (fun _ _ hq => hq) fun _ hx => hx.fails

theorem ends_strains {α : Type} {m : M α} {Q : α → Volume → Prop} (h : Ends m s Q Full) :
    Ends m s Q (Strains Safe) := h.mono (fun _ _ hq => hq) fun _ hx _ => hx

theorem Strains.fails (h : Strains Safe x) : Fails Safe x := fun hx hS => (h hS).ne hx

theorem ends_strained {σ α : Type} {m : StateT σ (Except Stop) α} {s : σ} {Q : α → σ → Prop}
    (h : Ends m s Q (Strains Safe)) : Ends m s Q (Fails Safe) :=
  h.mono (fun _ _ hq => hq) fun _ hx => hx.fails

/-- `ilock` of what was found. -/
theorem ends_ilock_found (h : Held K o H L D s) (hi : (i, n) ∈ H) (hn : Safe → (D n).type ≠ .free) :
    Ends (ilock i) s (fun _ s' => Held K o H (i :: L) D s' ∧ i ∉ L ∧ (D n).type ≠ .free)
      (Fails Safe) :=
  (ends_ilock h hi).mono (fun _ _ hq => hq) fun x hx hx' hS => by
    subst hx'
    exact hn hS (hx.resolve_right nofun).2

/-- `ilock` of what was found, with no other inode locked. -/
theorem ends_ilock_first (h : Held K o H [] D s) (hi : (i, n) ∈ H)
    (hn : Safe → (D n).type ≠ .free) :
    Ends (ilock i) s (fun _ s' => Held K o H [i] D s' ∧ (D n).type ≠ .free) (Strains Safe) :=
  (ends_ilock h hi).mono (fun _ _ hq => ⟨hq.1, hq.2.2⟩) fun _ hx hS =>
    absurd (hx.resolve_right (by simp)).2 (hn hS)

/-- `dirlookup` in a directory. -/
theorem ends_dirlookup_dir (h : Held K o H L D s) (hi : i ∈ L) (hn : (i, n) ∈ H)
    (hdir : Safe → (D n).type = .dir) (name : Name) :
    Ends (dirlookup i name) s (fun r s' => (D n).type = .dir ∧
      match r with
      | none => Held K o H L D s' ∧ slot (D n).dirents name = none
      | some (k, j) => Held K o ((j, inumAt (D n).dirents k) :: H) L D s' ∧
          slot (D n).dirents name = some k) (Strains Safe) :=
  (ends_dirlookup h hi hn name).mono (fun _ _ hq => hq) fun _ hx hS =>
    hx.resolve_right fun hx => hx.2 (hdir hS)

/-- The entry in the slot that is found. -/
theorem inumAt_slot (h : slot l name = some k) :
    ∃ e ∈ l, e.inum ≠ 0 ∧ e.name = name ∧ l[k]? = some e ∧ inumAt l k = e.inum := by
  obtain ⟨hk, he, -⟩ := List.findIdx?_eq_some_iff_getElem.1 h
  simp only [ne_eq, decide_eq_true_eq] at he
  exact ⟨l[k], getElem_mem hk, he.1, he.2, by simp, by simp [inumAt, hk]⟩

/-- What is found in a directory has a type. -/
theorem Live.slot (h : Live R D) (hdir : (D n).type = .dir)
    (hslot : Inodes.slot (D n).dirents name = some k) :
    (D (inumAt (D n).dirents k)).type ≠ .free := by
  obtain ⟨e, he, he0, -, -, hek⟩ := inumAt_slot hslot
  rw [hek]
  exact h.named n hdir e he he0

theorem ends_namexEnd (h : Held K o ((i, n) :: H) [] D s) (hD : Assumed Fine Safe K.Has D)
    (hn : Safe → (D n).type ≠ .free) (parent : Bool) :
    Ends (namexEnd parent i) s (Found Fine Safe K o H D (if parent then none else some (n, [])))
      (Strains Safe) := by
  unfold namexEnd
  split
  · refine (ends_strains (ends_iput h nofun)).bind fun _ s1 h₁ => ?_
    obtain ⟨D1, h₁, hput⟩ := h₁
    exact ⟨D1, h₁, fun hF => ⟨hput.eq_of_ready h (hD.quiet hF) mem_cons_self, rfl⟩⟩
  · exact ⟨D, n, h, fun _ => ⟨rfl, rfl⟩, hn⟩

/-- A reference made under the lock of a directory that is then put. -/
theorem ends_iunlockput_found (h : Held K o ((j, m) :: (i, n) :: H) (i :: L) D s) :
    Ends (iunlockput i) s
      (fun _ s' => ∃ D', Held K o ((j, m) :: H) L D' s' ∧ Put K ((j, m) :: H) D i n true D') Full :=
  ends_iunlockput (h.perm (.swap _ _ _) (.refl _))

/-- The loop of `namex`, by induction on the rounds that are left. -/
theorem ends_namexLoop (parent : Bool) : ∀ (fuel : Nat) {i : InodeId} {n : Nat}
    {D : Disk} {s : Volume} (path : List UInt8), Held K o ((i, n) :: H) [] D s →
    Assumed Fine Safe K.Has D → (Safe → (D n).type ≠ .free) →
    Ends (namexLoop parent fuel i path) s (Found Fine Safe K o H D (D.walk parent fuel n path))
      (Strains Safe) := by
  intro fuel
  induction fuel with
  | zero => exact fun path h hD hn => ends_namexEnd h hD hn parent
  | succ fuel ih =>
    intro i n D s path h hD hn
    unfold namexLoop Disk.walk
    cases skipelem path with
    | none => exact ends_namexEnd h hD hn parent
    | some r =>
      obtain ⟨name, rest⟩ := r
      dsimp only
      refine (ends_ilock_first h mem_cons_self hn).bind fun _ s1 h₁ => ?_
      obtain ⟨h₁, -⟩ := h₁
      rw [ends_get_bind, (h₁.locked_eq mem_cons_self mem_cons_self).2.1]
      split
      · refine (ends_strains (ends_iunlockput h₁)).bind fun _ s2 h₂ => ?_
        obtain ⟨D2, h₂, hput⟩ := h₂
        exact ⟨D2, h₂, fun hF => ⟨hput.eq_of_ready h₁ (hD.quiet hF) mem_cons_self, rfl⟩⟩
      next hdir =>
      rw [not_not] at hdir
      split
      · refine (ends_strains (ends_iunlock h₁)).bind fun _ s2 h₂ => ?_
        exact ⟨D, n, h₂.1, fun _ => ⟨rfl, rfl⟩, hn⟩
      refine (ends_dirlookup_dir h₁ mem_cons_self mem_cons_self (fun _ => hdir) name).bind
        fun r s2 h₂ => ?_
      obtain ⟨-, h₂⟩ := h₂
      cases r with
      | none =>
        obtain ⟨h₂, hslot⟩ := h₂
        rw [hslot]
        refine (ends_strains (ends_iunlockput h₂)).bind fun _ s3 h₃ => ?_
        obtain ⟨D3, h₃, hput⟩ := h₃
        exact ⟨D3, h₃, fun hF => ⟨hput.eq_of_ready h₂ (hD.quiet hF) mem_cons_self, rfl⟩⟩
      | some r =>
        obtain ⟨k, j⟩ := r
        obtain ⟨h₂, hslot⟩ := h₂
        rw [hslot]
        refine (ends_strains (ends_iunlockput_found h₂)).bind fun _ s3 h₃ => ?_
        obtain ⟨D3, h₃, hput⟩ := h₃
        have heq : Fine → D3 = D := fun hF => hput.eq_of_ready h₂ (hD.quiet hF) (by simp)
        have hlive : Safe → (D3 (inumAt (D n).dirents k)).type ≠ .free := fun hS => by
          rw [heq (hD.fine hS)]
          exact (hD.live hS).slot hdir hslot
        refine (ih rest h₃ (hD.congr heq) hlive).mono (fun r s4 h4 => ?_) fun _ hx => hx
        cases r with
        | none =>
          obtain ⟨D4, h4, hF4⟩ := h4
          exact ⟨D4, h4, fun hF => heq hF ▸ hF4 hF⟩
        | some r =>
          obtain ⟨D4, m, h4, hF4, hS4⟩ := h4
          exact ⟨D4, m, h4, fun hF => heq hF ▸ hF4 hF, hS4⟩

/-- `namex` walks as the disk says. -/
theorem ends_namex (h : Held K o H [] D s) (hD : Assumed Fine Safe K.Has D)
    (hc : 0 < K.count cwd) (path : List UInt8) (parent : Bool) : Ends (namex cwd path parent) s
      (Found Fine Safe K o H D (D.walk parent path.length (Disk.start (K.inum cwd) path) path))
      (Strains Safe) := by
  unfold namex Disk.start
  split
  · refine (ends_strains (ends_iget h ROOTINO)).bind fun i s1 h₁ => ?_
    exact ends_namexLoop parent _ path h₁ hD fun hS => (hD.live hS).root
  have hpos : 0 < (s.entry cwd).ref := by rw [(h.fits cwd).refs]; omega
  refine (ends_strains (ends_idup h hpos)).bind fun i s1 h₁ => ?_
  obtain ⟨rfl, h₁⟩ := h₁
  rw [(h.fits i).kept hc] at h₁
  exact ends_namexLoop parent _ path h₁ hD fun hS => (hD.live hS).used _ ⟨i, hc, rfl⟩

/-- `nameiparent` finds the directory. -/
theorem ends_nameiparent (h : Held K o H [] D s) (hD : Assumed Fine Safe K.Has D)
    (hc : 0 < K.count cwd) (path : List UInt8) :
    Ends (nameiparent cwd path) s (Found Fine Safe K o H D (D.parent (K.inum cwd) path))
      (Strains Safe) := ends_namex h hD hc path true

/-- `namei` finds the inode. -/
theorem ends_namei (h : Held K o H [] D s) (hD : Assumed Fine Safe K.Has D)
    (hc : 0 < K.count cwd) (path : List UInt8) : Ends (namei cwd path) s (fun r s' =>
      match r with
      | none => ∃ D', Held K o H [] D' s' ∧ (Fine → D' = D)
      | some i => ∃ D' n, Held K o ((i, n) :: H) [] D' s' ∧
          (Fine → D' = D ∧ D.find (K.inum cwd) path = some n) ∧ (Safe → (D' n).type ≠ .free))
      (Strains Safe) := by
  refine (ends_namex h hD hc path false).bind fun r s1 h₁ => ?_
  cases r with
  | none =>
    obtain ⟨D1, h₁, hF⟩ := h₁
    exact ⟨D1, h₁, fun hf => (hF hf).1⟩
  | some r =>
    obtain ⟨i, name⟩ := r
    obtain ⟨D1, n, h₁, hF, hS⟩ := h₁
    exact ⟨D1, n, h₁, fun hf => ⟨(hF hf).1, by rw [Disk.find, (hF hf).2]; rfl⟩, hS⟩

/-! ## Changes of the disk -/

/-- The records of an inode are changed. -/
theorem Held.changeDisk (h : Held K o H L D s)
    (hD : ∀ m, (E m).type = (D m).type ∧ (E m).nlink = (D m).nlink) :
    Held K o H L E { s with disk := E } where
  fits i := (h.fits i).frame (fun _ => Iff.rfl) rfl Iff.rfl fun _ _ => hD _
  unique := h.unique
  nodup := h.nodup
  disk := rfl
  ops := h.ops
  ninodes := h.ninodes

/-- `iupdate` of an inode whose entry is as on disk. -/
theorem ends_iupdate (h : Held K o H L D s) (hi : i ∈ L) (hn : (i, n) ∈ H) :
    Ends (iupdate i) s (fun _ s' => Held K o H L D s') Full := by
  obtain ⟨hnum, htype, hnlink, -⟩ := h.locked_eq hi hn
  unfold iupdate
  rw [ends_get_bind, hnum, htype, hnlink, modifyInode, ends_modify, h.disk]
  have := h.changeDisk (E := update D n (D n)) fun m => by simp
  simpa using this

theorem ends_setLinks (h : Held K o H L D s) (hi : i ∈ L) (hn : (i, n) ∈ H) (f : Int → Int) :
    Ends (setLinks i f) s (fun _ s' => Held K o H L (D.relink n (f (D n).nlink)) s') Full := by
  have hf := h.fits i
  obtain ⟨hnum, htype, hnlink, hnone⟩ := h.locked_eq hi hn
  have hpos := h.ref_pos hn
  have hchange : Held K o H L (D.relink n (f (D n).nlink)) { s with
      entry := update s.entry i { s.entry i with nlink := f (s.entry i).nlink }
      disk := D.relink n (f (D n).nlink) } := by
    refine h.change ?_ ?_ (fun _ => h.inum_ne hpos) h.nodup
    · exact {
        refs := hf.refs
        busy := hf.busy
        locked := hf.locked
        device := hf.device
        named := hf.named
        kept := hf.kept
        loaded := hf.loaded
        copied := fun _ _ => by simp [hnum, htype, hnlink, Disk.relink, hnone] }
    · intro j hj hfj
      refine hfj.frame (fun _ => Iff.rfl) rfl Iff.rfl fun hr _ => ?_
      rw [Disk.relink_apply, if_neg (hnum ▸ h.inum_ne hpos j hj hr)]
      exact ⟨rfl, rfl⟩
  unfold setLinks iupdate
  rw [modifyEntry, ends_modify_bind, ends_get_bind, modifyInode, ends_modify]
  convert hchange using 2
  simp [Disk.relink, hnum, htype, hnlink, h.disk]

theorem ends_addLinks (h : Held K o H L D s) (hi : i ∈ L) (hn : (i, n) ∈ H) (k : Int) :
    Ends (addLinks i k)
      s (fun _ s' => Held K o H L (D.relink n (short ((D n).nlink + k))) s') Full :=
  ends_setLinks h hi hn _

/-- The entry is written to the empty slot. -/
theorem ends_addEntry (h : Held K o H L D s) (hi : i ∈ L) (hn : (i, n) ∈ H)
    (name : Name) (m : Nat) :
    Ends (addEntry i name m) s (fun _ s' => Held K o H L (D.enter n name m) s') Full := by
  have hnum := (h.fits i).named n hn
  have hentered := h.changeDisk (E := D.enter n name m) fun m => by simp [Disk.enter]
  unfold addEntry
  rw [ends_get_bind]
  dsimp only
  rw [hnum, h.disk]
  split
  · exact .inr (.inr rfl)
  · rw [modifyInode, ends_modify_bind, h.disk]
    split
    · exact hentered
    · exact ends_iupdate hentered hi hn

/-- `dirlink` writes the entry if the name is new. -/
theorem ends_dirlink (h : Held K o H L D s) (hi : i ∈ L) (hn : (i, n) ∈ H) (name : Name) (m : Nat) :
    Ends (dirlink i name m) s (fun r s' => (D n).type = .dir ∧
      match r with
      | true => Held K o H L (D.enter n name m) s' ∧ slot (D n).dirents name = none
      | false => ∃ D', Held K o H L D' s' ∧ (Quiet K.Has D → D' = D) ∧
        slot (D n).dirents name ≠ none)
      (Lost ((D n).type = .dir)) := by
  refine (ends_dirlookup h hi hn name).bind fun r s1 h₁ => ?_
  obtain ⟨hdir, h₁⟩ := h₁
  cases r with
  | none =>
    refine ((ends_addEntry h₁.1 hi hn name m).mono (fun _ _ hq => hq) fun _ hx => .inl hx).bind
      fun _ s2 h₂ => ?_
    exact ⟨hdir, h₂, h₁.2⟩
  | some r =>
    obtain ⟨k, j⟩ := r
    have hlocked : j ∈ L → 0 < H.to j := fun hj => ((h.fits j).locked hj).1
    refine ((ends_iput h₁.1 hlocked).mono (fun _ _ hq => hq) fun _ hx => .inl hx).bind
      fun _ s2 h₂ => ?_
    obtain ⟨D2, h₂, hput⟩ := h₂
    exact ⟨hdir, D2, h₂, fun hD => hput.eq_of_ready h₁.1 hD mem_cons_self, by simp [h₁.2]⟩

/-- `ialloc` finds a free inode. -/
theorem ends_ialloc (h : Held K o H L D s) (t : FileType) :
    Ends (ialloc ROOTDEV t) s (fun j s' => ∃ n, 1 ≤ n ∧ n < K.ninodes ∧ (D n).type = .free ∧
      Held K o ((j, n) :: H) L (update D n ⟨t, 0, []⟩) s') Full := by
  unfold ialloc
  rw [ends_get_bind]
  split
  · exact .inr (.inl rfl)
  next n hfind =>
  have hn : 1 ≤ n ∧ (s.disk n).type = .free := by simpa using List.find?_some hfind
  have hlt : n < s.ninodes := mem_range.1 (mem_of_find?_eq_some hfind)
  rw [h.ninodes] at hlt
  rw [h.disk] at hn
  -- an entry of a free inode has not been read
  have hmade : Held K o H L (update D n ⟨t, 0, []⟩)
      { s with disk := update D n ⟨t, 0, []⟩ } := {
    fits := fun i => (h.fits i).frame (fun _ => Iff.rfl) rfl Iff.rfl fun hr hv => by
      have hne : (s.entry i).inum ≠ n := by
        intro he
        obtain ⟨h1, -, h3⟩ := (h.fits i).copied hr hv
        rw [h1, he, hn.2] at h3
        exact h3 rfl
      simp [hne]
    unique := h.unique
    nodup := h.nodup
    disk := rfl
    ops := h.ops
    ninodes := h.ninodes }
  rw [modifyInode, ends_modify_bind, h.disk]
  exact (ends_iget hmade n).mono (fun j s1 h₁ => ⟨n, hn.1, hlt, hn.2, h₁⟩) fun _ hx => hx

end Msboss.Inodes
