import Msboss.Fs.Lookups
import Msboss.Fs.Writes
import Msboss.Lib.Slots

/-!
# Directories are maps

The records of a directory are slots (`State.entry`), and the names of those in use are distinct, as
far as they are compared. `dirlink` adds a name to the directory unless it is there, in the first
record that is not in use or behind the last; `sys_unlink` clears the record of a name. Every other
name is at the record at which it was (`directory_map`).
-/

namespace Msboss.Fs

open Function State List
open Inodes (Name Dirent)

/-! ## Names -/

theorem toNat_ne_zero {p : List UInt8} (h : 0 ∉ c :: p) : c.toNat ≠ 0 := by
  intro hc
  have hzero : c = 0 := UInt8.toNat_inj.1 hc
  exact h (hzero ▸ mem_cons_self)

/-- Strings are equal for `strncmp` when they are up to the length. -/
theorem strncmp_eq_zero_iff {p q : List UInt8} (hp : 0 ∉ p) (hq : 0 ∉ q) (n : Nat) :
    strncmp p q n = 0 ↔ p.take n = q.take n := by
  induction n generalizing p q with
  | zero => simp [strncmp]
  | succ n ih =>
    cases p with
    | nil =>
      cases q with
      | nil => simp [strncmp]
      | cons d q => simp [strncmp, toNat_ne_zero hq]
    | cons c p =>
      cases q with
      | nil => simp [strncmp, toNat_ne_zero hp]
      | cons d q =>
        unfold strncmp
        split
        · next heq =>
          obtain rfl : d = c := by simpa using heq
          rw [tail_cons, ih (fun h => hp (.tail _ h)) fun h => hq (.tail _ h)]
          simp
        next hne =>
        have hne : ¬ c = d := fun h => hne (by rw [h]; rfl)
        have hsub : ¬ (c.toNat : Int) - d.toNat = 0 :=
          fun h => hne (UInt8.toNat_inj.1 (by omega))
        simp [hne, hsub]

theorem namecmp_eq_zero_iff (hs : 0 ∉ s) (ht : 0 ∉ t) :
    namecmp s t = 0 ↔ s.take DIRSIZ = t.take DIRSIZ := strncmp_eq_zero_iff hs ht DIRSIZ

@[simp] theorem Dirent.length_bytes (de : Dirent) : de.bytes.length = 16 := by
  simp [Dirent.bytes, DIRSIZ]

/-- A record is read as it was written, with the name cut off. -/
theorem Dirent.ofBytes_bytes {de : Dirent} (hinum : de.inum < 65536) (hname : 0 ∉ de.name) :
    Dirent.ofBytes de.bytes = ⟨de.inum, de.name.take DIRSIZ⟩ := by
  have hleft : de.bytes.take 2 = Bytes.leBytes 2 de.inum := by
    rw [Dirent.bytes]
    exact take_left' (Bytes.length_leBytes 2 _)
  have hright : de.bytes.drop 2 = (de.name ++ replicate DIRSIZ 0).take DIRSIZ := by
    rw [Dirent.bytes]
    exact drop_left' (Bytes.length_leBytes 2 _)
  have hzero (n : Nat) : (replicate n (0 : UInt8)).takeWhile (· ≠ 0) = [] := by
    cases n <;> rfl
  have htake : ((de.name ++ replicate DIRSIZ 0).take DIRSIZ).takeWhile (· ≠ 0) =
      de.name.take DIRSIZ := by
    rw [take_append, takeWhile_append_of_pos, take_replicate, hzero, append_nil]
    intro c hc
    have hne : c ≠ 0 := fun h => hname (h ▸ mem_of_mem_take hc)
    simpa using hne
  rw [Dirent.ofBytes, hleft, hright, htake, Bytes.leNat_leBytes]
  congr 1
  omega

section
variable {s t : State} {dp d k : Nat} {name : Name}

theorem zero_notMem_record : 0 ∉ (s.record d k).name := by
  intro h
  have hpos := mem_takeWhile_imp h
  simp at hpos

theorem length_record_le : (s.record d k).name.length ≤ DIRSIZ := by
  refine (takeWhile_sublist _).length_le.trans ?_
  rw [length_drop, length_bytes_range]
  rfl

theorem namecmp_record_iff (hname : 0 ∉ name) :
    namecmp name (s.record d k).name = 0 ↔ (s.record d k).name = name.take DIRSIZ := by
  rw [namecmp_eq_zero_iff hname zero_notMem_record,
    take_of_length_le length_record_le, eq_comm]

/-- A record in use, as a name and an inode. -/
def State.entry (s : State) (d k : Nat) : Option (Name × Nat) :=
  if (s.record d k).inum = 0 then none else some ((s.record d k).name, (s.record d k).inum)

theorem entry_eq_some_iff : s.entry d k = some (key, inum) ↔
    inum ≠ 0 ∧ s.record d k = ⟨inum, key⟩ := by
  unfold State.entry
  generalize s.record d k = de
  obtain ⟨i, n⟩ := de
  split
  · next h0 =>
    have h0 : i = 0 := h0
    simp only [reduceCtorEq, Dirent.mk.injEq, false_iff]
    rintro ⟨hne, rfl, -⟩
    exact hne h0
  · next h0 =>
    have h0 : i ≠ 0 := h0
    simp only [Option.some.injEq, Prod.mk.injEq, Dirent.mk.injEq]
    constructor
    · rintro ⟨rfl, rfl⟩
      exact ⟨h0, rfl, rfl⟩
    · rintro ⟨-, rfl, rfl⟩
      exact ⟨rfl, rfl⟩

/-- The search for a name is one for its first bytes. -/
theorem lookup_eq_find (hname : 0 ∉ name) :
    s.lookup d name = Slots.find (s.entry d) ((s.dinode d).size / 16) (name.take DIRSIZ) := by
  unfold State.lookup State.findRecord Slots.find
  rw [Nat.sub_zero, ← range_eq_range']
  congr 1
  funext j
  unfold State.entry
  rw [decide_eq_decide, namecmp_record_iff hname]
  split
  · next h0 => simp [h0]
  · next h0 => simp [h0]

/-! ## A directory in use -/

/-- A locked directory of whole records with distinct names. -/
structure State.IsDir (s : State) (dp : Nat) : Prop where
  sound : s.Sound
  locked : s.Locked dp
  type : (s.inode dp).type = .dir
  whole : 16 ∣ (s.dinode dp).size
  distinct : Slots.Distinct (s.entry dp) ((s.dinode dp).size / 16)

/-- What `dirlookup` finds: the offset of a record and its inode. -/
def State.found (s : State) (dp : Nat) (name : Name) : Option (Nat × Nat) :=
  (s.lookup dp name).map fun k => (16 * k, (s.record dp k).inum)

/-- The cache as it was, but for inodes that are not in use. -/
structure State.Undisturbed (s s' : State) : Prop extends s.SameDisk s' where
  inode : s'.inode = s.inode
  ref : s'.ref = s.ref
  valid : ∀ i, 0 < s.ref i → s'.valid i = s.valid i

theorem State.SameDisk.entry (h : s.SameDisk t) : t.entry = s.entry := by
  unfold State.entry
  rw [h.record]

theorem State.SameDisk.found (h : s.SameDisk t) : t.found = s.found := by
  unfold State.found State.lookup
  rw [h.findRecord, h.record]

/-- References come and go. -/
theorem State.IsDir.of_cache (h : s.IsDir dp) (hdisk : s.SameDisk t) (hinode : t.inode = s.inode)
    (hvalid : ∀ i, 0 < t.ref i → t.valid i = true → 0 < s.ref i ∧ s.valid i = true)
    (href : 0 < t.ref dp) (hself : t.valid dp = true) : t.IsDir dp where
  sound := by
    refine h.sound.of_disk hdisk.sb hdisk.block fun i hi hr hv => ?_
    obtain ⟨hr, hv⟩ := hvalid i hr hv
    rw [hinode, hdisk.dinode]
    exact h.sound.cached i (hdisk.sb ▸ hi) hr hv
  locked := ⟨by rw [hdisk.sb]; exact h.locked.lt, href, hself⟩
  type := by rw [hinode]; exact h.type
  whole := by rw [hdisk.dinode]; exact h.whole
  distinct := by
    rw [hdisk.entry, hdisk.dinode]
    exact h.distinct

theorem State.Undisturbed.isDir (hu : s.Undisturbed t) (h : s.IsDir dp) : t.IsDir dp := by
  refine h.of_cache hu.toSameDisk hu.inode (fun i hr hv => ?_) ?_ ?_
  · rw [hu.ref] at hr
    exact ⟨hr, hu.valid i hr ▸ hv⟩
  · rw [hu.ref]
    exact h.locked.ref
  · rw [hu.valid dp h.locked.ref]
    exact h.locked.valid

/-- The state after `iget`. -/
def State.got (s : State) (i : Nat) : State :=
  if s.ref i > 0 then { s with ref := update s.ref i (s.ref i + 1) }
  else { s with ref := update s.ref i 1, valid := update s.valid i false }

theorem iget_eq (s : State) (i : Nat) : iget i s = .ok i (s.got i) := by
  change (if s.ref i > 0 then _ else _ : M Nat) s = _
  unfold got
  split <;> rfl

/-- A new reference: to an inode in use, or to one that is yet to be read. -/
structure State.Got (s : State) (i : Nat) (s' : State) : Prop extends s.SameDisk s' where
  inode : s'.inode = s.inode
  ref : s'.ref = update s.ref i (s.ref i + 1)
  valid : ∀ j, 0 < s.ref j → s'.valid j = s.valid j
  fresh : s.ref i = 0 → s'.valid i = false
  others : ∀ j ≠ i, s'.valid j = s.valid j

theorem got_got (s : State) (i : Nat) : s.Got i (s.got i) := by
  unfold got
  split
  · next h => exact ⟨⟨rfl, rfl⟩, rfl, rfl, fun _ _ => rfl, fun h0 => absurd h0 h.ne',
      fun _ _ => rfl⟩
  next h =>
  have h0 : s.ref i = 0 := by omega
  refine ⟨⟨rfl, rfl⟩, rfl, by rw [h0], fun j hj => ?_, fun _ => update_self .., fun j hj => ?_⟩
  · have hne : j ≠ i := by
      rintro rfl
      exact h hj
    exact update_of_ne hne _ _
  · exact update_of_ne hj _ _

theorem State.Got.isDir (hg : s.Got i t) (h : s.IsDir dp) : t.IsDir dp := by
  refine h.of_cache hg.toSameDisk hg.inode (fun j hr hv => ?_) ?_ ?_
  · rw [hg.ref] at hr
    rcases eq_or_ne j i with rfl | hne
    · rcases Nat.eq_zero_or_pos (s.ref j) with h0 | hpos
      · rw [hg.fresh h0] at hv
        cases hv
      · exact ⟨hpos, hg.valid j hpos ▸ hv⟩
    · rw [update_of_ne hne] at hr
      exact ⟨hr, hg.others j hne ▸ hv⟩
  · rw [hg.ref]
    rcases eq_or_ne dp i with rfl | hne
    · rw [update_self]
      omega
    · rw [update_of_ne hne]
      exact h.locked.ref
  · rw [hg.valid dp h.locked.ref]
    exact h.locked.valid

/-- A reference that was got is put again; the inode is not freed by this. -/
theorem leaves_iput_got (href : 2 ≤ s.ref i ∨ s.valid i = false) :
    Leaves (iput i) s (fun _ s' => s' = { s with ref := update s.ref i (s.ref i - 1) }) E := by
  have hno : ¬ (s.ref i = 1 ∧ s.valid i = true ∧ (s.inode i).nlink = 0) := by
    rintro ⟨h1, hv, -⟩
    rcases href with h2 | hv'
    · omega
    · rw [hv] at hv'
      cases hv'
  unfold iput
  rw [leaves_get_bind, if_neg hno]
  rfl

/-- The reference that was got can be put, and is the last to an inode only if that was not read. -/
theorem State.Got.last (hg : s.Got i t) : 2 ≤ t.ref i ∨ t.valid i = false := by
  rcases Nat.eq_zero_or_pos (s.ref i) with h0 | hpos
  · exact .inr (hg.fresh h0)
  · refine .inl ?_
    rw [hg.ref, update_self]
    omega

theorem State.Got.put (hg : s.Got i t) : update t.ref i (t.ref i - 1) = s.ref := by
  rw [hg.ref, update_self, update_idem, Nat.add_sub_cancel, update_eq_self]

/-- `dirlookup` in a directory. -/
theorem ends_dirlookup_found (h : s.IsDir dp) : Ends (dirlookup dp name) s
    (fun r s' => r = s.found dp name ∧ match s.found dp name with
      | none => ∃ mem stores, s' = { s with mem, stores }
      | some (_, ip) => s.Got ip s') fun _ => False := by
  have hdev : (s.inode dp).type ≠ .dev := by
    rw [h.type]
    nofun
  unfold dirlookup
  rw [ends_get_bind, if_neg (not_not.2 h.type)]
  refine ((ends_scanAll (k := 0) h.sound h.locked hdev).mono (fun _ _ => id) fun _ he =>
    absurd h.whole he.2).bind ?_
  rintro r _ ⟨rfl, mem, stores, rfl⟩
  unfold State.found State.lookup
  cases s.findRecord dp (fun de => de.inum ≠ 0 ∧ namecmp name de.name = 0) 0 with
  | none => exact ⟨rfl, mem, stores, rfl⟩
  | some k =>
    refine (ends_lower (c := iget (s.record dp k).inum)
      (Q := fun r t => r = (s.record dp k).inum ∧ s.Got (s.record dp k).inum t) ?_).bind ?_
    · unfold Leaves
      rw [iget_eq]
      obtain ⟨⟨hsb, hblock⟩, hinode, href, hvalid, hfresh, hothers⟩ :=
        got_got { s with mem, stores } (s.record dp k).inum
      exact ⟨rfl, ⟨hsb, hblock⟩, hinode, href, hvalid, hfresh, hothers⟩
    · rintro _ t ⟨rfl, ht⟩
      exact ⟨rfl, ht⟩

/-! ## Records that are written -/

theorem State.Written.bytes_new (h : s.Written dp src off n t) :
    t.bytes dp off n = (addresses src n).map s.mem := by
  unfold bytes addresses
  rw [map_map]
  refine map_congr_left fun j hj => ?_
  exact h.new j (mem_range.1 hj)

theorem State.Written.bytes_old (h : s.Written dp src off n t)
    (hlt : o + m ≤ (s.dinode dp).size) (hout : o + m ≤ off ∨ off + n ≤ o) :
    t.bytes dp o m = s.bytes dp o m := by
  refine map_congr_left fun j hj => ?_
  have hj := mem_range.1 hj
  exact h.old (o + j) (by omega) (by omega)

/-- The contents of a slot with the record `de`. -/
def Dirent.slot (de : Dirent) : Option (Name × Nat) :=
  if de.inum = 0 then none else some (de.name.take DIRSIZ, de.inum)

/-- The record `k` of a directory has been written. -/
structure State.Entered (s : State) (dp k : Nat) (de : Dirent) (s' : State) : Prop where
  sound : s'.Sound
  kin : s.Kin dp s'
  whole : 16 ∣ (s'.dinode dp).size
  put : Slots.Put (s.entry dp) ((s.dinode dp).size / 16) k (Dirent.slot de) (s'.entry dp)
    ((s'.dinode dp).size / 16)
  inum : (s'.record dp k).inum = de.inum

theorem State.Written.entered {de : Dirent} (h : s.Written dp DE (16 * k) 16 t)
    (hwhole : 16 ∣ (s.dinode dp).size) (hk : 16 * k ≤ (s.dinode dp).size)
    (hmem : (addresses DE 16).map s.mem = de.bytes) (hinum : de.inum < 65536)
    (hname : 0 ∉ de.name) : s.Entered dp k de t := by
  have hself : t.record dp k = ⟨de.inum, de.name.take DIRSIZ⟩ := by
    rw [State.record, h.bytes_new, hmem, Dirent.ofBytes_bytes hinum hname]
  have hsize := h.size
  refine ⟨h.sound, h.kin, by omega, ⟨by omega, by omega, ?_, fun j hj hne => ?_⟩, by rw [hself]⟩
  · rw [State.entry, hself]
    rfl
  · have hrecord : t.record dp j = s.record dp j := by
      rw [State.record, h.bytes_old (by omega) (by omega)]
      rfl
    rw [State.entry, hrecord]
    rfl

/-- There is room for the record `k` of a directory: it is in the largest file, and there are the
blocks for it. -/
def State.Room (s : State) (dp k : Nat) : Prop :=
  16 * k + 16 ≤ MAXFILE * BSIZE ∧
    s.needs dp (blocksFor (s.inode dp).size) (blocksFor (16 * k + 16)) ≤ s.freeBlocks.card

/-- A record is written into a directory that has room for it. -/
theorem ends_writeDirent_entered {panic : Stop} (h : s.IsDir dp)
    (hk : 16 * k ≤ (s.dinode dp).size) (hinum : de.inum < 65536) (hname : 0 ∉ de.name) :
    Ends (writeDirent dp (16 * k) de panic) s (fun _ s' => s.Entered dp k de s')
      fun _ => ¬ s.Room dp k := by
  have hdev : (s.inode dp).type ≠ .dev := by
    rw [h.type]
    nofun
  unfold writeDirent
  refine (ends_lower (c := store DE de.bytes) (Q := fun _ t => ∃ stores, t = { s with
    mem := storeBytes s.mem DE de.bytes, stores }) ⟨_, rfl⟩).bind ?_
  rintro _ _ ⟨stores, rfl⟩
  have hmem := map_storeBytes s.mem DE (l := de.bytes) (by rw [Dirent.length_bytes de]; decide)
  rw [Dirent.length_bytes de] at hmem
  generalize hmem' : storeBytes s.mem DE de.bytes = mem at *
  have hl : { s with mem, stores }.Locked dp := ⟨h.locked.lt, h.locked.ref, h.locked.valid⟩
  have hle : 16 * k ≤ (s.inode dp).size := by rwa [h.sound.size_eq h.locked]
  by_cases hmax : 16 * k + 16 ≤ MAXFILE * BSIZE
  swap
  · have hfails : writei dp DE (16 * k) 16 { s with mem, stores } = .ok (-1)
      { s with mem, stores } :=
      writei_fails hdev (by decide) (.inr (.inr (Nat.lt_of_not_le hmax)))
    refine (ends_lower (c := writei dp DE (16 * k) 16) (Q := fun r _ => r = -1) ?_).bind ?_
    · unfold Leaves
      rw [hfails]
    · rintro _ t rfl
      exact fun hroom => hmax hroom.1
  refine (ends_lower ((leaves_writei_bytes (h.sound.memory mem s.loads stores)
    hl hdev hle hmax).mono
    (fun _ _ => id) ?_)).bind ?_
  · rintro e _ ⟨-, hcard⟩ hroom
    exact Nat.not_lt.2 hroom.2 hcard
  rintro _ t ⟨rfl, ht⟩
  rw [if_neg (by decide)]
  obtain ⟨hsound, hkin, hwhole, hput, hin⟩ := ht.entered h.whole hk hmem hinum hname
  exact ⟨hsound, ⟨hkin.sb, hkin.ref, hkin.valid, hkin.inode, hkin.nlink, hkin.type⟩,
    hwhole, hput, hin⟩

theorem found_eq (hname : 0 ∉ name) : s.found dp name =
    (Slots.find (s.entry dp) ((s.dinode dp).size / 16) (name.take DIRSIZ)).map fun k =>
      (16 * k, (s.entry dp k).elim 0 Prod.snd) := by
  rw [State.found, lookup_eq_find hname]
  cases hfind : Slots.find (s.entry dp) ((s.dinode dp).size / 16) (name.take DIRSIZ) with
  | none => rfl
  | some k =>
    obtain ⟨-, inum, hentry⟩ := Slots.find_some hfind
    rw [Option.map_some, Option.map_some, hentry, (entry_eq_some_iff.1 hentry).2]
    rfl

theorem found_eq_none_iff (hname : 0 ∉ name) : s.found dp name = none ↔
    Slots.find (s.entry dp) ((s.dinode dp).size / 16) (name.take DIRSIZ) = none := by
  rw [found_eq hname, Option.map_eq_none_iff]

theorem State.Entered.isDir (he : s.Entered dp k de t) (h : s.IsDir dp)
    (hd : Slots.Distinct (t.entry dp) ((t.dinode dp).size / 16)) : t.IsDir dp where
  sound := he.sound
  locked := ⟨by rw [he.kin.sb]; exact h.locked.lt, by rw [he.kin.ref]; exact h.locked.ref,
    by rw [he.kin.valid]; exact h.locked.valid⟩
  type := by rw [he.kin.type]; exact h.type
  whole := he.whole
  distinct := hd

/-- The map of a directory, but for one name. -/
def State.SameBut (s : State) (dp : Nat) (name : Name) (s' : State) : Prop :=
  ∀ other, 0 ∉ other → namecmp other name ≠ 0 → s'.found dp other = s.found dp other

/-- A name at another record is found as before. -/
theorem State.Entered.found_other (he : s.Entered dp k de t) (hother : 0 ∉ other)
    (hfind : Slots.find (t.entry dp) ((t.dinode dp).size / 16) (other.take DIRSIZ) =
      Slots.find (s.entry dp) ((s.dinode dp).size / 16) (other.take DIRSIZ))
    (hk : ∀ i, s.entry dp k = some (other.take DIRSIZ, i) → (s.dinode dp).size / 16 ≤ k) :
    t.found dp other = s.found dp other := by
  rw [found_eq hother, found_eq hother, hfind]
  cases hj : Slots.find (s.entry dp) ((s.dinode dp).size / 16) (other.take DIRSIZ) with
  | none => rfl
  | some j =>
    obtain ⟨hlt, i, hentry⟩ := Slots.find_some hj
    have hjk : j ≠ k := by
      rintro rfl
      exact Nat.not_le.2 hlt (hk i hentry)
    rw [Option.map_some, Option.map_some, he.put.other j hlt hjk]

/-- A name is added. -/
theorem State.Entered.insert {inum : Nat} (he : s.Entered dp k ⟨inum, name⟩ t) (h : s.IsDir dp)
    (hname : 0 ∉ name) (hinum : inum ≠ 0) (hnone : s.found dp name = none)
    (hslot : k = (s.dinode dp).size / 16 ∨ s.entry dp k = none) :
    t.IsDir dp ∧ t.found dp name = some (16 * k, inum) ∧ s.SameBut dp name t := by
  have hput := he.put
  rw [show Dirent.slot ⟨inum, name⟩ = some (name.take DIRSIZ, inum) from if_neg hinum] at hput
  have hnone := (found_eq_none_iff hname).1 hnone
  have hfind := hput.find_insert h.distinct hnone hslot
  refine ⟨he.isDir h (hput.distinct_insert h.distinct (Slots.find_eq_none_iff.1 hnone)), ?_, ?_⟩
  · rw [found_eq hname, hfind, if_pos rfl, Option.map_some, hput.self]
    rfl
  · intro other hother hne
    rw [Ne, namecmp_eq_zero_iff hother hname] at hne
    refine he.found_other hother (by rw [hfind, if_neg hne]) fun i hentry => ?_
    rcases hslot with rfl | hslot
    · exact le_rfl
    · rw [hslot] at hentry
      cases hentry

/-- A name is removed. -/
theorem State.Entered.remove {inum : Nat} (he : s.Entered dp k ⟨0, []⟩ t) (h : s.IsDir dp)
    (hname : 0 ∉ name) (hsome : s.found dp name = some (16 * k, inum)) :
    t.IsDir dp ∧ t.found dp name = none ∧ s.SameBut dp name t := by
  have hput : Slots.Put (s.entry dp) ((s.dinode dp).size / 16) k none (t.entry dp)
    ((t.dinode dp).size / 16) := he.put
  have hk : Slots.find (s.entry dp) ((s.dinode dp).size / 16) (name.take DIRSIZ) = some k := by
    rw [found_eq hname] at hsome
    obtain ⟨j, hj, heq⟩ := Option.map_eq_some_iff.1 hsome
    rw [hj, Nat.eq_of_mul_eq_mul_left (by decide) (congrArg Prod.fst heq)]
  have hfind := hput.find_remove h.distinct hk
  refine ⟨he.isDir h (hput.distinct_remove h.distinct), ?_, ?_⟩
  · rw [found_eq_none_iff hname, hfind, if_pos rfl]
  · intro other hother hne
    rw [Ne, namecmp_eq_zero_iff hother hname] at hne
    refine he.found_other hother (by rw [hfind, if_neg hne]) fun i hentry => ?_
    obtain ⟨-, i', hentry'⟩ := Slots.find_some hk
    rw [hentry] at hentry'
    exact absurd (congrArg Prod.fst (Option.some.inj hentry')) hne

/-! ## Calls -/

/-- The removal of an entry in `sys_unlink`; whether there was one. -/
def unlinkDirent (dp : Nat) (name : Name) : D Bool := do
  match ← dirlookup dp name with
  | none => return false
  | some (off, ip) =>
    writeDirent dp off ⟨0, []⟩ .unlinkWrite
    lower (iput ip)
    return true

theorem State.IsDir.memory (h : s.IsDir dp) (mem : Nat → UInt8) (stores : List Nat) :
    { s with mem, stores }.IsDir dp :=
  h.of_cache ⟨rfl, rfl⟩ rfl (fun _ hr hv => ⟨hr, hv⟩) h.locked.ref h.locked.valid

/-- The record that `dirlink` writes to. -/
def State.vacant (s : State) (dp : Nat) : Nat :=
  (s.findRecord dp (fun de => de.inum = 0) 0).getD ((s.dinode dp).size / 16)

theorem vacant_le : 16 * s.vacant dp ≤ (s.dinode dp).size := by
  unfold vacant
  cases hf : s.findRecord dp (fun de => de.inum = 0) 0 with
  | none =>
    rw [Option.getD_none]
    omega
  | some j =>
    have := (findRecord_some hf).1
    rw [Option.getD_some]
    omega

theorem vacant_free : s.vacant dp = (s.dinode dp).size / 16 ∨ s.entry dp (s.vacant dp) = none := by
  unfold vacant
  cases hf : s.findRecord dp (fun de => de.inum = 0) 0 with
  | none => exact .inl rfl
  | some j => exact .inr (if_pos (by simpa using (findRecord_some hf).2))

/-- A name is entered. -/
theorem ends_addDirent {inum : Nat} (h : s.IsDir dp) (hname : 0 ∉ name) (hinum : inum < 65536) :
    Ends (addDirent dp name inum) s (fun _ s' => s.Entered dp (s.vacant dp) ⟨inum, name⟩ s')
      fun _ => ¬ s.Room dp (s.vacant dp) := by
  have hdev : (s.inode dp).type ≠ .dev := by
    rw [h.type]
    nofun
  unfold addDirent
  refine ((ends_scanAll (k := 0) h.sound h.locked hdev).mono (fun _ _ => id) fun _ he =>
    absurd h.whole he.2).bind ?_
  rintro _ _ ⟨rfl, mem, stores, rfl⟩
  rw [ends_get_bind]
  have hoff :
    (((s.findRecord dp (fun de => de.inum = 0) 0).map fun j => (16 * j, s.record dp j)).map
      Prod.fst).getD (((s.inode dp).size + 15) / 16 * 16) = 16 * s.vacant dp := by
    have hwhole := h.whole
    rw [h.sound.size_eq h.locked, vacant]
    cases s.findRecord dp (fun de => de.inum = 0) 0 with
    | none =>
      change ((s.dinode dp).size + 15) / 16 * 16 = 16 * ((s.dinode dp).size / 16)
      omega
    | some j => rfl
  change Ends (writeDirent dp ((((s.findRecord dp (fun de => de.inum = 0) 0).map fun j =>
    (16 * j, s.record dp j)).map Prod.fst).getD (((s.inode dp).size + 15) / 16 * 16)) ⟨inum, name⟩
      .dirlink) _ _ _
  rw [hoff]
  refine (ends_writeDirent_entered (h.memory mem stores) vacant_le hinum hname).mono ?_ fun _ => id
  rintro _ t ⟨hsound, hkin, hwhole, hput, hin⟩
  exact ⟨hsound, ⟨hkin.sb, hkin.ref, hkin.valid, hkin.inode, hkin.nlink, hkin.type⟩,
    hwhole, hput, hin⟩

/-- What `dirlink` of `name` does when it returns `r`. -/
def State.Links (s : State) (dp : Nat) (name : Name) (inum : Nat) (r : Bool) (s' : State) : Prop :=
  if r then s.found dp name = none ∧ (∃ off, s'.found dp name = some (off, inum)) ∧
    s.SameBut dp name s'
  else s.found dp name ≠ none ∧ s.Undisturbed s'

/-- What the removal of `name` does when it returns `r`. -/
def State.Unlinks (s : State) (dp : Nat) (name : Name) (r : Bool) (s' : State) : Prop :=
  if r then s.found dp name ≠ none ∧ s'.found dp name = none ∧ s.SameBut dp name s'
  else s.found dp name = none ∧ s.Undisturbed s'

theorem ends_dirlink_links {inum : Nat} (h : s.IsDir dp) (hname : 0 ∉ name) (h0 : inum ≠ 0)
    (hinum : inum < 65536) :
    Ends (dirlink dp name inum) s (fun r s' => s'.IsDir dp ∧ s.Links dp name inum r s')
      fun _ => s.found dp name = none ∧ ¬ s.Room dp (s.vacant dp) := by
  unfold dirlink
  refine ((ends_dirlookup_found h).mono (fun _ _ => id) fun _ => False.elim).bind ?_
  rintro _ t ⟨rfl, ht⟩
  cases hfound : s.found dp name with
  | none =>
    rw [hfound] at ht
    obtain ⟨mem, stores, rfl⟩ := ht
    have hs := h.memory mem stores
    refine ((ends_addDirent hs hname hinum).mono (fun _ _ => id) fun _ he => ⟨rfl, he⟩).bind ?_
    intro _ u hu
    obtain ⟨hdir, hnew, hbut⟩ := hu.insert hs hname h0 hfound vacant_free
    exact ⟨hdir, hfound, ⟨_, hnew⟩, hbut⟩
  | some r =>
    obtain ⟨off, ip⟩ := r
    rw [hfound] at ht
    refine (ends_lower (leaves_iput_got ht.last)).bind ?_
    rintro _ _ rfl
    have hsame : s.Undisturbed { t with ref := update t.ref ip (t.ref ip - 1) } :=
      ⟨⟨ht.sb, ht.block⟩, ht.inode, ht.put, ht.valid⟩
    exact ⟨hsame.isDir h, by rw [hfound]; nofun, hsame⟩

/-- There is room for a record that is there. -/
theorem State.IsDir.room (h : s.IsDir dp) (hk : k < (s.dinode dp).size / 16) : s.Room dp k := by
  have hmax := h.sound.size_le (h.sound.live h.locked)
  have hsize := h.sound.size_eq h.locked
  refine ⟨by omega, ?_⟩
  rw [(h.sound.writing h.locked).needs_eq_zero]
  · exact Nat.zero_le _
  · unfold blocksFor
    simp only [BSIZE]
    omega

theorem ends_unlinkDirent (h : s.IsDir dp) (hname : 0 ∉ name) :
    Ends (unlinkDirent dp name) s (fun r s' => s'.IsDir dp ∧ s.Unlinks dp name r s')
      fun _ => False := by
  unfold unlinkDirent
  refine (ends_dirlookup_found h).bind ?_
  rintro _ t ⟨rfl, ht⟩
  cases hfound : s.found dp name with
  | none =>
    rw [hfound] at ht
    obtain ⟨mem, stores, rfl⟩ := ht
    exact ⟨h.memory mem stores, hfound, ⟨rfl, rfl⟩, rfl, rfl, fun _ _ => rfl⟩
  | some r =>
    obtain ⟨off, ip⟩ := r
    rw [hfound] at ht
    obtain ⟨k, hk, heq⟩ := Option.map_eq_some_iff.1 hfound
    obtain ⟨hlt, -⟩ := findRecord_some hk
    obtain rfl : 16 * k = off := congrArg Prod.fst heq
    have hd := ht.isDir h
    have hdinode := ht.toSameDisk.dinode
    refine ((ends_writeDirent_entered hd (by rw [hdinode]; omega) (by decide) not_mem_nil).mono
      (fun _ _ => id) fun _ he => he (hd.room (by rw [hdinode]; exact hlt))).bind ?_
    intro _ u hu
    obtain ⟨hdu, hnone, hbut⟩ := hu.remove hd hname (by rw [ht.toSameDisk.found]; exact hfound)
    have hlast : 2 ≤ u.ref ip ∨ u.valid ip = false := by
      rw [hu.kin.ref, hu.kin.valid]
      exact ht.last
    refine (ends_lower (leaves_iput_got hlast)).bind ?_
    rintro _ _ rfl
    have hdisk : u.SameDisk { u with ref := update u.ref ip (u.ref ip - 1) } := ⟨rfl, rfl⟩
    have href : update u.ref ip (u.ref ip - 1) = s.ref := by
      rw [hu.kin.ref]
      exact ht.put
    refine ⟨hdu.of_cache hdisk rfl (fun i hr hv => ⟨?_, hv⟩) ?_ hdu.locked.valid, ?_⟩
    · have hr : 0 < update u.ref ip (u.ref ip - 1) i := hr
      rcases eq_or_ne i ip with rfl | hne
      · rw [update_self] at hr
        omega
      · rwa [update_of_ne hne] at hr
    · change 0 < update u.ref ip (u.ref ip - 1) dp
      rw [href]
      exact h.locked.ref
    · refine ⟨by rw [hfound]; nofun, by rw [hdisk.found]; exact hnone, fun other hother hne => ?_⟩
      rw [hdisk.found, hbut other hother hne, ht.toSameDisk.found]

/-- The calls that change a directory. -/
inductive EntryCall
  | dirlink (name : Name) (inum : Nat)
  | unlink (name : Name)

/-- The state after a call that returns. A name is the bytes before the zero. -/
def entryNext (dp : Nat) (s : State) : EntryCall → Option State
  | .dirlink name inum =>
    if 0 ∉ name ∧ 0 < inum ∧ inum < 65536 then
      match dirlink dp name inum s with
      | .ok (_, s') => some s'
      | .error _ => none
    else none
  | .unlink name =>
    if 0 ∉ name then
      match unlinkDirent dp name s with
      | .ok (_, s') => some s'
      | .error _ => none
    else none

/-- All sequences of calls on a directory. -/
def entrySystem (dp : Nat) : System State EntryCall := .ofNext (State.IsDir · dp) (entryNext dp)

theorem isDir_reach (h : (entrySystem dp).Reach s) : s.IsDir dp := by
  refine h.invariant (I := fun s => s.IsDir dp) (fun _ hi => hi) fun s a s' hs hst => ?_
  have hst : entryNext dp s a = some s' := hst
  unfold entryNext at hst
  cases a with
  | dirlink name inum =>
    dsimp only at hst
    split at hst
    swap
    · cases hst
    next hadm =>
    split at hst
    · next r t hok =>
      cases hst
      exact ((ends_dirlink_links hs hadm.1 hadm.2.1.ne' hadm.2.2).of_ok hok).1
    · cases hst
  | unlink name =>
    dsimp only at hst
    split at hst
    swap
    · cases hst
    next hname =>
    split at hst
    · next r t hok =>
      cases hst
      exact ((ends_unlinkDirent hs hname).of_ok hok).1
    · cases hst

/-- What is found is the record of the name, with its offset. -/
theorem State.IsDir.found_iff (h : s.IsDir dp) (hname : 0 ∉ name) :
    s.found dp name = some (off, inum) ↔ ∃ k < (s.dinode dp).size / 16, off = 16 * k ∧
      (s.record dp k).inum = inum ∧ inum ≠ 0 ∧ namecmp name (s.record dp k).name = 0 := by
  rw [State.found, lookup_eq_find hname, Option.map_eq_some_iff]
  constructor
  · rintro ⟨k, hk, heq⟩
    cases heq
    obtain ⟨hlt, i, hentry⟩ := Slots.find_some hk
    obtain ⟨h0, hrec⟩ := entry_eq_some_iff.1 hentry
    refine ⟨k, hlt, rfl, rfl, ?_, (namecmp_record_iff hname).2 ?_⟩ <;> rw [hrec]
    exact h0
  · rintro ⟨k, hlt, rfl, rfl, h0, hk⟩
    refine ⟨k, (Slots.find_eq_some_iff h.distinct).2 ⟨hlt, (s.record dp k).inum, ?_⟩, rfl⟩
    rw [entry_eq_some_iff, ← (namecmp_record_iff hname).1 hk]
    exact ⟨h0, rfl⟩

/-- After every sequence of calls, a directory is a map of names as far as they are compared. No two
records in use have one name; `dirlookup` finds the record of the name; `dirlink` fails, and changes
nothing, exactly when the name is there, and otherwise adds it; a removal takes the name out; and
neither changes what is found under another name. -/
theorem directory_map (h : (entrySystem dp).Reach s) :
    (∀ i < (s.dinode dp).size / 16, ∀ j < (s.dinode dp).size / 16, (s.record dp i).inum ≠ 0 →
      (s.record dp j).inum ≠ 0 → namecmp (s.record dp i).name (s.record dp j).name = 0 → i = j) ∧
    ∀ name, 0 ∉ name → (∃ s', dirlookup dp name s = .ok (s.found dp name, s')) ∧
      (∀ off inum, s.found dp name = some (off, inum) ↔ ∃ k < (s.dinode dp).size / 16,
        off = 16 * k ∧
        (s.record dp k).inum = inum ∧ inum ≠ 0 ∧ namecmp name (s.record dp k).name = 0) ∧
      (∀ inum, 0 < inum → inum < 65536 → (s.found dp name ≠ none ∨ s.Room dp (s.vacant dp) →
          ∃ r s', dirlink dp name inum s = .ok (r, s')) ∧
        ∀ r s', dirlink dp name inum s = .ok (r, s') → s.Links dp name inum r s') ∧
      ∃ r s', unlinkDirent dp name s = .ok (r, s') ∧ s.Unlinks dp name r s' := by
  have hd := isDir_reach h
  refine ⟨fun i hi j hj h0 h0' hcmp => ?_,
    fun name hname => ⟨?_, fun _ _ => hd.found_iff hname, ?_, ?_⟩⟩
  · rw [namecmp_eq_zero_iff zero_notMem_record zero_notMem_record,
      take_of_length_le length_record_le, take_of_length_le length_record_le] at hcmp
    have hentry : s.entry dp i = some ((s.record dp j).name, (s.record dp i).inum) :=
      entry_eq_some_iff.2 ⟨h0, by rw [← hcmp]⟩
    exact hd.distinct i hi j hj _ _ _ hentry (entry_eq_some_iff.2 ⟨h0', rfl⟩)
  · obtain ⟨r, s', hok, hr, -⟩ := (ends_dirlookup_found hd).exists_ok
    exact ⟨s', by rw [← hr]; exact hok⟩
  · intro inum hpos hlt
    have hends := ends_dirlink_links hd hname hpos.ne' hlt
    refine ⟨fun hroom => ?_, fun r s' hok => (hends.of_ok hok).2⟩
    obtain ⟨r, s', hok, -⟩ := (hends.mono (fun _ _ => id) fun _ he =>
      hroom.elim (absurd he.1) (absurd · he.2)).exists_ok
    exact ⟨r, s', hok⟩
  · obtain ⟨r, s', hok, -, hun⟩ := (ends_unlinkDirent hd hname).exists_ok
    exact ⟨r, s', hok, hun⟩

/-- A name is entered into an empty directory, and cannot be entered again. -/
theorem directory_map_again : ∃ s s' : State, (entrySystem 1).Reach s ∧
    s.found 1 [97] = some (0, 5) ∧ dirlink 1 [97] 7 s = .ok (false, s') ∧ s.Undisturbed s' := by
  obtain ⟨s, hreach, hlt, href, hvalid, htype, hsize, hnext⟩ := system.exists_run next emptyDisk
    [.ialloc .dir, .iupdate 1 0 0 1]
    (Q := fun s => 1 < s.sb.ninodes ∧ 0 < s.ref 1 ∧ s.valid 1 = true ∧ (s.inode 1).type = .dir ∧
      (s.dinode 1).size = 0 ∧ (entryNext 1 s (.dirlink [97] 5)).map (fun t => t.found 1 [97]) =
        some (some (0, 5)))
    rfl emptyDisk_fresh (by decide +kernel)
  have hdir : s.IsDir 1 := by
    refine ⟨sound_reach hreach, ⟨hlt, href, hvalid⟩, htype, ?_, fun i hi => ?_⟩ <;> rw [hsize] at *
    · exact dvd_zero 16
    · exact absurd hi (Nat.not_lt_zero i)
  obtain ⟨t, ht, hfound⟩ := Option.map_eq_some_iff.1 hnext
  have hstart : (entrySystem 1).Reach s := .init hdir
  have hreach' : (entrySystem 1).Reach t := hstart.step ht
  have hthere : t.found 1 [97] ≠ none := by
    rw [hfound]
    nofun
  obtain ⟨-, -, hlink, -⟩ := (directory_map hreach').2 [97] (by decide)
  obtain ⟨hreturns, hlinks⟩ := hlink 7 (by decide) (by decide)
  obtain ⟨r, t', hok⟩ := hreturns (.inl hthere)
  have hr := hlinks r t' hok
  cases r with
  | true => exact absurd hr.1 hthere
  | false => exact ⟨t, t', hreach', hfound, hok, hr.2⟩

end

end Msboss.Fs
