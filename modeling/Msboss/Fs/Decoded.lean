import Msboss.Fs.Paths
import Msboss.Inodes.Disk

/-!
# The two models of directories

In `Inodes` a directory is a list of records, here it is bytes in blocks. The inodes that the blocks
stand for are `State.inodes`. A path leads to the same inode in both models (`namex_inodes`), and a
record that is written into the blocks is written into the list (`State.Entered.slots`), by
`dirlink` at the same place (`addDirent_inodes`). Records not in use may differ in their names.
-/

namespace Msboss.Fs

open List State
open Inodes (Name Dirent skipelem)

/-- The inodes that the blocks stand for. -/
def State.inodes (s : State) : Inodes.Disk := fun n =>
  { type := (s.dinode n).type
    nlink := (s.dinode n).nlink
    dirents := (List.range ((s.dinode n).size / 16)).map (s.record n) }

section
variable {s t : State} {path : List UInt8} {name : Name}

/-- The searches of the two models go through the same records. -/
theorem findIdx?_inodes (p : Dirent → Bool) :
    (s.inodes d).dirents.findIdx? p = s.findRecord d p 0 := by
  unfold State.findRecord
  rw [Nat.sub_zero, ← range_eq_range']
  refine Option.ext fun k => ?_
  rw [findIdx?_eq_some_iff_getElem, find?_range_eq_some]
  simp [State.inodes]

/-- `dirlookup` finds a name at the same record. -/
theorem slot_inodes (hname : 0 ∉ name) (hlen : name.length ≤ DIRSIZ) :
    Inodes.slot (s.inodes d).dirents name = s.lookup d name := by
  unfold Inodes.slot State.lookup
  rw [findIdx?_inodes]
  unfold State.findRecord
  congr 1
  funext k
  rw [decide_eq_decide, namecmp_record_iff hname, take_of_length_le hlen]

/-- The inode number in a record. -/
theorem inumAt_inodes (hk : k < (s.dinode d).size / 16) :
    Inodes.inumAt (s.inodes d).dirents k = (s.record d k).inum := by
  simp [Inodes.inumAt, State.inodes, getElem?_range hk]

/-- A path leads to the same inode. -/
theorem walk_inodes (hpath : 0 ∉ path) (parent : Bool) (fuel : Nat) :
    s.inodes.walk parent fuel ip path = s.walk parent fuel ip path := by
  induction fuel generalizing ip path with
  | zero => rfl
  | succ fuel ih =>
    rw [Inodes.Disk.walk, State.walk]
    cases h : skipelem path with
    | none => rfl
    | some r =>
      obtain ⟨name, rest⟩ := r
      obtain ⟨hname, hrest, hlen⟩ := skipelem_subset h
      refine if_congr Iff.rfl rfl (if_congr Iff.rfl rfl ?_)
      rw [slot_inodes (fun h0 => hpath (hname h0)) hlen, State.child]
      cases hl : s.lookup ip name with
      | none => rfl
      | some k =>
        dsimp only
        rw [inumAt_inodes (findRecord_some hl).1]
        exact ih fun h0 => hpath (hrest h0)

/-- **`namex` returns what the lookup in the decoded inodes gives**, and leaves them as they are. -/
theorem namex_inodes (hG : s.Graph cwd) (hpath : 0 ∉ path) (parent : Bool) :
    ∃ s', namex cwd path parent s = .ok (s.inodes.walk parent path.length
      (Inodes.Disk.start cwd path) path, s') ∧ s'.inodes = s.inodes := by
  obtain ⟨s', hok, halong⟩ := ends_namex_graph hG path parent
  refine ⟨s', ?_, ?_⟩
  · rw [hok, walk_inodes hpath]
    rfl
  · unfold State.inodes
    rw [halong.dinode, halong.record]

/-- The records in use. -/
theorem slots_inodes (s : State) (dp : Nat) : (s.inodes dp).dirents.map Dirent.slot =
    (List.range ((s.dinode dp).size / 16)).map (s.entry dp) := by
  rw [State.inodes, map_map]
  refine map_congr_left fun k _ => ?_
  rw [Function.comp_apply, Dirent.slot, take_of_length_le length_record_le]
  rfl

/-- The record that is written into the blocks is written into the list. -/
theorem State.Entered.slots (h : s.Entered dp k de t) : (t.inodes dp).dirents.map Dirent.slot =
    (Inodes.put (s.inodes dp).dirents k de).map Dirent.slot := by
  obtain ⟨hle, hcount, hself, hother⟩ := h.put
  have hlen : (s.inodes dp).dirents.length = (s.dinode dp).size / 16 := by simp [State.inodes]
  unfold Inodes.put
  rw [hlen]
  split
  · next hk =>
    rw [map_set, slots_inodes, slots_inodes, hcount, Nat.max_eq_left hk]
    refine ext_getElem (by simp) fun j h1 h2 => ?_
    rw [length_map, length_range] at h1
    rw [getElem_set, getElem_map, getElem_map, getElem_range]
    split
    · next hj => rw [← hj, hself]
    · next hj => exact hother j h1 (Ne.symm hj)
  · next hk =>
    obtain rfl : k = (s.dinode dp).size / 16 := by omega
    rw [map_append, slots_inodes, slots_inodes, hcount, Nat.max_eq_right (Nat.le_succ _),
      range_succ, map_append, map_singleton, hself]
    congr 1
    exact map_congr_left fun j hj => hother j (mem_range.1 hj) (mem_range.1 hj).ne

/-- `dirlink` takes the same record. -/
theorem emptySlot_inodes : Inodes.emptySlot (s.inodes d).dirents = s.vacant d := by
  unfold Inodes.emptySlot State.vacant
  rw [← findIdx?_inodes, findIdx_eq_getD_findIdx?]
  simp [State.inodes]

/-- **The record that `dirlink` writes** is the entry that it makes in the decoded inodes. -/
theorem addDirent_inodes (h : s.IsDir dp) (hname : 0 ∉ name) (hinum : inum < 2 ^ 16) :
    Ends (addDirent dp name inum) s (fun _ t => (t.inodes dp).dirents.map Dirent.slot =
      (s.inodes.enter dp name inum dp).dirents.map Dirent.slot)
      fun _ => ¬ s.Room dp (s.vacant dp) := by
  refine (ends_addDirent h hname hinum).mono (fun _ t ht => ?_) fun _ => id
  rw [ht.slots, Inodes.Disk.enter, Inodes.Disk.rewrite_apply, if_pos rfl, emptySlot_inodes,
    Nat.mod_eq_of_lt hinum]

end

end Msboss.Fs
