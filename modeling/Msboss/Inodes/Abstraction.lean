import Msboss.Inodes.Effects
import Msboss.Inodes.Tree

/-!
# From the disk to the tree

The tree of a disk, and that the changes of `Inodes.Disk` are those of `Inodes.Tree` on it.
-/

namespace Msboss.Inodes

open Fs (FileType)

/-- The tree of a disk. -/
def Disk.tree (D : Disk) : Tree where
  kind n := (D n).type
  links n := (D n).nlink
  up n := if (D n).type = .dir then inumAt (D n).dirents 1 else 0
  ents d n := if (D d).type = .dir ∧ n ≠ 0 then
    ((D d).dirents.drop 2).countP (fun e => decide (e.inum = n)) else 0

/-- Every directory starts with its dots and has no others. -/
def Dotted (D : Disk) : Prop :=
  ∀ d, (D d).type = .dir → ∃ p rest, (D d).dirents = ⟨d, dot⟩ :: ⟨p, dotdot⟩ :: rest ∧ d ≠ 0 ∧
    p ≠ 0 ∧ ∀ e ∈ rest, e.inum ≠ 0 → e.name ≠ dot ∧ e.name ≠ dotdot

/-! ## Records -/

/-- An entry in use is not the empty slot. -/
theorem emptySlot_cons (he : e.inum ≠ 0) (l : List Dirent) :
    emptySlot (e :: l) = emptySlot l + 1 := by
  simp [emptySlot, List.findIdx_cons, he]

theorem put_succ (e x : Dirent) (l : List Dirent) (k : Nat) :
    put (e :: l) (k + 1) x = e :: put l k x := by
  unfold put
  by_cases hk : k < l.length
  · rw [if_pos (by simpa using hk), if_pos hk, List.set_cons_succ]
  · rw [if_neg (by simpa using hk), if_neg hk, List.cons_append]

/-- A record is put where none was. -/
theorem countP_put (x : Dirent) (hm : m ≠ 0) : ∀ l : List Dirent,
    (put l (emptySlot l) x).countP (fun e => decide (e.inum = m)) =
      l.countP (fun e => decide (e.inum = m)) + if x.inum = m then 1 else 0 := by
  intro l
  induction l with
  | nil => by_cases hx : x.inum = m <;> simp [put, emptySlot, hx]
  | cons e l ih =>
    by_cases he : e.inum = 0
    · have hslot : emptySlot (e :: l) = 0 := by simp [emptySlot, List.findIdx_cons, he]
      have hne : ¬ (0 : Nat) = m := fun h => hm h.symm
      rw [hslot]
      by_cases hx : x.inum = m <;> simp [put, he, hx, hne]
    · rw [emptySlot_cons he, put_succ, List.countP_cons, List.countP_cons, ih]
      omega

/-- The entries after one is put in place. -/
theorem mem_put (h : e ∈ put l k x) : e ∈ l ∨ e = x := by
  unfold put at h
  split at h
  · exact (List.mem_or_eq_of_mem_set h)
  · simpa using h

/-- A record is cleared. -/
theorem countP_set (hm : m ≠ 0) : ∀ {l : List Dirent} {k : Nat} {e : Dirent},
    l[k]? = some e → (l.set k ⟨0, []⟩).countP (fun e => decide (e.inum = m)) +
      (if e.inum = m then 1 else 0) = l.countP (fun e => decide (e.inum = m)) := by
  intro l
  induction l with
  | nil => intro k e he; cases he
  | cons x l ih =>
    intro k e he
    cases k with
    | zero =>
      have hne : ¬ (0 : Nat) = m := fun h => hm h.symm
      obtain rfl : x = e := by simpa using he
      by_cases hx : x.inum = m <;> simp [hx, hne]
    | succ k =>
      rw [List.set_cons_succ, List.countP_cons, List.countP_cons]
      have := ih (k := k) (by simpa using he)
      omega

/-! ## Directories with dots -/

variable {D : Disk} {d n m k : Nat} {name : Name} {t : FileType}

/-- A name that is not there is not a dot. -/
theorem Dotted.name_of_none (h : Dotted D) (hd : (D d).type = .dir)
    (hslot : slot (D d).dirents name = none) : name ≠ dot ∧ name ≠ dotdot := by
  obtain ⟨p, rest, hl, hd0, hp, -⟩ := h d hd
  rw [hl] at hslot
  have := List.findIdx?_eq_none_iff.1 hslot
  simp only [List.mem_cons, ne_eq, decide_eq_false_iff_not, not_and] at this
  exact ⟨fun he => this _ (.inl rfl) hd0 he.symm, fun he => this _ (.inr (.inl rfl)) hp he.symm⟩

/-- Another name is found after the dots. -/
theorem Dotted.slot_of_some (h : Dotted D) (hd : (D d).type = .dir) (h1 : name ≠ dot)
    (h2 : name ≠ dotdot) (hslot : slot (D d).dirents name = some k) : 2 ≤ k := by
  obtain ⟨p, rest, hl, -⟩ := h d hd
  obtain ⟨e, -, -, hname, hk, -⟩ := inumAt_slot hslot
  rw [hl] at hk
  match k with
  | 0 =>
    obtain rfl : (⟨d, dot⟩ : Dirent) = e := by simpa using hk
    exact absurd hname.symm h1
  | 1 =>
    obtain rfl : (⟨p, dotdot⟩ : Dirent) = e := by simpa using hk
    exact absurd hname.symm h2
  | k + 2 => omega

theorem Disk.enter_apply (D : Disk) (d : Nat) (name : Name) (n m : Nat) :
    D.enter d name n m = if m = d then
      { D d with dirents := put (D d).dirents (emptySlot (D d).dirents) ⟨n % 2 ^ 16, name⟩ }
    else D m := Disk.rewrite_apply _ _ _ _

/-- The records of a directory after an entry is added. -/
theorem Dotted.put (h : Dotted D) (hd : (D d).type = .dir) (x : Dirent) :
    ∃ p rest, (D d).dirents = ⟨d, dot⟩ :: ⟨p, dotdot⟩ :: rest ∧
      Inodes.put (D d).dirents (emptySlot (D d).dirents) x =
        ⟨d, dot⟩ :: ⟨p, dotdot⟩ :: Inodes.put rest (emptySlot rest) x := by
  obtain ⟨p, rest, hl, hd0, hp, -⟩ := h d hd
  refine ⟨p, rest, hl, ?_⟩
  rw [hl, emptySlot_cons hd0, emptySlot_cons hp, put_succ, put_succ]

/-- A new entry leaves `.` and `..` alone. -/
theorem Dotted.enter (h : Dotted D) (hd : (D d).type = .dir) (h1 : name ≠ dot)
    (h2 : name ≠ dotdot) (n : Nat) : Dotted (D.enter d name n) := by
  intro b hb
  rw [Disk.enter_type] at hb
  obtain ⟨p, rest, hl, hb0, hp, hrest⟩ := h b hb
  rw [Disk.enter_apply]
  by_cases hbd : b = d
  · subst hbd
    rw [if_pos rfl]
    dsimp only
    rw [hl, emptySlot_cons hb0, emptySlot_cons hp, put_succ, put_succ]
    refine ⟨p, _, rfl, hb0, hp, fun e he he0 => ?_⟩
    obtain he | rfl := mem_put he
    · exact hrest e he he0
    · exact ⟨h1, h2⟩
  · rw [if_neg hbd]
    exact ⟨p, rest, hl, hb0, hp, hrest⟩

/-- The tree after an entry is added. -/
theorem tree_enter (h : Dotted D) (hd : (D d).type = .dir) (hn0 : n ≠ 0) (hn : n < 2 ^ 16)
    (name : Name) (a m : Nat) :
    (D.enter d name n).tree.ents a m = D.tree.ents a m + (if a = d ∧ m = n then 1 else 0) ∧
      (D.enter d name n).tree.up a = D.tree.up a := by
  simp only [Disk.tree, Disk.enter_type]
  by_cases had : a = d
  · subst had
    obtain ⟨p, rest, hl, hput⟩ := h.put hd ⟨n % 2 ^ 16, name⟩
    have happly : (D.enter a name n a).dirents =
        ⟨a, dot⟩ :: ⟨p, dotdot⟩ :: put rest (emptySlot rest) ⟨n % 2 ^ 16, name⟩ := by
      rw [Disk.enter_apply, if_pos rfl, ← hput]
    rw [happly, hl]
    refine ⟨?_, by simp [inumAt]⟩
    by_cases hm : m = 0
    · simp [hm, Ne.symm hn0]
    have hsame : (n % 2 ^ 16 = m) ↔ m = n := by
      rw [Nat.mod_eq_of_lt hn]
      exact eq_comm
    simp only [hd, hm, ne_eq, not_false_eq_true, and_self, if_true, List.drop_succ_cons,
      List.drop_zero, true_and]
    rw [countP_put _ hm]
    simp only [hsame]
  · have happly : D.enter d name n a = D a := by rw [Disk.enter_apply, if_neg had]
    rw [happly]
    simp [had]

/-! ## The calls -/

theorem Dotted.congr (h : Dotted D) (ht : ∀ m, (D' m).type = (D m).type)
    (hd : ∀ m, (D' m).dirents = (D m).dirents) : Dotted D' := by
  intro b hb
  rw [ht] at hb
  rw [hd]
  exact h b hb

theorem Dotted.relink (h : Dotted D) (n : Nat) (l : Int) : Dotted (D.relink n l) :=
  h.congr (D.relink_type n · l) (D.relink_dirents n · l)

theorem tree_relink (D : Disk) (n : Nat) (l : Int) : (D.relink n l).tree =
    { D.tree with links := fun m => if m = n then l else D.tree.links m } := by
  ext a m
  · simp [Disk.tree]
  · simp only [Disk.tree, Disk.relink_apply]
    split <;> rfl
  · simp [Disk.tree]
  · simp [Disk.tree]

/-- `link` of an inode whose link count does not overflow. -/
theorem tree_link (h : Dotted D) (hd : (D d).type = .dir) (hn0 : n ≠ 0) (hn : n < 2 ^ 16)
    (h0 : 0 ≤ (D n).nlink) (hsmall : (D n).nlink + 1 < 2 ^ 15) (name : Name) :
    (D.link d name n).tree = D.tree.link d n := by
  have hD := h.relink n (short ((D n).nlink + 1))
  have hd' : (D.relink n (short ((D n).nlink + 1)) d).type = .dir := by rw [Disk.relink_type, hd]
  have hshort : short ((D n).nlink + 1) = (D n).nlink + 1 := short_eq (by omega) hsmall
  ext a m
  · simp [Disk.tree, Disk.link, Tree.link, Disk.enter_type]
  · simp only [Disk.tree, Disk.link, Tree.link, Disk.enter_nlink, Disk.relink_apply, hshort]
    split <;> rfl
  · rw [Disk.link, (tree_enter hD hd' hn0 hn name a 0).2, tree_relink]
    rfl
  · rw [Disk.link, (tree_enter hD hd' hn0 hn name a m).1, tree_relink]
    rfl

/-- The records of a directory after an entry is removed. -/
theorem erase_dirents (D : Disk) (d k n m : Nat) :
    (D.erase d k n m).dirents = if m = d then (D d).dirents.set k ⟨0, []⟩ else (D m).dirents := by
  unfold Disk.erase
  split
  · rw [Disk.relink_dirents, Disk.rewrite_apply]
    split <;> rfl
  · rw [Disk.rewrite_apply]
    split <;> rfl

theorem erase_type (D : Disk) (d k n m : Nat) : (D.erase d k n m).type = (D m).type := by
  unfold Disk.erase
  split
  · rw [Disk.relink_type, Disk.rewrite_type]
  · rw [Disk.rewrite_type]

theorem erase_nlink (D : Disk) (d k n m : Nat) : (D.erase d k n m).nlink =
    if m = d ∧ (D n).type = .dir then short ((D d).nlink - 1) else (D m).nlink := by
  unfold Disk.erase
  split
  · next ht =>
    rw [Disk.relink_apply]
    by_cases hm : m = d <;> simp [hm, ht]
  · next ht => simp [ht]

/-- So does removing an entry after them. -/
theorem Dotted.unlink (h : Dotted D) (hk : 2 ≤ k) : Dotted (D.unlink d k n) := by
  refine Dotted.relink ?_ _ _
  intro b hb
  rw [erase_type] at hb
  obtain ⟨p, rest, hl, hb0, hp, hrest⟩ := h b hb
  rw [erase_dirents]
  by_cases hbd : b = d
  · subst hbd
    obtain ⟨k, rfl⟩ : ∃ k', k = k' + 2 := ⟨k - 2, by omega⟩
    rw [if_pos rfl, hl, List.set_cons_succ, List.set_cons_succ]
    refine ⟨p, _, rfl, hb0, hp, fun e he he0 => ?_⟩
    obtain he | rfl := List.mem_or_eq_of_mem_set he
    · exact hrest e he he0
    · exact absurd rfl he0
  · rw [if_neg hbd]
    exact ⟨p, rest, hl, hb0, hp, hrest⟩

/-- `unlink` of slot `k` of directory `d`, which names `n`. -/
theorem tree_unlink (h : Dotted D) (hd : (D d).type = .dir) (hk : 2 ≤ k)
    (he : (D d).dirents[k]? = some e) (hen : e.inum = n) (hdn : d ≠ n)
    (hn1 : 1 ≤ (D n).nlink) (hn2 : (D n).nlink < 2 ^ 15)
    (hd0 : 0 ≤ (D d).nlink) (hd2 : (D d).nlink < 2 ^ 15) :
    (D.unlink d k n).tree = D.tree.unlink d n := by
  have hsn : short ((D n).nlink - 1) = (D n).nlink - 1 := short_eq (by omega) (by omega)
  have hsd : short ((D d).nlink - 1) = (D d).nlink - 1 := short_eq (by omega) (by omega)
  obtain ⟨p, rest, hl, -⟩ := h d hd
  obtain ⟨j, rfl⟩ : ∃ j, k = j + 2 := ⟨k - 2, by omega⟩
  have hset : (D d).dirents.set (j + 2) ⟨0, []⟩ =
    ⟨d, dot⟩ :: ⟨p, dotdot⟩ :: rest.set j ⟨0, []⟩ := by
    rw [hl, List.set_cons_succ, List.set_cons_succ]
  rw [hl] at he
  have hrest : rest[j]? = some e := by simpa using he
  ext a m
  · simp [Disk.tree, Disk.unlink, Tree.unlink, erase_type]
  · simp only [Disk.tree, Disk.unlink, Tree.unlink, Disk.relink_apply, hsn]
    by_cases ha : a = n
    · simp [ha]
    · rw [if_neg ha, if_neg ha, erase_nlink, hsd]
      rfl
  · simp only [Disk.tree, Disk.unlink, Tree.unlink, Disk.relink_type,
      Disk.relink_dirents, erase_type,
      erase_dirents]
    by_cases ha : a = d
    · rw [ha, if_pos rfl, hset, hl]
      rfl
    · rw [if_neg ha]
  · simp only [Disk.tree, Disk.unlink, Tree.unlink, Disk.relink_type,
      Disk.relink_dirents, erase_type,
      erase_dirents]
    by_cases ha : a = d
    · subst ha
      rw [if_pos rfl, hset, hl]
      by_cases hm : m = 0
      · simp [hm]
      · have := countP_set hm hrest
        simp only [hd, hm, ne_eq, not_false_eq_true, and_self, if_true, List.drop_succ_cons,
          List.drop_zero, true_and, hen, eq_comm (a := m)] at this ⊢
        omega
    · rw [if_neg ha]
      simp [ha]

theorem tree_free (D : Disk) (n : Nat) : (D.free n).tree = D.tree.free n := by
  ext a m
  · simp only [Disk.tree, Tree.free, Disk.free_apply]
    split <;> rfl
  · simp only [Disk.tree, Tree.free, Disk.free_apply]
    split <;> rfl
  · simp only [Disk.tree, Tree.free, Disk.free_apply]
    by_cases ha : a = n <;> simp [ha]
  · simp only [Disk.tree, Tree.free, Disk.free_apply]
    by_cases ha : a = n <;> simp [ha]

/-- A free inode has no entries. -/
theorem Dotted.free (h : Dotted D) (n : Nat) : Dotted (D.free n) := by
  intro b hb
  rw [Disk.free_apply] at hb ⊢
  split at hb
  · cases hb
  · next hbn =>
    rw [if_neg hbn]
    exact h b hb

/-- A new inode before it is entered. -/
def Disk.fresh (D : Disk) (d : Nat) (t : FileType) (n : Nat) : Disk :=
  if t = .dir then (D.alloc n t).addDots d n else D.alloc n t

/-- The disk with the new inode. -/
theorem fresh_apply (hdn : d ≠ n) (hn0 : n ≠ 0) (hn : n < 2 ^ 16) (hd : d < 2 ^ 16) (t : FileType)
    (m : Nat) : (D.fresh d t n m).type = (if m = n then t else (D m).type) ∧
      (D.fresh d t n m).dirents = if m = n then
        (if t = .dir then [⟨n, dot⟩, ⟨d, dotdot⟩] else []) else (D m).dirents := by
  have hn' : n % 65536 = n := Nat.mod_eq_of_lt hn
  have hd' : d % 65536 = d := Nat.mod_eq_of_lt hd
  unfold Disk.fresh
  split
  · have hdots : (((D.alloc n t).addDots d n) n).dirents = [⟨n, dot⟩, ⟨d, dotdot⟩] := by
      simp [Disk.addDots, Disk.enter_apply, Disk.alloc_apply, put, emptySlot, List.findIdx_cons,
        hn', hd', hn0]
    by_cases hm : m = n
    · subst hm
      exact ⟨by simp [Disk.addDots, Disk.enter_type, Disk.alloc_apply], by simp [hdots]⟩
    · exact ⟨by simp [Disk.addDots, Disk.enter_type, Disk.alloc_apply, hm],
        by simp [Disk.addDots, Disk.enter_apply, Disk.alloc_apply, hm]⟩
  · by_cases hm : m = n <;> simp [Disk.alloc_apply, hm]

/-- A new directory has both. -/
theorem Dotted.fresh (h : Dotted D) (hdn : d ≠ n) (hn0 : n ≠ 0) (hn : n < 2 ^ 16) (hd0 : d ≠ 0)
    (hd : d < 2 ^ 16) (t : FileType) : Dotted (D.fresh d t n) := by
  intro b hb
  rw [(fresh_apply hdn hn0 hn hd t b).1] at hb
  rw [(fresh_apply hdn hn0 hn hd t b).2]
  by_cases hbn : b = n
  · rw [if_pos hbn] at hb
    rw [if_pos hbn, if_pos hb, hbn]
    exact ⟨d, [], rfl, hn0, hd0, nofun⟩
  · rw [if_neg hbn] at hb
    rw [if_neg hbn]
    exact h b hb

/-- `create` of an inode in a directory whose link count does not overflow. -/
theorem tree_make (h : Dotted D) (hd : (D d).type = .dir) (hfree : (D n).type = .free) (hn0 : n ≠ 0)
    (hn : n < 2 ^ 16) (hd16 : d < 2 ^ 16) (h0 : 0 ≤ (D d).nlink)
    (hsmall : t = .dir → (D d).nlink + 1 < 2 ^ 15) (name : Name) :
    (D.make d name t n).tree = D.tree.make d t n := by
  have hdn : d ≠ n := fun he => by rw [he, hfree] at hd; cases hd
  obtain ⟨-, -, -, hd0, -⟩ := h d hd
  have happ := fresh_apply (D := D) hdn hn0 hn hd16 t
  have hD := h.fresh hdn hn0 hn hd0 hd16 t
  have hd' : (D.fresh d t n d).type = .dir := by rw [(happ d).1, if_neg hdn, hd]
  have hfresh : D.make d name t n = (D.fresh d t n).enter d name n := rfl
  ext a m
  · simp only [Disk.tree, Tree.make]
    exact Disk.make_type D d name t n a
  · simp only [Disk.tree, Tree.make]
    rw [Disk.make_nlink hdn]
    by_cases ha : a = d ∧ t = .dir
    · rw [if_pos ha, if_pos ha, short_eq (by omega) (hsmall ha.2)]
    · rw [if_neg ha, if_neg ha]
  · rw [hfresh, (tree_enter hD hd' hn0 hn name a 0).2]
    simp only [Disk.tree, Tree.make, happ]
    by_cases ha : a = n
    · by_cases ht : t = .dir <;> simp [ha, ht, inumAt]
    · simp [ha]
  · rw [hfresh, (tree_enter hD hd' hn0 hn name a m).1]
    simp only [Disk.tree, Tree.make, happ]
    by_cases ha : a = n
    · subst ha
      by_cases ht : t = .dir <;> simp [ht, hfree]
    · simp [ha]

/-- Creating a file or a directory keeps them. -/
theorem Dotted.make (h : Dotted D) (hd : (D d).type = .dir) (hfree : (D n).type = .free)
    (hslot : slot (D d).dirents name = none) (hn0 : n ≠ 0) (hn : n < 2 ^ 16) (hd16 : d < 2 ^ 16)
    (t : FileType) : Dotted (D.make d name t n) := by
  have hdn : d ≠ n := fun he => by rw [he, hfree] at hd; cases hd
  obtain ⟨-, -, -, hd0, -⟩ := h d hd
  obtain ⟨h1, h2⟩ := h.name_of_none hd hslot
  refine (h.fresh hdn hn0 hn hd0 hd16 t).enter ?_ h1 h2 n
  rw [(fresh_apply hdn hn0 hn hd16 t d).1, if_neg hdn, hd]

/-- An empty directory has no entry. -/
theorem tree_isdirempty (he : isdirempty (D n).dirents = true) (m : Nat) : D.tree.ents n m = 0 := by
  simp only [Disk.tree]
  split
  · next hm =>
    refine List.countP_eq_zero.2 fun e hmem => ?_
    have := List.all_eq_true.1 he e hmem
    simp only [decide_eq_true_eq] at this ⊢
    rw [this]
    exact fun h => hm.2 h.symm
  · rfl

/-- An entry that is found is one of the tree. -/
theorem ents_pos (hd : (D d).type = .dir) (hk : 2 ≤ k)
    (he : (D d).dirents[k]? = some e) (he0 : e.inum ≠ 0) : 0 < D.tree.ents d e.inum := by
  simp only [Disk.tree, hd, he0, ne_eq, not_false_eq_true, and_self, if_true]
  refine List.countP_pos_iff.2 ⟨e, ?_, by simp⟩
  refine List.mem_of_getElem? (i := k - 2) ?_
  rw [List.getElem?_drop, show 2 + (k - 2) = k by omega]
  exact he

end Msboss.Inodes
