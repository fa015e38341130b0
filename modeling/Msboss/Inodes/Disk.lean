import Msboss.Inodes.Names

/-!
# What the calls do to the disk

The changes that the calls make to the inodes on disk, and the lookup of a path, as functions of the
disk alone.
-/

namespace Msboss.Inodes

open Function
open Fs (FileType)

namespace Disk

/-- The lookup of a path from inode `n`. -/
def walk (D : Disk) (parent : Bool) : Nat → Nat → List UInt8 → Option (Nat × Name)
  | 0, n, _ => if parent then none else some (n, [])
  | fuel + 1, n, path =>
    match skipelem path with
    | none => if parent then none else some (n, [])
    | some (name, rest) =>
      if (D n).type ≠ .dir then none
      else if parent ∧ rest = [] then some (n, name)
      else
        match slot (D n).dirents name with
        | none => none
        | some k => D.walk parent fuel (inumAt (D n).dirents k) rest

/-- The inode a lookup starts at, for a process whose current directory is `c`. -/
def start (c : Nat) (path : List UInt8) : Nat := if path.head? = some slash then ROOTINO else c

/-- The inode of a path. -/
def find (D : Disk) (c : Nat) (path : List UInt8) : Option Nat :=
  (D.walk false path.length (start c path) path).map Prod.fst

/-- The directory and the last element of a path. -/
def parent (D : Disk) (c : Nat) (path : List UInt8) : Option (Nat × Name) :=
  D.walk true path.length (start c path) path

/-- The inode `n` is freed. -/
def free (D : Disk) (n : Nat) : Disk := update D n ⟨.free, 0, []⟩

/-- The link count of `n` is set. -/
def relink (D : Disk) (n : Nat) (l : Int) : Disk := update D n { D n with nlink := l }

/-- The records of `n` are set. -/
def rewrite (D : Disk) (n : Nat) (l : List Dirent) : Disk :=
  update D n { D n with dirents := l }

/-- An entry for `n` is added to the directory `d`. -/
def enter (D : Disk) (d : Nat) (name : Name) (n : Nat) : Disk :=
  D.rewrite d (put (D d).dirents (emptySlot (D d).dirents) ⟨n % 2 ^ 16, name⟩)

/-- The inode `n` is made, with one link. -/
def alloc (D : Disk) (n : Nat) (t : FileType) : Disk := update D n ⟨t, 1, []⟩

/-- The dots of the new directory `n` in `d`. -/
def addDots (D : Disk) (d n : Nat) : Disk :=
  ((D.relink d (short ((D d).nlink + 1))).enter n dot n).enter n dotdot d

/-- `create` of inode `n` in directory `d`. -/
def make (D : Disk) (d : Nat) (name : Name) (t : FileType) (n : Nat) : Disk :=
  (if t = .dir then (D.alloc n t).addDots d n else D.alloc n t).enter d name n

/-- `link` of inode `n` in directory `d`. -/
def link (D : Disk) (d : Nat) (name : Name) (n : Nat) : Disk :=
  (D.relink n (short ((D n).nlink + 1))).enter d name n

/-- The directory `d` after `unlink` of slot `k`, which names `n`. -/
def erase (D : Disk) (d k n : Nat) : Disk :=
  let D' := D.rewrite d ((D d).dirents.set k ⟨0, []⟩)
  if (D n).type = .dir then D'.relink d (short ((D d).nlink - 1)) else D'

/-- `unlink` of slot `k` of directory `d`, which names `n`. -/
def unlink (D : Disk) (d k n : Nat) : Disk :=
  (D.erase d k n).relink n (short ((D n).nlink - 1))

variable (D : Disk) (n m : Nat)

theorem relink_apply (l : Int) :
    D.relink n l m = if m = n then { D n with nlink := l } else D m := by
  unfold relink
  split
  · next h => rw [h, update_self]
  · next h => rw [update_of_ne h]

theorem rewrite_apply (l : List Dirent) :
    D.rewrite n l m = if m = n then { D n with dirents := l } else D m := by
  unfold rewrite
  split
  · next h => rw [h, update_self]
  · next h => rw [update_of_ne h]

theorem free_apply : D.free n m = if m = n then ⟨.free, 0, []⟩ else D m := by
  unfold free
  split
  · next h => rw [h, update_self]
  · next h => rw [update_of_ne h]

theorem alloc_apply (t : FileType) : D.alloc n t m = if m = n then ⟨t, 1, []⟩ else D m := by
  unfold alloc
  split
  · next h => rw [h, update_self]
  · next h => rw [update_of_ne h]

@[simp] theorem relink_type (l : Int) : (D.relink n l m).type = (D m).type := by
  rw [relink_apply]
  split
  · next h => rw [h]
  · rfl

@[simp] theorem relink_dirents (l : Int) : (D.relink n l m).dirents = (D m).dirents := by
  rw [relink_apply]
  split
  · next h => rw [h]
  · rfl

@[simp] theorem rewrite_type (l : List Dirent) : (D.rewrite n l m).type = (D m).type := by
  rw [rewrite_apply]
  split
  · next h => rw [h]
  · rfl

@[simp] theorem rewrite_nlink (l : List Dirent) : (D.rewrite n l m).nlink = (D m).nlink := by
  rw [rewrite_apply]
  split
  · next h => rw [h]
  · rfl

variable {D} {D' : Disk} {n m}

/-- A lookup depends on types and entries only. -/
theorem walk_congr (ht : ∀ n, (D' n).type = (D n).type) (hd : ∀ n, (D' n).dirents = (D n).dirents)
    (parent : Bool) : ∀ (fuel n : Nat) (path : List UInt8),
    D'.walk parent fuel n path = D.walk parent fuel n path := by
  intro fuel
  induction fuel with
  | zero => exact fun _ _ => rfl
  | succ fuel ih =>
    intro n path
    simp only [walk, ht, hd, ih]

@[simp] theorem parent_relink (l : Int) (c : Nat) (path : List UInt8) :
    (D.relink n l).parent c path = D.parent c path :=
  walk_congr (relink_type D n · l) (relink_dirents D n · l) true _ _ _

end Disk

end Msboss.Inodes
