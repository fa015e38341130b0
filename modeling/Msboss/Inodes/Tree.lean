import Msboss.Inodes.Disk
import Msboss.Lib.Tally

/-!
# The tree of directories

What link counts and names are about: which inodes there are, how many links each has, how often a
directory names it, dots aside, and where the `".."` of a directory leads. `Tree.Shape` is what
every sequence of calls keeps, also when directories that are in use have been unlinked.

A directory's link count is the number of its own entry and of the directories entered in it. One
link of the root is its own `".."`.
-/

namespace Msboss.Inodes

open Fs (FileType)

/-- Inodes by their number: type, link count, the inode of `".."`, and the number of entries of a
directory for an inode. -/
@[ext] structure Tree where
  kind : Nat → FileType
  links : Nat → Int
  up : Nat → Nat
  ents : Nat → Nat → Nat

namespace Tree

/-- The number of entries of `b` for `n`, if that is a directory. -/
def sub (T : Tree) (b n : Nat) : Nat := if T.kind n = .dir then T.ents b n else 0

/-- The number of directories entered in `b`. -/
def subs (N : Nat) (T : Tree) (b : Nat) : Nat := ∑ n ∈ Finset.range N, T.sub b n

/-- The number of entries for `n`. -/
def entries (N : Nat) (T : Tree) (n : Nat) : Nat := ∑ d ∈ Finset.range N, T.ents d n

/-- What the calls keep on a disk of `N` inodes. -/
structure Shape (N : Nat) (T : Tree) : Prop where
  bound : ∀ n, T.kind n ≠ .free → 1 ≤ n ∧ n < N
  unlinked : ∀ n, T.kind n = .free → T.links n = 0
  owner : ∀ d n, 0 < T.ents d n → T.kind d = .dir
  named : ∀ d n, 0 < T.ents d n → T.kind n ≠ .free
  child : ∀ d n, 0 < T.ents d n → T.kind n = .dir → T.up n = d
  once : ∀ d n, T.kind n = .dir → T.ents d n ≤ 1
  root : T.kind ROOTINO = .dir
  top : ∀ d, T.ents d ROOTINO = 0
  rootUp : T.up ROOTINO = ROOTINO
  dirLinks : ∀ b, T.kind b = .dir →
    T.links b = T.ents (T.up b) b + T.subs N b + if b = ROOTINO then 1 else 0
  fileLinks : ∀ n, T.kind n ≠ .dir → (T.entries N n : Int) ≤ T.links n
  small : ∀ n, T.links n < 2 ^ 15

variable {N : Nat} {T : Tree} {d n b : Nat} {t : FileType}

/-- No entry is for a free inode. -/
theorem Shape.ents_free (h : Shape N T) (hn : T.kind n = .free) (d : Nat) : T.ents d n = 0 := by
  by_contra hne
  exact h.named d n (Nat.pos_of_ne_zero hne) hn

/-- Only directories have entries. -/
theorem Shape.ents_of_not_dir (h : Shape N T) (hd : T.kind d ≠ .dir) (n : Nat) :
    T.ents d n = 0 := by
  by_contra hne
  exact hd (h.owner d n (Nat.pos_of_ne_zero hne))

theorem Shape.lt_of_dir (h : Shape N T) (hd : T.kind d = .dir) : d < N :=
  (h.bound d (by rw [hd]; exact nofun)).2

theorem Shape.links_nonneg (h : Shape N T) (n : Nat) : 0 ≤ T.links n := by
  by_cases hn : T.kind n = .dir
  · rw [h.dirLinks n hn]
    split <;> positivity
  · exact le_trans (by positivity) (h.fileLinks n hn)

theorem Shape.root_links (h : Shape N T) : 1 ≤ T.links ROOTINO := by
  rw [h.dirLinks _ h.root, if_pos rfl]
  omega

/-- A directory in `d` is one of its directories. -/
theorem Shape.ents_le_subs (h : Shape N T) (hn : T.kind n = .dir) (d : Nat) :
    T.ents d n ≤ T.subs N d := by
  have hsub : T.sub d n = T.ents d n := if_pos hn
  rw [← hsub]
  exact Finset.single_le_sum (f := T.sub d) (fun _ _ => Nat.zero_le _)
    (Finset.mem_range.2 (h.lt_of_dir hn))

theorem Shape.ents_le_entries (h : Shape N T) (d n : Nat) : T.ents d n ≤ T.entries N n := by
  by_cases hd : T.kind d = .dir
  · exact Finset.single_le_sum (f := fun d => T.ents d n) (fun _ _ => Nat.zero_le _)
      (Finset.mem_range.2 (h.lt_of_dir hd))
  · rw [h.ents_of_not_dir hd]
    exact Nat.zero_le _

/-- What has an entry has a link. -/
theorem Shape.links_pos (h : Shape N T) (he : 0 < T.ents d n) : 1 ≤ T.links n := by
  by_cases hn : T.kind n = .dir
  · have := h.dirLinks n hn
    rw [h.child d n he hn] at this
    split at this <;> omega
  · have := h.fileLinks n hn
    have := h.ents_le_entries d n
    omega

/-- A directory that another directory is in has a link. -/
theorem Shape.owner_links (h : Shape N T) (he : 0 < T.ents d n) (hn : T.kind n = .dir) :
    1 ≤ T.links d := by
  have hlinks := h.dirLinks d (h.owner d n he)
  have := h.ents_le_subs hn d
  split at hlinks <;> omega

/-! ## Making an inode -/

/-- Inode `n` is made in directory `d`. -/
def make (T : Tree) (d : Nat) (t : FileType) (n : Nat) : Tree where
  kind m := if m = n then t else T.kind m
  links m := if m = n then 1 else if m = d ∧ t = .dir then T.links d + 1 else T.links m
  up m := if m = n then (if t = .dir then d else 0) else T.up m
  ents a m := T.ents a m + if a = d ∧ m = n then 1 else 0

section make
variable (h : Shape N T) (hd : T.kind d = .dir) (hn : T.kind n = .free) (hN : n < N)

include h hn hN in
theorem subs_make (b : Nat) :
    (T.make d t n).subs N b = T.subs N b + if t = .dir ∧ b = d then 1 else 0 := by
  have hother : ∀ m ∈ Finset.range N, m ≠ n → (T.make d t n).sub b m = T.sub b m :=
    fun m _ hm => by simp [make, sub, hm]
  have hchange := sum_change (Finset.mem_range.2 hN) hother
  have hold : T.sub b n = 0 := by simp [sub, hn]
  have hnew : (T.make d t n).sub b n = if t = .dir ∧ b = d then 1 else 0 := by
    by_cases ht : t = .dir <;> simp [sub, make, ht, h.ents_free hn]
  unfold subs
  omega

include h hd in
theorem entries_make (m : Nat) :
    (T.make d t n).entries N m = T.entries N m + if m = n then 1 else 0 := by
  have hother : ∀ a ∈ Finset.range N, a ≠ d → (T.make d t n).ents a m = T.ents a m :=
    fun a _ ha => by simp [make, ha]
  have := sum_change (Finset.mem_range.2 (h.lt_of_dir hd)) hother
  unfold entries
  simp only [make, true_and] at this ⊢
  omega

end make

/-- A new inode keeps the shape. -/
theorem Shape.make (h : Shape N T) (hd : T.kind d = .dir) (hn : T.kind n = .free) (h1 : 1 ≤ n)
    (hN : n < N) (ht : t ≠ .free) (hsmall : t = .dir → T.links d + 1 < 2 ^ 15) :
    Shape N (T.make d t n) := by
  have hdn : d ≠ n := fun he => by rw [he, hn] at hd; cases hd
  have hroot : ROOTINO ≠ n := fun he => by rw [← he, h.root] at hn; cases hn
  have hfree : ∀ a, T.ents a n = 0 := h.ents_free hn
  have hempty : ∀ m, T.ents n m = 0 := h.ents_of_not_dir (by rw [hn]; exact nofun)
  have hents : ∀ a m, 0 < (T.make d t n).ents a m → a = d ∧ m = n ∨ m ≠ n ∧ 0 < T.ents a m := by
    intro a m hpos
    by_cases ham : a = d ∧ m = n
    · exact .inl ham
    · simp only [Tree.make, if_neg ham, add_zero] at hpos
      refine .inr ⟨fun hm => ?_, hpos⟩
      rw [hm, hfree] at hpos
      exact absurd hpos (lt_irrefl 0)
  constructor
  case bound =>
    intro m hm
    by_cases hmn : m = n
    · exact hmn ▸ ⟨h1, hN⟩
    · simp only [Tree.make, if_neg hmn] at hm
      exact h.bound m hm
  case unlinked =>
    intro m hm
    by_cases hmn : m = n
    · simp only [Tree.make, if_pos hmn] at hm
      exact absurd hm ht
    · simp only [Tree.make, if_neg hmn] at hm ⊢
      have hmd : m ≠ d := fun he => by rw [he, hd] at hm; cases hm
      simp only [hmd, false_and, if_false]
      exact h.unlinked m hm
  case owner =>
    intro a m hpos
    have ha : T.kind a = .dir := by
      obtain ⟨rfl, -⟩ | ⟨-, hpos⟩ := hents a m hpos
      · exact hd
      · exact h.owner a m hpos
    have han : a ≠ n := fun he => by rw [he, hn] at ha; cases ha
    simpa [Tree.make, han] using ha
  case named =>
    intro a m hpos
    obtain ⟨-, rfl⟩ | ⟨hmn, hpos⟩ := hents a m hpos
    · simpa [Tree.make] using ht
    · simpa [Tree.make, hmn] using h.named a m hpos
  case child =>
    intro a m hpos hm
    obtain ⟨rfl, rfl⟩ | ⟨hmn, hpos⟩ := hents a m hpos
    · simp only [Tree.make, if_true] at hm ⊢
      rw [if_pos hm]
    · simp only [Tree.make, if_neg hmn] at hm ⊢
      exact h.child a m hpos hm
  case once =>
    intro a m hm
    by_cases hmn : m = n
    · simp only [Tree.make, hmn, hfree]
      split <;> omega
    · simp only [Tree.make, hmn, if_false, and_false, add_zero] at hm ⊢
      exact h.once a m hm
  case root => simpa [Tree.make, hroot] using h.root
  case top => exact fun a => by simpa [Tree.make, hroot] using h.top a
  case rootUp => simpa [Tree.make, hroot] using h.rootUp
  case dirLinks =>
    intro b hb
    rw [subs_make h hn hN]
    by_cases hbn : b = n
    · subst hbn
      have htd : t = .dir := by simpa [Tree.make] using hb
      have hsubs : T.subs N b = 0 := by simp [subs, sub, hempty]
      simp [Tree.make, htd, hfree, hsubs, hdn.symm, hroot.symm]
    simp only [Tree.make, if_neg hbn] at hb ⊢
    have := h.dirLinks b hb
    by_cases hbd : b = d
    · subst hbd
      by_cases htd : t = .dir
      · simp only [htd, and_self, if_true, hbn, and_false, if_false]
        push_cast
        omega
      · simp only [htd, and_false, hbn, false_and, if_false]
        push_cast
        omega
    · simp only [hbd, false_and, and_false, hbn, if_false]
      push_cast
      omega
  case fileLinks =>
    intro m hm
    rw [entries_make h hd]
    by_cases hmn : m = n
    · have : T.entries N n = 0 := by simp [entries, hfree]
      simp [Tree.make, hmn, this]
    · simp only [Tree.make, if_neg hmn] at hm ⊢
      have hmd : m ≠ d := fun he => hm (he ▸ hd)
      simpa [hmd] using h.fileLinks m hm
  case small =>
    intro m
    simp only [Tree.make]
    split
    · norm_num
    · split
      · next hm => exact hsmall hm.2
      · exact h.small m

/-! ## Links -/

/-- Inode `n` is entered in directory `d`. -/
def link (T : Tree) (d n : Nat) : Tree where
  kind := T.kind
  links m := if m = n then T.links n + 1 else T.links m
  up := T.up
  ents a m := T.ents a m + if a = d ∧ m = n then 1 else 0

/-- An entry of directory `d` for inode `n` is removed. -/
def unlink (T : Tree) (d n : Nat) : Tree where
  kind := T.kind
  links m := if m = n then T.links n - 1
    else if m = d ∧ T.kind n = .dir then T.links d - 1 else T.links m
  up := T.up
  ents a m := T.ents a m - if a = d ∧ m = n then 1 else 0

theorem subs_link (hn : T.kind n ≠ .dir) (b : Nat) : (T.link d n).subs N b = T.subs N b := by
  refine Finset.sum_congr rfl fun m _ => ?_
  by_cases hm : m = n
  · simp [sub, link, hm, hn]
  · simp [sub, link, hm]

theorem entries_link (hd : d < N) (m : Nat) :
    (T.link d n).entries N m = T.entries N m + if m = n then 1 else 0 := by
  have hother : ∀ a ∈ Finset.range N, a ≠ d → (T.link d n).ents a m = T.ents a m :=
    fun a _ ha => by simp [link, ha]
  have := sum_change (Finset.mem_range.2 hd) hother
  unfold entries
  simp only [link, true_and] at this ⊢
  omega

/-- A link keeps the shape. -/
theorem Shape.link (h : Shape N T) (hd : T.kind d = .dir) (hn : T.kind n ≠ .dir)
    (hfree : T.kind n ≠ .free) (hsmall : T.links n + 1 < 2 ^ 15) : Shape N (T.link d n) := by
  have hents : ∀ a m, 0 < (T.link d n).ents a m → a = d ∧ m = n ∨ 0 < T.ents a m := by
    intro a m hpos
    by_cases ham : a = d ∧ m = n
    · exact .inl ham
    · simp only [Tree.link, if_neg ham, add_zero] at hpos
      exact .inr hpos
  have hdir : ∀ a m, T.kind m = .dir → (T.link d n).ents a m = T.ents a m := by
    intro a m hm
    have hmn : m ≠ n := fun he => hn (he ▸ hm)
    simp [Tree.link, hmn]
  constructor
  case bound => exact h.bound
  case unlinked =>
    intro m hm
    have hmn : m ≠ n := fun he => hfree (he ▸ hm)
    simpa [Tree.link, hmn] using h.unlinked m hm
  case owner =>
    intro a m hpos
    obtain ⟨rfl, -⟩ | hpos := hents a m hpos
    · exact hd
    · exact h.owner a m hpos
  case named =>
    intro a m hpos
    obtain ⟨-, rfl⟩ | hpos := hents a m hpos
    · exact hfree
    · exact h.named a m hpos
  case child =>
    intro a m hpos hm
    rw [hdir a m hm] at hpos
    exact h.child a m hpos hm
  case once =>
    intro a m hm
    rw [hdir a m hm]
    exact h.once a m hm
  case root => exact h.root
  case top =>
    intro a
    rw [hdir a _ h.root]
    exact h.top a
  case rootUp => exact h.rootUp
  case dirLinks =>
    intro b hb
    have hbn : b ≠ n := fun he => hn (he ▸ hb)
    have := h.dirLinks b hb
    rw [subs_link hn, hdir _ b hb]
    simpa [Tree.link, hbn] using this
  case fileLinks =>
    intro m hm
    rw [entries_link (h.lt_of_dir hd)]
    have := h.fileLinks m hm
    by_cases hmn : m = n
    · subst hmn
      simp only [Tree.link, if_true]
      push_cast
      omega
    · simpa [Tree.link, hmn] using this
  case small =>
    intro m
    simp only [Tree.link]
    split
    · exact hsmall
    · exact h.small m

section unlink
variable (hpos : 0 < T.ents d n)

include hpos in
theorem subs_unlink (hN : T.kind n = .dir → n < N) (b : Nat) :
    (T.unlink d n).subs N b + (if T.kind n = .dir ∧ b = d then 1 else 0) = T.subs N b := by
  by_cases hn : T.kind n = .dir
  · have hother : ∀ m ∈ Finset.range N, m ≠ n → (T.unlink d n).sub b m = T.sub b m :=
      fun m _ hm => by simp [unlink, sub, hm]
    have hchange := sum_change (Finset.mem_range.2 (hN hn)) hother
    have hold : T.sub b n = T.ents b n := if_pos hn
    have hnew : (T.unlink d n).sub b n = T.ents b n - if b = d then 1 else 0 := by
      simp [sub, unlink, hn]
    unfold subs
    simp only [hn, true_and]
    by_cases hb : b = d
    · subst hb
      simp only [if_true] at hnew ⊢
      omega
    · simp only [hb, if_false] at hnew ⊢
      omega
  · simp only [hn, false_and, if_false, add_zero]
    refine Finset.sum_congr rfl fun m _ => ?_
    by_cases hm : m = n
    · simp [sub, unlink, hm, hn]
    · simp [sub, unlink, hm]

include hpos in
theorem entries_unlink (hd : d < N) (m : Nat) :
    (T.unlink d n).entries N m + (if m = n then 1 else 0) = T.entries N m := by
  have hother : ∀ a ∈ Finset.range N, a ≠ d → (T.unlink d n).ents a m = T.ents a m :=
    fun a _ ha => by simp [unlink, ha]
  have hchange := sum_change (Finset.mem_range.2 hd) hother
  have hnew : (T.unlink d n).ents d m = T.ents d m - if m = n then 1 else 0 := by simp [unlink]
  unfold entries
  by_cases hm : m = n
  · subst hm
    simp only [if_true] at hnew ⊢
    omega
  · simp only [hm, if_false] at hnew ⊢
    omega

end unlink

/-- A directory that is unlinked is empty, so its entry was its only link. -/
theorem Shape.links_of_empty (h : Shape N T) (hpos : 0 < T.ents d n) (hn : T.kind n = .dir)
    (hempty : ∀ m, T.ents n m = 0) : T.links n = 1 := by
  have hup := h.child d n hpos hn
  have hone := h.once d n hn
  have hroot : n ≠ ROOTINO := by
    rintro rfl
    rw [h.top] at hpos
    exact absurd hpos (lt_irrefl 0)
  have hsubs : T.subs N n = 0 := by simp [subs, sub, hempty]
  rw [h.dirLinks n hn, hup, hsubs, if_neg hroot]
  omega

theorem Shape.unlink (h : Shape N T) (hpos : 0 < T.ents d n)
    (hempty : T.kind n = .dir → ∀ m, T.ents n m = 0) : Shape N (T.unlink d n) := by
  have hd := h.owner d n hpos
  have hfree := h.named d n hpos
  have hdn : d ≠ n := by
    rintro rfl
    rw [hempty hd d] at hpos
    exact absurd hpos (lt_irrefl 0)
  have hroot : n ≠ ROOTINO := by
    rintro rfl
    rw [h.top] at hpos
    exact absurd hpos (lt_irrefl 0)
  have hle : ∀ a m, (T.unlink d n).ents a m ≤ T.ents a m := fun a m => Nat.sub_le _ _
  constructor
  case bound => exact h.bound
  case unlinked =>
    intro m hm
    have hmn : m ≠ n := fun he => hfree (he ▸ hm)
    have hmd : m ≠ d := fun he => by
      have : T.kind m = .free := hm
      rw [he, hd] at this
      cases this
    simpa [Tree.unlink, hmn, hmd] using h.unlinked m hm
  case owner => exact fun a m hp => h.owner a m (lt_of_lt_of_le hp (hle a m))
  case named => exact fun a m hp => h.named a m (lt_of_lt_of_le hp (hle a m))
  case child => exact fun a m hp => h.child a m (lt_of_lt_of_le hp (hle a m))
  case once => exact fun a m hm => (hle a m).trans (h.once a m hm)
  case root => exact h.root
  case top => exact fun a => Nat.le_zero.1 (h.top a ▸ hle a _)
  case rootUp => exact h.rootUp
  case dirLinks =>
    intro b hb
    have hsubs := subs_unlink (N := N) hpos h.lt_of_dir b
    have hlinks := h.dirLinks b hb
    by_cases hbn : b = n
    · subst hbn
      have hlast := h.links_of_empty hpos hb (hempty hb)
      have hup := h.child d b hpos hb
      have hnow : (T.unlink d b).ents (T.up b) b = T.ents d b - 1 := by simp [Tree.unlink, hup]
      have hone := h.once d b hb
      change (if b = b then T.links b - 1 else _) = ((T.unlink d b).ents (T.up b) b : Int) + _ + _
      rw [if_pos rfl, hnow, if_neg hroot]
      rw [hup, if_neg hroot] at hlinks
      simp only [hdn.symm, and_false, if_false, add_zero] at hsubs
      omega
    · have hnow : (T.unlink d n).ents (T.up b) b = T.ents (T.up b) b := by simp [Tree.unlink, hbn]
      change (if b = n then _ else if b = d ∧ T.kind n = .dir then T.links d - 1 else T.links b) =
        ((T.unlink d n).ents (T.up b) b : Int) + _ + _
      rw [if_neg hbn, hnow]
      by_cases hbd : b = d ∧ T.kind n = .dir
      · obtain ⟨rfl, hk⟩ := hbd
        rw [if_pos ⟨rfl, hk⟩]
        rw [if_pos ⟨hk, rfl⟩] at hsubs
        omega
      · rw [if_neg hbd]
        rw [if_neg fun hc => hbd ⟨hc.2, hc.1⟩] at hsubs
        omega
  case fileLinks =>
    intro m hm
    have hents := entries_unlink (N := N) hpos (h.lt_of_dir hd) m
    have hlinks := h.fileLinks m hm
    have hmd : m ≠ d := fun he => hm (he ▸ hd)
    change _ ≤ if m = n then _ else if m = d ∧ _ then _ else T.links m
    by_cases hmn : m = n
    · subst hmn
      simp only [if_true] at hents ⊢
      omega
    · simp only [if_neg hmn, hmd, false_and, if_false] at hents ⊢
      omega
  case small =>
    intro m
    have := h.small n
    have := h.small d
    have := h.small m
    simp only [Tree.unlink]
    split
    · omega
    · split <;> omega

/-! ## Freeing an inode -/

/-- Inode `n` is freed. -/
def free (T : Tree) (n : Nat) : Tree where
  kind m := if m = n then .free else T.kind m
  links m := if m = n then 0 else T.links m
  up m := if m = n then 0 else T.up m
  ents a m := if a = n then 0 else T.ents a m

/-- No entry is left for an inode without links, nor a directory in it. -/
theorem Shape.ents_of_links (h : Shape N T) (hl : T.links n = 0) (a : Nat) : T.ents a n = 0 := by
  by_contra hne
  have := h.links_pos (Nat.pos_of_ne_zero hne)
  omega

theorem Shape.sub_of_links (h : Shape N T) (hl : T.links n = 0) (hb : T.kind b = .dir) :
    T.ents n b = 0 := by
  by_contra hne
  have := h.owner_links (Nat.pos_of_ne_zero hne) hb
  omega

theorem subs_free (h : Shape N T) (hl : T.links n = 0) (hb : b ≠ n) :
    (T.free n).subs N b = T.subs N b := by
  refine Finset.sum_congr rfl fun m _ => ?_
  by_cases hm : m = n
  · simp [sub, free, hm, h.ents_of_links hl]
  · simp [sub, free, hm, hb]

theorem Shape.free (h : Shape N T) (hl : T.links n = 0) : Shape N (T.free n) := by
  have hroot : ROOTINO ≠ n := fun he => by
    have := h.root_links
    rw [he] at this
    omega
  have hle : ∀ a m, (T.free n).ents a m ≤ T.ents a m := fun a m => by
    simp only [Tree.free]
    split <;> omega
  have hents : ∀ a m, 0 < (T.free n).ents a m → a ≠ n ∧ m ≠ n ∧ 0 < T.ents a m := by
    intro a m hpos
    have hp := lt_of_lt_of_le hpos (hle a m)
    refine ⟨fun ha => ?_, fun hm => ?_, hp⟩
    · simp [Tree.free, ha] at hpos
    · rw [hm, h.ents_of_links hl] at hp
      exact absurd hp (lt_irrefl 0)
  have hkind : ∀ m, m ≠ n → (T.free n).kind m = T.kind m := fun m hm => by simp [Tree.free, hm]
  have hother : ∀ m, (T.free n).kind m ≠ .free → m ≠ n := fun m hm he =>
    hm (by simp [Tree.free, he])
  constructor
  case bound =>
    intro m hm
    have hmn := hother m hm
    rw [hkind m hmn] at hm
    exact h.bound m hm
  case unlinked =>
    intro m hm
    by_cases hmn : m = n
    · simp [Tree.free, hmn]
    · rw [hkind m hmn] at hm
      simpa [Tree.free, hmn] using h.unlinked m hm
  case owner =>
    intro a m hpos
    obtain ⟨ha, -, hp⟩ := hents a m hpos
    rw [hkind a ha]
    exact h.owner a m hp
  case named =>
    intro a m hpos
    obtain ⟨-, hm, hp⟩ := hents a m hpos
    rw [hkind m hm]
    exact h.named a m hp
  case child =>
    intro a m hpos hm
    obtain ⟨-, hmn, hp⟩ := hents a m hpos
    rw [hkind m hmn] at hm
    simpa [Tree.free, hmn] using h.child a m hp hm
  case once =>
    intro a m hm
    have hmn := hother m (by rw [hm]; exact nofun)
    rw [hkind m hmn] at hm
    exact (hle a m).trans (h.once a m hm)
  case root => rw [hkind _ hroot]; exact h.root
  case top => exact fun a => Nat.le_zero.1 (h.top a ▸ hle a _)
  case rootUp => simpa [Tree.free, hroot] using h.rootUp
  case dirLinks =>
    intro b hb
    have hbn := hother b (by rw [hb]; exact nofun)
    rw [hkind b hbn] at hb
    have hlinks := h.dirLinks b hb
    have hup : (T.free n).ents (T.up b) b = T.ents (T.up b) b := by
      by_cases hu : T.up b = n
      · simp [Tree.free, hu, h.sub_of_links hl hb]
      · simp [Tree.free, hu]
    rw [subs_free h hl hbn]
    simp only [Tree.free, if_neg hbn] at hup ⊢
    rw [hup]
    exact hlinks
  case fileLinks =>
    intro m hm
    by_cases hmn : m = n
    · have : (T.free n).entries N m = 0 := Finset.sum_eq_zero fun a _ =>
        Nat.le_zero.1 ((hle a m).trans_eq (hmn ▸ h.ents_of_links hl a))
      have hzero : (T.free n).links m = 0 := by simp [Tree.free, hmn]
      rw [this, hzero]
      exact le_rfl
    · rw [hkind m hmn] at hm
      have hsum : (T.free n).entries N m ≤ T.entries N m := Finset.sum_le_sum fun a _ => hle a m
      have := h.fileLinks m hm
      simp only [Tree.free, if_neg hmn] at hsum ⊢
      omega
  case small =>
    intro m
    simp only [Tree.free]
    split
    · norm_num
    · exact h.small m

end Tree

end Msboss.Inodes
