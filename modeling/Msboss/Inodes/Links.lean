import Msboss.Inodes.Rules

/-!
# Link counts

The link count of an inode is the number of its entries, `"."` aside, in directories that have links
themselves, as long as nothing is made in a directory that has none and no count reaches its limit.
A directory that has been removed and is still some process's current directory has no links;
`create` and `link` do not refuse to make entries in it.
-/

namespace Msboss.Inodes

open Fs (FileType)

namespace Tree

variable {N : Nat} {R R' : Nat → Prop} {T T' : Tree} {d n b m : Nat} {t : FileType}

/-- What is kept besides the shape of the tree: a directory that is not entered anywhere is empty,
and the link count of a file is the number of its entries. -/
structure Exact (N : Nat) (T : Tree) : Prop where
  empty : ∀ b, T.kind b = .dir → b ≠ ROOTINO → T.ents (T.up b) b = 0 → ∀ m, T.ents b m = 0
  files : ∀ n, T.kind n ≠ .dir → T.links n = T.entries N n

/-- An inode without links has no entries. -/
theorem Exact.empty_of_links (hE : Exact N T) (h : Shape N T) (hl : T.links n = 0) (m : Nat) :
    T.ents n m = 0 := by
  by_cases hn : T.kind n = .dir
  · have hroot : n ≠ ROOTINO := fun he => by
      have := h.root_links
      rw [← he, hl] at this
      omega
    have hlinks := h.dirLinks n hn
    rw [if_neg hroot] at hlinks
    exact hE.empty n hn hroot (by omega) m
  · exact h.ents_of_not_dir hn m

/-- A directory with links is entered where its `".."` leads. -/
theorem Exact.entered (hE : Exact N T) (h : Shape N T) (hb : T.kind b = .dir) (hroot : b ≠ ROOTINO)
    (hl : 0 < T.links b) : T.ents (T.up b) b = 1 := by
  have hle := h.once (T.up b) b hb
  by_contra hne
  have hzero : T.ents (T.up b) b = 0 := by omega
  have hsubs : T.subs N b = 0 := Finset.sum_eq_zero fun m _ => by
    simp [sub, hE.empty b hb hroot hzero m]
  have hlinks := h.dirLinks b hb
  rw [hzero, hsubs, if_neg hroot] at hlinks
  omega

/-- Freeing an inode without links keeps the counts exact. -/
theorem Exact.free (hE : Exact N T) (h : Shape N T) (hl : T.links n = 0) : Exact N (T.free n) := by
  have hents : ∀ a m, (T.free n).ents a m = T.ents a m := fun a m => by
    by_cases ha : a = n
    · simp [Tree.free, ha, hE.empty_of_links h hl m]
    · simp [Tree.free, ha]
  constructor
  case empty =>
    intro b hb hroot hzero m
    have hbn : b ≠ n := fun he => by simp [Tree.free, he] at hb
    rw [hents] at hzero ⊢
    simp only [Tree.free, if_neg hbn] at hb hzero
    exact hE.empty b hb hroot hzero m
  case files =>
    intro m hm
    have hsum : (T.free n).entries N m = T.entries N m :=
      Finset.sum_congr rfl fun a _ => hents a m
    rw [hsum]
    by_cases hmn : m = n
    · have : T.entries N n = 0 := Finset.sum_eq_zero fun a _ => h.ents_of_links hl a
      simp [Tree.free, hmn, this]
    · simp only [Tree.free, if_neg hmn] at hm ⊢
      exact hE.files m hm

theorem Exact.drop (hE : Exact N T) (h : Shape N T) (hd : Drop R T n T') : Exact N T' := by
  cases hd with
  | stays => exact hE
  | freed _ hl => exact hE.free h hl

/-- Where a directory with links gets an entry, a directory without entries stays so. -/
theorem Exact.empty_enter (hE : Exact N T) (h : Shape N T) (hl : 0 < T.links d)
    (hb : T.kind b = .dir) (hroot : b ≠ ROOTINO) (hzero : T.ents (T.up b) b = 0) (m : Nat) :
    T.ents b m + (if b = d ∧ m = n then 1 else 0) = 0 := by
  have hbd : b ≠ d := fun he => by
    subst he
    have := hE.entered h hb hroot hl
    omega
  simp [hbd, hE.empty b hb hroot hzero m]

/-- A new inode keeps them exact. -/
theorem Exact.make (hE : Exact N T) (h : Shape N T) (hl : 0 < T.links d) (hd : T.kind d = .dir)
    (hn : T.kind n = .free) : Exact N (T.make d t n) := by
  constructor
  case empty =>
    intro b hb hroot hzero m
    by_cases hbn : b = n
    · subst hbn
      have ht : t = .dir := by simpa [Tree.make] using hb
      simp [Tree.make, ht] at hzero
    · simp only [Tree.make, hbn, and_false, if_false, Nat.add_zero] at hb hzero
      exact hE.empty_enter h hl hb hroot hzero m
  case files =>
    intro m hm
    rw [entries_make h hd]
    by_cases hmn : m = n
    · have : T.entries N n = 0 := Finset.sum_eq_zero fun a _ => h.ents_free hn a
      simp [Tree.make, hmn, this]
    · simp only [Tree.make, if_neg hmn] at hm ⊢
      have hmd : m ≠ d := fun he => hm (he ▸ hd)
      simpa [hmd] using hE.files m hm

/-- A link keeps them exact. -/
theorem Exact.link (hE : Exact N T) (h : Shape N T) (hl : 0 < T.links d) (hd : T.kind d = .dir)
    (hn : T.kind n ≠ .dir) : Exact N (T.link d n) := by
  constructor
  case empty =>
    intro b hb hroot hzero m
    have hbn : b ≠ n := fun he => hn (he ▸ hb)
    simp only [Tree.link, hbn, and_false, if_false, Nat.add_zero] at hzero
    exact hE.empty_enter h hl hb hroot hzero m
  case files =>
    intro m hm
    have := hE.files m hm
    rw [entries_link (h.lt_of_dir hd)]
    by_cases hmn : m = n
    · subst hmn
      simp [Tree.link, this]
    · simpa [Tree.link, hmn] using this

/-- Removing an entry keeps them exact. -/
theorem Exact.unlink (hE : Exact N T) (h : Shape N T) (hpos : 0 < T.ents d n)
    (hempty : T.kind n = .dir → ∀ m, T.ents n m = 0) : Exact N (T.unlink d n) := by
  have hd := h.owner d n hpos
  constructor
  case empty =>
    intro b hb hroot hzero m
    have hle : (T.unlink d n).ents b m ≤ T.ents b m := Nat.sub_le _ _
    have hbm : T.ents b m = 0 := by
      by_cases hbn : b = n
      · subst hbn
        exact hempty hb m
      · simp only [Tree.unlink, hbn, and_false, if_false, Nat.sub_zero] at hzero
        exact hE.empty b hb hroot hzero m
    omega
  case files =>
    intro m hm
    have hold := hE.files m hm
    have hsum := entries_unlink hpos (h.lt_of_dir hd) m
    have hmd : m ≠ d := fun he => hm (he ▸ hd)
    by_cases hmn : m = n
    · subst hmn
      simp only [Tree.unlink, if_true] at hsum ⊢
      omega
    · simp only [Tree.unlink, if_neg hmn, hmd, false_and, if_false] at hsum ⊢
      omega

/-! ## The count -/

/-- The number of entries for `n`, its `".."` included, of the directory `d` if it has links. -/
def named (T : Tree) (n d : Nat) : Nat :=
  if T.kind d = .dir ∧ 0 < T.links d then (if T.up d = n then 1 else 0) + T.ents d n else 0

/-- A directory with links is entered in `n`, or is the root and its own parent. -/
theorem Exact.named_dir (hE : Exact N T) (h : Shape N T) (hn : T.kind n = .dir) (d : Nat) :
    T.named n d = T.sub n d + (if d = ROOTINO ∧ n = ROOTINO then 1 else 0) + T.ents d n := by
  by_cases hd : T.kind d = .dir
  · by_cases hroot : d = ROOTINO
    · subst hroot
      have hl : 0 < T.links ROOTINO := h.root_links
      simp [named, sub, hd, hl, h.rootUp, h.top, eq_comm]
    by_cases hl : 0 < T.links d
    · have hone := hE.entered h hd hroot hl
      by_cases hup : T.up d = n
      · subst hup
        simp [named, sub, hd, hl, hroot, hone]
      · have : T.ents n d = 0 := by
          by_contra hne
          exact hup (h.child n d (Nat.pos_of_ne_zero hne) hd)
        simp [named, sub, hd, hl, hup, hroot, this]
    · have hzero : T.links d = 0 := le_antisymm (not_lt.1 hl) (h.links_nonneg d)
      simp [named, sub, hd, hl, hroot, h.ents_of_links hzero, hE.empty_of_links h hzero]
  · have hroot : d ≠ ROOTINO := fun he => hd (he ▸ h.root)
    simp [named, sub, hd, hroot, h.ents_of_not_dir hd]

/-- No `".."` of a directory with links leads to a file. -/
theorem Exact.named_file (hE : Exact N T) (h : Shape N T) (hn : T.kind n ≠ .dir) (d : Nat) :
    T.named n d = T.ents d n := by
  by_cases hd : T.kind d = .dir
  · by_cases hl : 0 < T.links d
    · have hup : T.up d ≠ n := fun he => by
        by_cases hroot : d = ROOTINO
        · rw [hroot, h.rootUp] at he
          exact hn (he ▸ h.root)
        · have hone := hE.entered h hd hroot hl
          exact hn (he ▸ h.owner (T.up d) d (by omega))
      simp [named, hd, hl, hup]
    · have hzero : T.links d = 0 := le_antisymm (not_lt.1 hl) (h.links_nonneg d)
      simp [named, hl, hE.empty_of_links h hzero]
  · simp [named, hd, h.ents_of_not_dir hd]

/-- A directory is entered where its `".."` leads, if at all. -/
theorem Shape.entries_dir (h : Shape N T) (hn : T.kind n = .dir) :
    T.entries N n = T.ents (T.up n) n := by
  refine Finset.sum_eq_single (T.up n) (fun d _ hd => ?_) fun hup => ?_
  · by_contra hne
    exact hd (h.child d n (Nat.pos_of_ne_zero hne) hn).symm
  · by_contra hne
    exact hup (Finset.mem_range.2 (h.lt_of_dir (h.owner _ n (Nat.pos_of_ne_zero hne))))

theorem Exact.links_eq (hE : Exact N T) (h : Shape N T) (n : Nat) :
    T.links n = (∑ d ∈ Finset.range N, T.named n d : Nat) := by
  by_cases hn : T.kind n = .dir
  · have hroot : ∑ d ∈ Finset.range N, (if d = ROOTINO ∧ n = ROOTINO then 1 else 0) =
        if n = ROOTINO then 1 else 0 := by
      by_cases hr : n = ROOTINO
      · simp [hr, h.lt_of_dir h.root]
      · simp [hr]
    rw [Finset.sum_congr rfl fun d _ => hE.named_dir h hn d, Finset.sum_add_distrib,
      Finset.sum_add_distrib, hroot]
    have hlinks := h.dirLinks n hn
    have hents := h.entries_dir hn
    unfold subs at hlinks
    unfold entries at hents
    rw [hents, hlinks]
    push_cast
    ring
  · rw [Finset.sum_congr rfl fun d _ => hE.named_file h hn d]
    exact hE.files n hn

end Tree

/-- Entries are made only in directories that have links. -/
def intoLinked : Rules where
  enter T d := 0 < T.links d
  unlink _ _ _ _ _ := True

/-- The rule keeps them exact. -/
theorem keep_exact : intoLinked.Keep fun N R T => T.Proper N R ∧ T.Exact N where
  proper h := h.1
  drop h hsub hsup hd := ⟨h.1.drop hsub hsup hd, h.2.drop h.1.shape hd⟩
  use h hn := ⟨h.1.use hn, h.2⟩
  unlink h _ hpos hempty _ h₁ h₂ := by
    have hshape := h.1.shape.unlink hpos hempty
    have hexact := h.2.unlink h.1.shape hpos hempty
    exact ⟨h.1.unlink hpos hempty h₁ h₂, (hexact.drop hshape h₁).drop (h₁.shape hshape) h₂⟩
  link h hl hd hn hfree hsmall :=
    ⟨h.1.link hd hn hfree hsmall, h.2.link h.1.shape hl hd hn⟩
  make h hl hd hn h1 hN ht hsmall :=
    ⟨h.1.make hd hn h1 hN ht hsmall, h.2.make h.1.shape hl hd hn⟩

/-- The number of entries but `"."` that name inode `n`, in directories that have links. -/
def Disk.names (N : Nat) (D : Disk) (n : Nat) : Nat :=
  ∑ d ∈ Finset.range N, if (D d).type = .dir ∧ 0 < (D d).nlink then
    (D d).dirents.countP fun e => decide (e.inum = n ∧ e.name ≠ dot) else 0

theorem Dotted.countP_names (h : Dotted D) (hd : (D d).type = .dir)
    (hn : n ≠ 0) : (D d).dirents.countP (fun e => decide (e.inum = n ∧ e.name ≠ dot)) =
      (if D.tree.up d = n then 1 else 0) + D.tree.ents d n := by
  obtain ⟨p, rest, hdots, -, -, hrest⟩ := h d hd
  have hnames : rest.countP (fun e => decide (e.inum = n ∧ e.name ≠ dot)) =
      rest.countP (fun e => decide (e.inum = n)) := by
    refine List.countP_congr fun e he => ?_
    simp only [decide_eq_true_eq]
    exact ⟨And.left, fun hen => ⟨hen, (hrest e he (hen ▸ hn)).1⟩⟩
  have hdotdot : dotdot ≠ dot := by decide
  have hup : D.tree.up d = p := by simp [Disk.tree, hd, hdots, inumAt]
  have hents : D.tree.ents d n = rest.countP (fun e => decide (e.inum = n)) := by
    simp [Disk.tree, hd, hdots, hn]
  rw [hup, hents, hdots, List.countP_cons, List.countP_cons, hnames]
  simp only [ne_eq, not_true_eq_false, and_false, decide_false, Bool.false_eq_true, if_false,
    hdotdot, not_false_eq_true, and_true, decide_eq_true_eq, Nat.add_zero]
  omega

theorem Dotted.names_eq (h : Dotted D) (N : Nat) (hn : n ≠ 0) :
    D.names N n = ∑ d ∈ Finset.range N, D.tree.named n d := by
  refine Finset.sum_congr rfl fun d _ => ?_
  by_cases hd : (D d).type = .dir
  · rw [h.countP_names hd hn]
    rfl
  · have hkind : D.tree.kind d ≠ .dir := hd
    simp [Tree.named, hd, hkind]

/-- Link counts are exact, and an inode without names is in use. -/
structure LinksExact (s : State) : Prop where
  count : ∀ n, (s.vol.disk n).type ≠ .free →
    (s.vol.disk n).nlink = s.vol.disk.names s.vol.ninodes n
  unnamed : ∀ n, (s.vol.disk n).type ≠ .free → s.vol.disk.names s.vol.ninodes n = 0 →
    (s.vol.disk n).nlink = 0 ∧ ∃ i, 0 < (s.vol.entry i).ref ∧ (s.vol.entry i).inum = n

theorem linksExact_of_between (h : Between True (Ordered fun N R T => T.Proper N R ∧ T.Exact N) s)
    : LinksExact s := by
  have ho := h.fine trivial
  have hcount : ∀ n, (s.vol.disk n).type ≠ .free →
      (s.vol.disk n).nlink = s.vol.disk.names s.vol.ninodes n := fun n hn => by
    have hn0 : n ≠ 0 := Nat.one_le_iff_ne_zero.1 (ho.tree.1.shape.bound n hn).1
    rw [ho.dotted.names_eq _ hn0]
    exact ho.tree.2.links_eq ho.tree.1.shape n
  refine ⟨hcount, fun n hn h0 => ?_⟩
  have hl : (s.vol.disk n).nlink = 0 := by rw [hcount n hn, h0]; rfl
  obtain ⟨i, hi, hin⟩ := ho.tree.1.quiet n hn hl
  refine ⟨hl, i, ?_, hin⟩
  rw [(h.held.fits i).refs]
  omega

/-- In every run in which entries are made only in directories that have links, and no link count
reaches its limit, link counts are exact after every call. -/
theorem links_exact {s : State} (h : ((system WellFormed).restrict intoLinked.Obeyed).Reach s) :
    LinksExact s := by
  refine linksExact_of_between (h.invariant
    (I := Between True (Ordered fun N R T => T.Proper N R ∧ T.Exact N)) (fun s hi => ?_)
    fun s a s' hI hs => ?_)
  · obtain ⟨N, D, hD, rfl⟩ := hi
    refine between_boot fun _ => ⟨hD.fits, hD.dotted, hD.proper, fun b hb hroot h0 => ?_, hD.exact⟩
    have := hD.entered b hb hroot
    omega
  · exact hI.next (keep_exact.stable False.elim) False.elim hs.2 fun _ => hs.1

/-- A directory is made and entered, two names are given to a file in it, and one is removed. -/
def twoNames : List Act :=
  [.mkdir 0 (some [100]), .chdir 0 (some [100]), .open 0 (some [120]) 0x200,
    .link 0 (some [120]) (some [47, 121]), .unlink 0 (some [120]), .chdir 0 (some [47]),
    .unlink 0 (some [100])]

instance (T : Tree) (d : Nat) : Decidable (intoLinked.enter T d) :=
  inferInstanceAs (Decidable (0 < T.links d))

instance (N : Nat) (R : Nat → Prop) (T : Tree) (d n : Nat) :
    Decidable (intoLinked.unlink N R T d n) := inferInstanceAs (Decidable True)

instance (s : State) (a : Act) : Decidable (intoLinked.Obeyed s a) :=
  inferInstanceAs (Decidable (intoLinked.Allow _ _ _ _ _))

/-- `links_exact` on the run of `twoNames`. -/
theorem links_exact_twoNames : ∃ s, ((system WellFormed).restrict intoLinked.Obeyed).Reach s ∧
    (s.vol.disk 2).type = .free ∧ (s.vol.disk 3).nlink = 1 ∧ LinksExact s := by
  obtain ⟨s, hreach, h1, h2⟩ := (system WellFormed).exists_reach intoLinked.Obeyed next
    (boot 10 emptyDisk) twoNames
    (Q := fun s => (s.vol.disk 2).type = .free ∧ (s.vol.disk 3).nlink = 1)
    rfl boot_emptyDisk (by decide +kernel)
  exact ⟨s, hreach, h1, h2, links_exact hreach⟩

/-- A directory is made, entered and removed, and a file is made in it. -/
def fileInRemoved : List Act :=
  [.mkdir 0 (some [100]), .chdir 0 (some [100]), .unlink 0 (some [46, 46, 47, 100]),
    .open 0 (some [120]) 0x200]

/-- The file has a link and no name in a directory that has links. -/
theorem links_inexact : ∃ s, (system WellFormed).Reach s ∧ (s.vol.disk 3).type = .file ∧
    (s.vol.disk 3).nlink = 1 ∧ s.vol.disk.names s.vol.ninodes 3 = 0 ∧ ¬ LinksExact s := by
  obtain ⟨s, hreach, h1, h2, h3⟩ := (system WellFormed).exists_run next (boot 10 emptyDisk)
    fileInRemoved (Q := fun s => (s.vol.disk 3).type = .file ∧ (s.vol.disk 3).nlink = 1 ∧
      s.vol.disk.names s.vol.ninodes 3 = 0) rfl boot_emptyDisk (by decide +kernel)
  refine ⟨s, hreach, h1, h2, h3, fun h => ?_⟩
  have := h.count 3 (by rw [h1]; exact nofun)
  rw [h2, h3] at this
  cases this

end Msboss.Inodes
