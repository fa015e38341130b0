import Msboss.Inodes.Rules

/-!
# Entries for free inodes

A directory that has been removed stays while it is some process's current directory, and so does
its `".."`. `unlink` takes that link from the parent all the same, so the parent can be removed and
freed first; a lookup of `".."` then ends in the panic of `ilock`.

Otherwise no directory has an entry for a free inode: it does not come to that if a directory is
removed only when no other directory's `".."` leads to it, and a directory that is itself removed
loses its last link only together with the last directory in it.
-/

namespace Msboss.Inodes

open Fs (FileType)

namespace Tree

variable {N : Nat} {R R' : Nat → Prop} {T T' T1 T2 : Tree} {d n b m : Nat} {t : FileType}

/-- Every `".."` leads to a directory that has a link. -/
def Anchored (T : Tree) : Prop :=
  ∀ b, T.kind b = .dir → T.kind (T.up b) = .dir ∧ 1 ≤ T.links (T.up b)

/-- What is not freed stays as it was. -/
theorem Drop.same (hd : Drop R T n T') (hm : T'.kind m ≠ .free) :
    T'.kind m = T.kind m ∧ T'.up m = T.up m := by
  cases hd with
  | stays => exact ⟨rfl, rfl⟩
  | freed =>
    have hne : m ≠ n := fun he => hm (if_pos he)
    exact ⟨if_neg hne, if_neg hne⟩

/-- What has a link is not freed. -/
theorem Drop.linked (hd : Drop R T n T') (hm : 1 ≤ T.links m) :
    T'.kind m = T.kind m ∧ T'.links m = T.links m := by
  cases hd with
  | stays => exact ⟨rfl, rfl⟩
  | freed _ hl =>
    have hne : m ≠ n := fun he => by rw [he, hl] at hm; omega
    exact ⟨if_neg hne, if_neg hne⟩

/-- What has no link does not get one. -/
theorem Drop.unlinked (hd : Drop R T n T') (hm : T.links m = 0) : T'.links m = 0 := by
  cases hd with
  | stays => exact hm
  | freed =>
    by_cases he : m = n
    · exact if_pos he
    · rw [Tree.free]
      exact (if_neg he).trans hm

/-- Giving an inode back keeps it. -/
theorem Anchored.drop (h : Anchored T) (hd : Drop R T n T') : Anchored T' := by
  intro b hb
  obtain ⟨hkind, hup⟩ := hd.same (m := b) (by rw [hb]; exact nofun)
  obtain ⟨hdir, hlinks⟩ := h b (hkind ▸ hb)
  obtain ⟨hkind', hlinks'⟩ := hd.linked hlinks
  rw [hup, hkind', hlinks']
  exact ⟨hdir, hlinks⟩

/-- A link keeps it. -/
theorem Anchored.link (h : Anchored T) : Anchored (T.link d n) := by
  intro b hb
  obtain ⟨hdir, hlinks⟩ := h b hb
  refine ⟨hdir, ?_⟩
  change 1 ≤ (T.link d n).links (T.up b)
  unfold Tree.link
  dsimp only
  split
  · next he =>
    rw [he] at hlinks
    omega
  · exact hlinks

/-- A new inode keeps it. -/
theorem Anchored.make (h : Anchored T) (hd : T.kind d = .dir) (h0 : 0 ≤ T.links d)
    (hn : T.kind n = .free) : Anchored (T.make d t n) := by
  have hne : ∀ m, T.kind m = .dir → m ≠ n := fun m hm he => by rw [he, hn] at hm; cases hm
  intro b hb
  by_cases hbn : b = n
  · have ht : t = .dir := by simpa [Tree.make, hbn] using hb
    have hup : (T.make d t n).up b = d := by simp [Tree.make, hbn, ht]
    rw [hup]
    simp only [Tree.make, if_neg (hne d hd), ht, and_self, if_true]
    exact ⟨hd, by omega⟩
  have hup : (T.make d t n).up b = T.up b := if_neg hbn
  have hkind : T.kind b = .dir := by simpa [Tree.make, hbn] using hb
  obtain ⟨hdir, hlinks⟩ := h b hkind
  rw [hup]
  simp only [Tree.make, if_neg (hne _ hdir)]
  refine ⟨hdir, ?_⟩
  split
  · next he =>
    rw [he.1] at hlinks
    omega
  · exact hlinks

/-- No directory other than `n`, which is removed with it, has its `".."` at `n` or, if that was its
last link, at `d`. -/
def Detached (N : Nat) (R : Nat → Prop) (T : Tree) (d n : Nat) : Prop :=
  T.kind n = .dir → (∀ b < N, T.kind b = .dir → T.up b ≠ n) ∧
    (T.links d = 1 → ¬ R n ∧ ∀ b < N, T.kind b = .dir → T.up b = d → b = n)

/-- Removing a detached entry keeps it. -/
theorem Anchored.unlink (hA : Anchored T) (h : Shape N T) (hρ : Detached N R T d n)
    (hpos : 0 < T.ents d n) (hempty : T.kind n = .dir → ∀ m, T.ents n m = 0)
    (h₁ : Drop R (T.unlink d n) d T1) (h₂ : Drop R T1 n T2) : Anchored T2 := by
  intro b hb
  obtain ⟨hk2, hup2⟩ := h₂.same (m := b) (by rw [hb]; exact nofun)
  rw [hk2] at hb
  obtain ⟨hk1, hup1⟩ := h₁.same (m := b) (by rw [hb]; exact nofun)
  rw [hk1] at hb
  have hb : T.kind b = .dir := hb
  obtain ⟨hdir, hlinks⟩ := hA b hb
  have hup : T2.up b = T.up b := hup2.trans hup1
  have hkept : 1 ≤ (T.unlink d n).links (T.up b) := by
    unfold Tree.unlink
    dsimp only
    split
    · next he =>
      rw [he] at hdir
      exact absurd he ((hρ hdir).1 b (h.lt_of_dir hb) hb)
    split
    · next he =>
      -- The parent of `b` loses a link, and has another unless `b` is the directory removed.
      by_contra hlast
      rw [he.1] at hlinks
      obtain ⟨hR, hb'⟩ := (hρ he.2).2 (by omega)
      obtain rfl := hb' b (h.lt_of_dir hb) hb he.1
      have hzero : T1.links b = 0 := h₁.unlinked (by
        simp [Tree.unlink, h.links_of_empty hpos hb (hempty hb)])
      cases h₂ with
      | stays hs => exact hs.elim hR fun hne => hne hzero
      | freed => simp [Tree.free, hk1, hb] at hk2
    · exact hlinks
  obtain ⟨hkind1, hlinks1⟩ := h₁.linked hkept
  obtain ⟨hkind2, hlinks2⟩ := h₂.linked (hlinks1 ▸ hkept)
  rw [hup, hkind2, hkind1, hlinks2, hlinks1]
  exact ⟨hdir, hkept⟩

end Tree

/-- Directories are removed only when no other directory's `".."` is left behind. -/
def parentsLast : Rules where
  enter _ _ := True
  unlink := Tree.Detached

/-- The rule keeps directories anchored. -/
theorem keep_anchored : parentsLast.Keep fun N R T => T.Proper N R ∧ T.Anchored where
  proper h := h.1
  drop h hsub hsup hd := ⟨h.1.drop hsub hsup hd, h.2.drop hd⟩
  use h hn := ⟨h.1.use hn, h.2⟩
  unlink h hρ hpos hempty _ h₁ h₂ :=
    ⟨h.1.unlink hpos hempty h₁ h₂, h.2.unlink h.1.shape hρ hpos hempty h₁ h₂⟩
  link h _ hd hn hfree hsmall := ⟨h.1.link hd hn hfree hsmall, h.2.link⟩
  make h _ hd hn h1 hN ht hsmall :=
    ⟨h.1.make hd hn h1 hN ht hsmall, h.2.make hd (h.1.shape.links_nonneg _) hn⟩

/-- No directory has an entry for a free inode. -/
def NoDangling (D : Disk) : Prop :=
  ∀ d, (D d).type = .dir → ∀ e ∈ (D d).dirents, e.inum ≠ 0 → (D e.inum).type ≠ .free

theorem Ordered.noDangling (h : Ordered (fun N R T => T.Proper N R ∧ T.Anchored) N R D)
    : NoDangling D := by
  intro d hd e he he0
  obtain ⟨p, rest, hdots, -, -, -⟩ := h.dotted d hd
  rw [hdots, List.mem_cons, List.mem_cons] at he
  obtain rfl | rfl | he := he
  · rw [hd]
    exact nofun
  · have hup : D.tree.up d = p := by simp [Disk.tree, hd, hdots, inumAt]
    have hdir := (h.tree.2 d hd).1
    rw [hup] at hdir
    rw [show (D p).type = .dir from hdir]
    exact nofun
  · have hpos : 0 < D.tree.ents d e.inum := by
      simp only [Disk.tree, hd, hdots, List.drop_succ_cons, List.drop_zero, he0, ne_eq,
        not_false_eq_true, and_self, if_true]
      exact List.countP_pos_iff.2 ⟨e, he, by simp⟩
    exact h.tree.1.shape.named d e.inum hpos

theorem Ordered.live (h : Ordered (fun N R T => T.Proper N R ∧ T.Anchored) N R D) : Live R D where
  named := h.noDangling
  root := by
    rw [show (D ROOTINO).type = .dir from h.tree.1.shape.root]
    exact nofun
  used := h.tree.1.used

/-- In every run in which directories are removed only when no other directory's `".."` is left
behind, and no link count reaches its limit, no directory has an entry for a free inode after any
call, and no further call of this kind ends in the panic of `ilock`. -/
theorem no_dangling {s : State} (h : ((system WellFormed).restrict parentsLast.Obeyed).Reach s) :
    NoDangling s.vol.disk ∧
      ∀ a, s.Enabled a → parentsLast.Obeyed s a → code a s ≠ .error .noType := by
  have hstable : Stable True (Ordered _) parentsLast.Allow :=
    keep_anchored.stable fun _ _ _ _ h => h.live
  have hb : Between True (Ordered fun N R T => T.Proper N R ∧ T.Anchored) s := by
    refine h.invariant (fun s hi => ?_) fun s a s' hI hs => ?_
    · obtain ⟨N, D, hD, rfl⟩ := hi
      refine between_boot fun _ => ⟨hD.fits, hD.dotted, hD.proper, fun b hb => ?_⟩
      by_cases hroot : b = ROOTINO
      · rw [hroot, hD.shape.rootUp]
        exact ⟨hD.shape.root, hD.shape.root_links⟩
      · have hpos := hD.entered b hb hroot
        exact ⟨hD.shape.owner _ b hpos, hD.shape.owner_links hpos hb⟩
    · exact hI.next hstable id hs.2 fun _ => hs.1
  refine ⟨(hb.fine trivial).noDangling, fun a ha hρ herr => ?_⟩
  exact (ends_code hstable id hb ha fun _ => hρ).of_error herr rfl trivial

instance (K : Kept) (n : Nat) : Decidable (K.Has n) :=
  inferInstanceAs (Decidable (∃ i, 0 < K.count i ∧ K.inum i = n))

instance (T : Tree) (d : Nat) : Decidable (parentsLast.enter T d) :=
  inferInstanceAs (Decidable True)

instance (N : Nat) (K : Kept) (T : Tree) (d n : Nat) :
    Decidable (parentsLast.unlink N K.Has T d n) :=
  inferInstanceAs (Decidable (_ → (∀ b < N, _ → _) ∧ (_ → ¬ K.Has n ∧ ∀ b < N, _ → _ → _)))

instance (s : State) (a : Act) : Decidable (parentsLast.Obeyed s a) :=
  inferInstanceAs (Decidable (parentsLast.Allow _ (kept s).Has _ _ _))

/-- A directory is made in another, and both are removed, the inner one while it is in use. -/
def innerFirst : List Act :=
  [.mkdir 0 (some [97]), .mkdir 0 (some [97, 47, 98]), .chdir 0 (some [97, 47, 98]),
    .unlink 0 (some [47, 97, 47, 98]), .chdir 0 (some [46, 46]), .unlink 0 (some [47, 97])]

/-- `no_dangling` on the run of `innerFirst`. -/
theorem no_dangling_innerFirst : ∃ s, ((system WellFormed).restrict parentsLast.Obeyed).Reach s ∧
      (s.vol.disk 2).type = .dir ∧ (s.vol.disk 3).type = .free ∧ NoDangling s.vol.disk := by
  obtain ⟨s, hreach, h1, h2⟩ := (system WellFormed).exists_reach parentsLast.Obeyed next
    (boot 10 emptyDisk) innerFirst
    (Q := fun s => (s.vol.disk 2).type = .dir ∧ (s.vol.disk 3).type = .free)
    rfl boot_emptyDisk (by decide +kernel)
  exact ⟨s, hreach, h1, h2, (no_dangling hreach).1⟩

/-- The inner directory is in use when the outer one is removed. -/
def outerFirst : List Act :=
  [.mkdir 0 (some [97]), .mkdir 0 (some [97, 47, 98]), .chdir 0 (some [97, 47, 98]),
    .unlink 0 (some [47, 97, 47, 98]), .unlink 0 (some [47, 97])]

/-- The `".."` of the inner directory leads to a free inode, and `chdir("..")` ends in a panic. -/
theorem dangling : ∃ s, (system WellFormed).Reach s ∧ (s.vol.disk 3).type = .dir ∧
    ¬ NoDangling s.vol.disk ∧ s.Enabled (.chdir 0 (some [46, 46])) ∧
    code (.chdir 0 (some [46, 46])) s = .error .noType := by
  obtain ⟨s, hreach, h1, h2, h3, h4, h5⟩ := (system WellFormed).exists_run next
    (boot 10 emptyDisk) outerFirst
    (Q := fun s => (s.vol.disk 3).type = .dir ∧ ⟨2, dotdot⟩ ∈ (s.vol.disk 3).dirents ∧
      (s.vol.disk 2).type = .free ∧ s.Enabled (.chdir 0 (some [46, 46])) ∧
      (code (.chdir 0 (some [46, 46])) s).map (fun _ => ()) = .error .noType)
    rfl boot_emptyDisk (by decide +kernel)
  refine ⟨s, hreach, h1, fun h => h 3 h1 _ h2 (by decide) h3, h4, ?_⟩
  cases hc : code (.chdir 0 (some [46, 46])) s with
  | error e =>
    rw [hc] at h5
    exact congrArg _ (Except.error.inj h5)
  | ok r =>
    rw [hc] at h5
    cases h5

end Msboss.Inodes
