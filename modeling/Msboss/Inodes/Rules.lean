import Msboss.Inodes.Abstraction
import Msboss.Inodes.Balance

/-!
# The calls as changes of the tree

What a call does to a disk in order is one of four changes of its tree. A property of the tree that
these keep, where `Rules` allow them, is one that the calls keep.
-/

namespace Msboss.Inodes

open Fs (FileType)

namespace Tree

variable {N : Nat} {R R' X : Nat → Prop} {T T' T1 T2 : Tree} {d n : Nat} {t : FileType}

/-- What becomes of an inode when a call's last reference to it goes. -/
inductive Drop (R : Nat → Prop) (T : Tree) (n : Nat) : Tree → Prop
  | stays : R n ∨ T.links n ≠ 0 → Drop R T n T
  | freed : ¬ R n → T.links n = 0 → Drop R T n (T.free n)

/-- Giving an inode back keeps the shape. -/
theorem Drop.shape (hd : Drop R T n T') (h : Shape N T) : Shape N T' := by
  cases hd with
  | stays => exact h
  | freed _ hl => exact h.free hl

theorem Drop.used (hd : Drop R T n T') (h : ∀ m, R m → T.kind m ≠ .free) (m : Nat) (hm : R m) :
    T'.kind m ≠ .free := by
  cases hd with
  | stays => exact h m hm
  | freed hn =>
    have hne : m ≠ n := fun he => hn (he ▸ hm)
    simpa [free, hne] using h m hm

/-- If only the inodes of `R` and of `X` and `n` may be without links, then `n` need not be among
these when it has been dropped. -/
theorem Drop.quiet (hd : Drop R T n T')
    (h : ∀ m, T.kind m ≠ .free → T.links m = 0 → R m ∨ X m ∨ m = n) (m : Nat)
    (hm : T'.kind m ≠ .free) (hl : T'.links m = 0) : R m ∨ X m := by
  cases hd with
  | stays hs =>
    obtain hR | hX | rfl := h m hm hl
    · exact .inl hR
    · exact .inr hX
    · exact .inl (hs.resolve_right fun hne => hne hl)
  | freed =>
    have hne : m ≠ n := fun he => hm (if_pos he)
    simp only [free, if_neg hne] at hm hl
    obtain hR | hX | he := h m hm hl
    · exact .inl hR
    · exact .inr hX
    · exact absurd he hne

/-- A tree in order, if the inodes in use are `R`: these are there, and those without links are
among them. -/
structure Proper (N : Nat) (R : Nat → Prop) (T : Tree) : Prop where
  shape : Shape N T
  quiet : ∀ n, T.kind n ≠ .free → T.links n = 0 → R n
  used : ∀ n, R n → T.kind n ≠ .free

/-- A reference that is given back. -/
theorem Proper.drop (h : Proper N R T) (hsub : ∀ m, R' m → R m) (hsup : ∀ m, m ≠ n → R m → R' m)
    (hd : Drop R' T n T') : Proper N R' T' where
  shape := hd.shape h.shape
  quiet m hm hl := by
    refine (hd.quiet (X := fun _ => False) (fun m hm hl => ?_) m hm hl).resolve_right id
    by_cases he : m = n
    · exact .inr (.inr he)
    · exact .inl (hsup m he (h.quiet m hm hl))
  used m hm := hd.used (fun m hm => h.used m (hsub m hm)) m hm

/-- A reference that is taken. -/
theorem Proper.use (h : Proper N R T) (hn : T.kind n ≠ .free) :
    Proper N (fun m => R m ∨ m = n) T where
  shape := h.shape
  quiet m hm hl := .inl (h.quiet m hm hl)
  used m hm := by
    obtain hm | rfl := hm
    · exact h.used m hm
    · exact hn

/-- `unlink` keeps the tree proper. -/
theorem Proper.unlink (h : Proper N R T) (hpos : 0 < T.ents d n)
    (hempty : T.kind n = .dir → ∀ m, T.ents n m = 0) (h₁ : Drop R (T.unlink d n) d T1)
    (h₂ : Drop R T1 n T2) : Proper N R T2 where
  shape := h₂.shape (h₁.shape (h.shape.unlink hpos hempty))
  quiet m hm hl := by
    refine (h₂.quiet (X := fun _ => False) (fun m hm hl => ?_) m hm hl).resolve_right id
    -- Only `d` and `n` may have lost a link.
    have := h₁.quiet (X := fun m => m = n) (fun m hm hl => ?_) m hm hl
    · exact this.imp id .inr
    · by_cases hn : m = n
      · exact .inr (.inl hn)
      by_cases hd : m = d
      · exact .inr (.inr hd)
      · simp only [Tree.unlink, if_neg hn, hd, false_and, if_false] at hl
        exact .inl (h.quiet m hm hl)
  used m hm := h₂.used (fun m hm => h₁.used h.used m hm) m hm

/-- `link` keeps the tree proper. -/
theorem Proper.link (h : Proper N R T) (hd : T.kind d = .dir) (hn : T.kind n ≠ .dir)
    (hfree : T.kind n ≠ .free) (hsmall : T.links n + 1 < 2 ^ 15) : Proper N R (T.link d n) where
  shape := h.shape.link hd hn hfree hsmall
  quiet m hm hl := by
    by_cases he : m = n
    · have := h.shape.links_nonneg n
      simp only [Tree.link, if_pos he] at hl
      omega
    · simp only [Tree.link, if_neg he] at hl
      exact h.quiet m hm hl
  used := h.used

/-- `create` keeps the tree proper. -/
theorem Proper.make (h : Proper N R T) (hd : T.kind d = .dir) (hn : T.kind n = .free) (h1 : 1 ≤ n)
    (hN : n < N) (ht : t ≠ .free) (hsmall : t = .dir → T.links d + 1 < 2 ^ 15) :
    Proper N R (T.make d t n) where
  shape := h.shape.make hd hn h1 hN ht hsmall
  quiet m hm hl := by
    by_cases he : m = n
    · simp [Tree.make, he] at hl
    by_cases hdir : m = d ∧ t = .dir
    · have := h.shape.links_nonneg d
      simp only [Tree.make, if_neg he, if_pos hdir] at hl
      omega
    · simp only [Tree.make, if_neg he, if_neg hdir] at hm hl
      exact h.quiet m hm hl
  used m hm := by
    by_cases he : m = n
    · simpa [Tree.make, he] using ht
    · simpa [Tree.make, he] using h.used m hm

end Tree

/-- What calls are allowed. -/
structure Rules where
  /-- An entry is made in directory `d`. -/
  enter : Tree → Nat → Prop
  /-- The entry for `n` in directory `d` is removed. -/
  unlink : Nat → (Nat → Prop) → Tree → Nat → Nat → Prop

/-- A property of trees that the allowed changes keep. -/
structure Rules.Keep (ρ : Rules) (X : Nat → (Nat → Prop) → Tree → Prop) : Prop where
  proper : ∀ {N R T}, X N R T → T.Proper N R
  drop : ∀ {N R R' T T' n}, X N R T → (∀ m, R' m → R m) → (∀ m, m ≠ n → R m → R' m) →
    T.Drop R' n T' → X N R' T'
  use : ∀ {N R T n}, X N R T → T.kind n ≠ .free → X N (fun m => R m ∨ m = n) T
  unlink : ∀ {N R T T1 T2 d n}, X N R T → ρ.unlink N R T d n → 0 < T.ents d n →
    (T.kind n = .dir → ∀ m, T.ents n m = 0) → d ≠ n → (T.unlink d n).Drop R d T1 →
    T1.Drop R n T2 → X N R T2
  link : ∀ {N R T d n}, X N R T → ρ.enter T d → T.kind d = .dir → T.kind n ≠ .dir →
    T.kind n ≠ .free → T.links n + 1 < 2 ^ 15 → X N R (T.link d n)
  make : ∀ {N R T d t n}, X N R T → ρ.enter T d → T.kind d = .dir → T.kind n = .free → 1 ≤ n →
    n < N → t ≠ .free → (t = .dir → T.links d + 1 < 2 ^ 15) → X N R (T.make d t n)

namespace Rules

variable (ρ : Rules) (N : Nat) (R : Nat → Prop) (D : Disk) (c : Nat)

/-- The rules allow that `path` is made, if it does not exist. -/
def Makes (t : FileType) (path : List UInt8) : Prop :=
  ∀ x ∈ D.parent c path, slot (D x.1).dirents x.2 = none →
    ρ.enter D.tree x.1 ∧ (t = .dir → (D x.1).nlink + 1 < 2 ^ 15)

/-- The rules allow that `new` is made a name of the file `old`, if it does not exist. -/
def Links (old new : List UInt8) : Prop :=
  ∀ n ∈ D.find c old, ∀ x ∈ D.parent c new, (D n).type ≠ .dir → slot (D x.1).dirents x.2 = none →
    ρ.enter D.tree x.1 ∧ (D n).nlink + 1 < 2 ^ 15

/-- The rules allow that `path` is removed, if it can be. -/
def Unlinks (path : List UInt8) : Prop :=
  ∀ x ∈ D.parent c path, ∀ k ∈ slot (D x.1).dirents x.2, x.2 ≠ dot → x.2 ≠ dotdot →
    ((D (inumAt (D x.1).dirents k)).type = .dir →
      isdirempty (D (inumAt (D x.1).dirents k)).dirents = true) →
    ρ.unlink N R D.tree x.1 (inumAt (D x.1).dirents k)

/-- The rules allow a call, by a process whose current directory is `c`. -/
def Allow : Act → Prop
  | .open _ path omode =>
    omode &&& Ftable.Files.O_CREATE ≠ 0 → ∀ l ∈ path, ρ.Makes D c .file l
  | .mkdir _ path => ∀ l ∈ path, ρ.Makes D c .dir l
  | .mknod _ path => ∀ l ∈ path, ρ.Makes D c .dev l
  | .link _ old new => ∀ l ∈ old, ∀ l' ∈ new, ρ.Links D c l l'
  | .unlink _ path => ∀ l ∈ path, ρ.Unlinks N R D c l
  | _ => True

section decidable
variable [∀ T d, Decidable (ρ.enter T d)]

instance (t : FileType) (path : List UInt8) : Decidable (ρ.Makes D c t path) :=
  inferInstanceAs (Decidable (∀ x ∈ _, _ → _ ∧ _))

instance (old new : List UInt8) : Decidable (ρ.Links D c old new) :=
  inferInstanceAs (Decidable (∀ n ∈ _, ∀ x ∈ _, _ → _ → _ ∧ _))

variable [∀ T d n, Decidable (ρ.unlink N R T d n)]

instance (path : List UInt8) : Decidable (ρ.Unlinks N R D c path) :=
  inferInstanceAs (Decidable (∀ x ∈ _, ∀ k ∈ _, _ → _ → _ → _))

instance : (a : Act) → Decidable (ρ.Allow N R D c a)
  | .open _ path omode => inferInstanceAs (Decidable
      (omode &&& Ftable.Files.O_CREATE ≠ 0 → ∀ l ∈ path, ρ.Makes D c .file l))
  | .mkdir _ path => inferInstanceAs (Decidable (∀ l ∈ path, ρ.Makes D c .dir l))
  | .mknod _ path => inferInstanceAs (Decidable (∀ l ∈ path, ρ.Makes D c .dev l))
  | .link _ old new => inferInstanceAs (Decidable (∀ l ∈ old, ∀ l' ∈ new, ρ.Links D c l l'))
  | .unlink _ path => inferInstanceAs (Decidable (∀ l ∈ path, ρ.Unlinks N R D c l))
  | .close _ _ | .dup _ _ | .chdir _ _ | .exec _ _ | .fork _ _ | .exit _ =>
    inferInstanceAs (Decidable True)

end decidable

/-- The rules allow a call in state `s`. -/
def Obeyed (s : State) (a : Act) : Prop :=
  ρ.Allow s.vol.ninodes (kept s).Has s.vol.disk (s.cwdInum a.proc) a

end Rules

/-- A disk whose inode numbers fit a directory entry, whose directories start with their dots, and
whose tree has `X`. -/
structure Ordered (X : Nat → (Nat → Prop) → Tree → Prop) (N : Nat) (R : Nat → Prop) (D : Disk) :
    Prop where
  fits : N ≤ 2 ^ 16
  dotted : Dotted D
  tree : X N R D.tree

variable {ρ : Rules} {X : Nat → (Nat → Prop) → Tree → Prop} {N : Nat} {R R' : Nat → Prop}
  {D D' : Disk} {c n : Nat}

theorem Drop.tree (h : Drop R D n D') : D.tree.Drop R n D'.tree := by
  cases h with
  | stays hs => exact .stays hs
  | freed hn hl => exact tree_free D n ▸ .freed hn hl

theorem Drop.dotted (h : Drop R D n D') (hD : Dotted D) : Dotted D' := by
  cases h with
  | stays => exact hD
  | freed => exact hD.free n

namespace Ordered

theorem sane (hX : ρ.Keep X) (h : Ordered X N R D) : Sane R D where
  quiet := (hX.proper h.tree).quiet
  used := (hX.proper h.tree).used
  range n := ⟨(hX.proper h.tree).shape.links_nonneg n, (hX.proper h.tree).shape.small n⟩
  rootLinks := by
    have : 1 ≤ (D ROOTINO).nlink := (hX.proper h.tree).shape.root_links
    omega

/-- `unlink` keeps the invariant. -/
theorem unlink {path : Option (List UInt8)} (hX : ρ.Keep X) (h : Ordered X N R D)
    (hρ : ∀ l ∈ path, ρ.Unlinks N R D c l) (hu : Unlinked R D c path D') : Ordered X N R D' := by
  cases hu with
  | fails => exact h
  | @removes path d k n name D1 _ hparent hdir h1 h2 hslot hat hlinks hempty hdn hd1 hd2 =>
    have hshape := (hX.proper h.tree).shape
    have hk : 2 ≤ k := h.dotted.slot_of_some hdir h1 h2 hslot
    obtain ⟨e, -, he0, -, hek, hinum⟩ := inumAt_slot hslot
    have hen : e.inum = n := by rw [← hinum, hat]
    have hpos : 0 < D.tree.ents d n := hen ▸ ents_pos hdir hk hek he0
    have htree := tree_unlink h.dotted hdir hk hek hen hdn hlinks (hshape.small n)
      (hshape.links_nonneg d) (hshape.small d)
    subst hat
    exact {
      fits := h.fits
      dotted := hd2.dotted (hd1.dotted (h.dotted.unlink hk))
      tree := hX.unlink h.tree (hρ path rfl (d, name) hparent k hslot h1 h2 hempty) hpos
        (fun hn m => tree_isdirempty (hempty hn) m) hdn (htree ▸ hd1.tree) hd2.tree }

/-- `link` keeps the invariant. -/
theorem link {old new : Option (List UInt8)} (hX : ρ.Keep X) (h : Ordered X N R D)
    (hρ : ∀ l ∈ old, ∀ l' ∈ new, ρ.Links D c l l') (hl : Linked D c old new D') :
    Ordered X N R D' := by
  cases hl with
  | fails => exact h
  | @links old new n d name hfind hn hfree hparent hdir hslot =>
    have hshape := (hX.proper h.tree).shape
    obtain ⟨hn1, hnN⟩ := hshape.bound n hfree
    obtain ⟨henter, hsmall⟩ := hρ old rfl new rfl n hfind (d, name) hparent hn hslot
    obtain ⟨hdot, hdotdot⟩ := h.dotted.name_of_none hdir hslot
    have hfits := h.fits
    have hdn : d ≠ n := fun he => hn (he ▸ hdir)
    have htree := tree_link h.dotted hdir (by omega) (by omega) (hshape.links_nonneg n) hsmall name
    exact {
      fits := h.fits
      dotted := (h.dotted.relink n _).enter (by rwa [Disk.relink_apply, if_neg hdn]) hdot hdotdot n
      tree := htree ▸ hX.link h.tree henter hdir hn hfree hsmall }

/-- `create` keeps the invariant. -/
theorem create (hX : ρ.Keep X) (h : Ordered X N R D)
    (ht : t ≠ .free) (hρ : ρ.Makes D c t path) (hc : Created N D c path t n D') :
    Ordered X N R D' := by
  cases hc with
  | @made d name n hparent hdir hslot hn1 hnN hfree =>
    have hshape := (hX.proper h.tree).shape
    have hdN := hshape.lt_of_dir hdir
    have hfits := h.fits
    obtain ⟨henter, hsmall⟩ := hρ (d, name) hparent hslot
    have htree := tree_make h.dotted hdir hfree (by omega) (by omega) (by omega)
      (hshape.links_nonneg d) hsmall name
    exact {
      fits := h.fits
      dotted := h.dotted.make hdir hfree hslot (by omega) (by omega) (by omega) t
      tree := htree ▸ hX.make h.tree henter hdir hfree hn1 hnN ht hsmall }

end Ordered

/-- What the changes of the tree keep, the calls keep. -/
theorem Rules.Keep.stable {Safe : Prop} (hX : ρ.Keep X)
    (hlive : Safe → ∀ {N R D}, Ordered X N R D → Live R D) : Stable Safe (Ordered X) ρ.Allow where
  sane h := h.sane hX
  live hS h := hlive hS h
  drop h hsub hsup hd :=
    { fits := h.fits, dotted := hd.dotted h.dotted, tree := hX.drop h.tree hsub hsup hd.tree }
  use h hn := { fits := h.fits, dotted := h.dotted, tree := hX.use h.tree hn }
  unlink h hρ hu := h.unlink hX hρ hu
  link h hρ hl := h.link hX hρ hl
  create {N R D D' c a path t n} h hρ ha hc := by
    cases a with
    | «open» p path' omode =>
      obtain ⟨rfl, rfl, hcreate⟩ := ha
      exact h.create (t := .file) hX nofun (hρ hcreate path rfl) hc
    | mkdir p path' =>
      obtain ⟨rfl, rfl⟩ := ha
      exact h.create (t := .dir) hX nofun (hρ path rfl) hc
    | mknod p path' =>
      obtain ⟨rfl, rfl⟩ := ha
      exact h.create (t := .dev) hX nofun (hρ path rfl) hc
    | _ => exact ha.elim

/-- A disk without open files: every inode has a link, every directory but the root is entered
where its `".."` leads, and the link count of a file is the number of its entries. -/
structure WellFormed (N : Nat) (D : Disk) : Prop where
  fits : N ≤ 2 ^ 16
  dotted : Dotted D
  shape : D.tree.Shape N
  linked : ∀ n, (D n).type ≠ .free → 0 < (D n).nlink
  entered : ∀ d, (D d).type = .dir → d ≠ ROOTINO → 0 < D.tree.ents (D.tree.up d) d
  exact : ∀ n, (D n).type ≠ .dir → (D n).nlink = D.tree.entries N n

/-- At boot only the root is in use. -/
theorem WellFormed.proper (h : WellFormed N D) : D.tree.Proper N (kept (boot N D)).Has where
  shape := h.shape
  quiet n hn hl := absurd hl (h.linked n hn).ne'
  used n hn := by
    obtain ⟨i, hi, rfl⟩ := hn
    rw [kept_boot_count] at hi
    by_cases h0 : i = 0
    · subst h0
      change (D ROOTINO).type ≠ .free
      have := h.shape.root
      rw [show (D ROOTINO).type = .dir from this]
      exact nofun
    · rw [if_neg h0] at hi
      exact absurd hi (lt_irrefl 0)

theorem tree_emptyDisk_ents (d n : Nat) : emptyDisk.tree.ents d n = 0 := by
  by_cases hd : d = ROOTINO
  · simp [Disk.tree, emptyDisk, hd]
  · simp [Disk.tree, emptyDisk, hd]

/-- The empty disk is well formed. -/
theorem wellFormed_emptyDisk (h2 : 2 ≤ N) (hN : N ≤ 2 ^ 16) : WellFormed N emptyDisk := by
  have hroot : emptyDisk ROOTINO = ⟨.dir, 1, [⟨ROOTINO, dot⟩, ⟨ROOTINO, dotdot⟩]⟩ := if_pos rfl
  have hother : ∀ n, n ≠ ROOTINO → emptyDisk n = ⟨.free, 0, []⟩ := fun n hn => if_neg hn
  have hdir : ∀ d, (emptyDisk d).type = .dir → d = ROOTINO := fun d hd => by
    by_contra hne
    rw [hother d hne] at hd
    cases hd
  have hfree : ∀ n, (emptyDisk n).type ≠ .free → n = ROOTINO := fun n hn => by
    by_contra hne
    exact hn (by rw [hother n hne])
  have hentries : ∀ n, emptyDisk.tree.entries N n = 0 := fun n =>
    Finset.sum_eq_zero fun d _ => tree_emptyDisk_ents d n
  have hlinks : ∀ n, (emptyDisk n).type ≠ .dir → (emptyDisk n).nlink = emptyDisk.tree.entries N n :=
    fun n hn => by
      rw [hentries, hother n fun he => hn (by rw [he, hroot])]
      rfl
  refine ⟨hN, fun d hd => ?_, ?_, fun n hn => ?_, fun d hd hne => absurd (hdir d hd) hne, hlinks⟩
  · obtain rfl := hdir d hd
    exact ⟨ROOTINO, [], by rw [hroot], by decide, by decide, nofun⟩
  · exact {
      bound := fun n hn => hfree n hn ▸ ⟨le_rfl, h2⟩
      unlinked := fun n hn => by
        change (emptyDisk n).nlink = 0
        rw [hother n fun he => ?_]
        have hkind : (emptyDisk n).type = .free := hn
        rw [he, hroot] at hkind
        cases hkind
      owner := fun d n h => absurd (tree_emptyDisk_ents d n) h.ne'
      named := fun d n h => absurd (tree_emptyDisk_ents d n) h.ne'
      child := fun d n h => absurd (tree_emptyDisk_ents d n) h.ne'
      once := fun d n _ => by rw [tree_emptyDisk_ents]; exact Nat.zero_le 1
      root := by
        change (emptyDisk ROOTINO).type = .dir
        rw [hroot]
      top := fun d => tree_emptyDisk_ents d _
      rootUp := rfl
      dirLinks := fun b hb => by
        have hsubs : emptyDisk.tree.subs N b = 0 := Finset.sum_eq_zero fun n _ => by
          simp [Tree.sub, tree_emptyDisk_ents]
        rw [hdir b hb] at hsubs ⊢
        rw [hsubs, tree_emptyDisk_ents]
        rfl
      fileLinks := fun n hn => (hlinks n hn).ge
      small := fun n => by
        change (emptyDisk n).nlink < 2 ^ 15
        by_cases hn : n = ROOTINO
        · rw [hn, hroot]
          decide
        · rw [hother n hn]
          decide }
  · rw [hfree n hn, hroot]
    decide

/-- A boot with an empty disk. -/
theorem boot_emptyDisk : (system WellFormed).init (boot 10 emptyDisk) :=
  ⟨10, emptyDisk, wellFormed_emptyDisk (by decide) (by decide), rfl⟩

end Msboss.Inodes
