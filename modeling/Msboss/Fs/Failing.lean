import Msboss.Fs.Lookups

/-!
# Path calls that fail

A call with a path that returns -1 has left the files, the free map, the file table, the descriptors
and the current directory as they were, but for one case: `open` with `O_CREATE` creates a file
before it looks for a file structure and a descriptor, and the file stays when there are none
(`failing_unchanged`).

`link` writes the inode twice on the way to a failure. In between the files are the same but for the
links of one inode that is in use (`State.relinked`), so that a lookup there is a lookup like any
other. -/

namespace Msboss.Fs

open Function
open Inodes (Name Dirent dot dotdot)
open Ftable (Files Slot)

/-! ## What is left alone -/

/-- The inodes, the contents of files, the entries of directories and the free map are the same. -/
structure State.Unchanged (s s' : State) : Prop where
  inodes : ∀ i < s.sb.ninodes, (s'.dinode i).type = (s.dinode i).type ∧
    (s'.dinode i).size = (s.dinode i).size ∧ (s'.dinode i).nlink = (s.dinode i).nlink
  contents : ∀ i < s.sb.ninodes, ∀ off < (s.dinode i).size, s'.byte i off = s.byte i off
  entries : ∀ d < s.sb.ninodes, (s.dinode d).type = .dir → ∀ name, s'.child d name = s.child d name
  bitmap : ∀ b < s.sb.size, s'.taken b = s.taken b

/-- The same, but for the links of the inodes. -/
structure State.SameFiles (s s' : State) : Prop where
  sb : s'.sb = s.sb
  inodes : ∀ i, (s'.dinode i).Same (s.dinode i)
  data : ∀ c, c = 0 ∨ s.sb.datastart ≤ c → s'.block c = s.block c
  taken : ∀ b, s'.taken b = s.taken b

section
variable {s0 s s' t : State} {held : Multiset Nat} {i ip dp : Nat}

theorem State.SameFiles.trans (h : s.SameFiles s') (h' : s'.SameFiles t) : s.SameFiles t where
  sb := h'.sb.trans h.sb
  inodes i := (h'.inodes i).trans (h.inodes i)
  data c hc := (h'.data c (by rwa [h.sb])).trans (h.data c hc)
  taken b := (h'.taken b).trans (h.taken b)

theorem State.Along.sameFiles (h : s0.Along s held) : s0.SameFiles s where
  sb := h.sb
  inodes i := by
    rw [h.dinode]
    exact .refl _
  data c _ := by rw [h.block]
  taken b := by rw [h.taken]

theorem State.SameFiles.own (h : s.SameFiles s') (hs : s.Sound) :
    s'.own s'.dinode = s.own s.dinode :=
  funext fun _ => own_eq rfl h.sb (fun _ => (h.inodes _).toAlike) fun h0 =>
    h.data _ (.inr (hs.owned.owners.zone h0).1)

theorem State.SameFiles.byte (h : s.SameFiles s') (hs : s.Sound) : s'.byte = s.byte := by
  funext i off
  unfold State.byte
  rw [h.own hs, h.data]
  rcases eq_or_ne (s.own s.dinode (filePlace i (off / BSIZE))) 0 with h0 | h0
  · exact .inl h0
  · exact .inr (hs.owned.owners.zone h0).1

theorem State.SameFiles.record (h : s.SameFiles s') (hs : s.Sound) : s'.record = s.record := by
  unfold State.record State.bytes
  rw [h.byte hs]

theorem State.SameFiles.child (h : s.SameFiles s') (hs : s.Sound) : s'.child = s.child := by
  funext d name
  unfold State.child State.lookup State.findRecord
  rw [h.record hs, (h.inodes d).size]

theorem State.SameFiles.unchanged (h : s.SameFiles s') (hs : s.Sound)
    (hlinks : ∀ i, (s'.dinode i).nlink = (s.dinode i).nlink) : s.Unchanged s' where
  inodes i _ := ⟨(h.inodes i).type, (h.inodes i).size, hlinks i⟩
  contents i _ off _ := by rw [h.byte hs]
  entries d _ _ name := by rw [h.child hs]
  bitmap b _ := h.taken b

theorem State.Along.unchanged (h : s0.Along s held) (hs : s0.Sound) : s0.Unchanged s :=
  h.sameFiles.unchanged hs fun i => by rw [h.dinode]

/-! ## Changing links -/

/-- The state after `addLinks`. -/
def State.relinked (s : State) (ip : Nat) (k : Int) : State :=
  (s.withInode ip { s.inode ip with nlink := Inodes.short ((s.inode ip).nlink + k) }).withDinode ip
    { s.inode ip with nlink := Inodes.short ((s.inode ip).nlink + k) }

theorem leaves_addLinks (h : Q ⟨⟩ (s.relinked ip k)) : Leaves (addLinks ip k) s Q E :=
  leaves_setInode (g := pure) h

theorem short_bounds (l : Int) : -2 ^ 15 ≤ Inodes.short l ∧ Inodes.short l < 2 ^ 15 := by
  unfold Inodes.short
  have h1 := Int.le_bmod (x := l) (m := 2 ^ 16) (by decide)
  have h2 := Int.bmod_lt (x := l) (m := 2 ^ 16) (by decide)
  norm_num at h1 h2 ⊢
  omega

/-- A count of links comes back. -/
theorem short_back (l : Int) : Inodes.short (Inodes.short (l + 1) + -1) = Inodes.short l := by
  unfold Inodes.short
  rw [Int.bmod_add_bmod, Int.add_neg_cancel_right]

theorem nlink_short (s : State) (i : Nat) : Inodes.short (s.dinode i).nlink =
    (s.dinode i).nlink := by
  have hlt := Bytes.leNat_lt (Bytes.read (s.block (s.sb.IBLOCK i)) (i % IPB * 64 + 6) 2)
  rw [Bytes.length_read] at hlt
  change Inodes.short (short _) = short _
  unfold Inodes.short short
  split <;> (rw [Int.bmod_eq_iff] <;> omega)

theorem relinked_sound (h : s.Sound) (hl : s.Locked ip) : (s.relinked ip k).Sound :=
  h.update hl ⟨⟨rfl, fun _ _ => rfl⟩, rfl⟩

theorem relinked_of_ne (hne : i ≠ ip) : (s.relinked ip k).dinode i = s.dinode i :=
  withDinode_of_ne (s.withInode ip _) _ hne

theorem relinked_nlink (s : State) (ip : Nat) (k : Int) :
    ((s.relinked ip k).dinode ip).nlink = Inodes.short ((s.inode ip).nlink + k) := by
  have hb := short_bounds ((s.inode ip).nlink + k)
  have hblock : (s.relinked ip k).block (s.sb.IBLOCK ip) = Bytes.write (s.block (s.sb.IBLOCK ip))
      (ip % IPB * 64)
      ({ s.inode ip with nlink := Inodes.short ((s.inode ip).nlink + k) } : Inode).bytes :=
    setBlock_self ..
  have := nlink_ofBlock_write (s.block (s.sb.IBLOCK ip)) (ip % IPB * 64)
    (x := { s.inode ip with nlink := Inodes.short ((s.inode ip).nlink + k) }) hb.1 hb.2
  rwa [← hblock] at this

theorem relinked_same (h : s.Sound) (hl : s.Locked ip) : s.SameFiles (s.relinked ip k) where
  sb := rfl
  inodes i := by
    rcases eq_or_ne i ip with rfl | hne
    · generalize hx : ({ s.inode i with nlink := Inodes.short ((s.inode i).nlink + k) } : Inode) = x
      have hsame : x.Same (s.inode i) := by
        rw [← hx]
        exact ⟨⟨rfl, fun _ _ => rfl⟩, rfl⟩
      obtain ⟨hs, ha⟩ := h.bounds hl hsame
      have hself : (((s.withInode i x).withDinode i x).dinode i).Same x :=
        withDinode_self (s.withInode i x) hs ha
      rw [State.relinked, hx]
      exact hself.trans (hsame.trans (h.cached i hl.lt hl.ref hl.valid).1)
    · rw [relinked_of_ne hne]
      exact .refl _
  data c hc := by
    have h1 := h.layout.super
    have h2 := Superblock.Layout.inodes_ge s.sb ip
    rcases hc with rfl | hc
    · exact withDinode_block _ ip _ (by change 0 ≠ s.sb.IBLOCK ip; omega)
    · exact withDinode_data (s := s.withInode ip _) h.layout hl.lt _ hc
  taken b := withDinode_taken (s := s.withInode ip _) h.layout hl.lt _ b

theorem relinked_linked (h : s.Linked) : (s.relinked ip k).Linked := by
  intro i hi hr hv
  change (update s.inode ip _ i).nlink = _
  rcases eq_or_ne i ip with rfl | hne
  · rw [relinked_nlink, update_self]
  · rw [relinked_of_ne hne, update_of_ne hne]
    exact h i hi hr hv

/-- Names lead where they did while the links of a file in use are changed. -/
theorem State.Named.of_same (h : s.Named) (hs : s.Sound) (hsame : s.SameFiles s')
    (htype : (s.dinode ip).type ≠ .dir) (hip : 0 < s'.ref ip)
    (hne : ∀ i ≠ ip, s'.ref i = s.ref i ∧ (s'.dinode i).nlink = (s.dinode i).nlink) : s'.Named := by
  have hkept {i : Nat} (hi : s.Kept i) : s'.Kept i := by
    refine ⟨by rw [hsame.sb]; exact hi.1, ?_⟩
    rcases eq_or_ne i ip with rfl | hi'
    · exact .inr (.inl hip)
    · rw [(hne i hi').1, (hne i hi').2, (hsame.inodes i).type]
      exact hi.2
  refine ⟨hkept h.root, fun d hd hdir huse k hk => ?_⟩
  rw [(hsame.inodes d).type] at hdir
  have hdip : d ≠ ip := by
    rintro rfl
    exact htype hdir
  rw [(hne d hdip).1, (hne d hdip).2] at huse
  rw [(hsame.inodes d).size] at hk
  rw [hsame.record hs]
  exact fun h0 => hkept (h.records d (by rwa [← hsame.sb]) hdir huse k hk h0)

/-! ## `link` -/

/-- What a call assumes of the file system: it is consistent, names lead to inodes in use or linked,
and the current directory is in use. -/
structure State.Ready (s : State) (cwd : Nat) : Prop where
  sound : s.Sound
  linked : s.Linked
  named : s.Named
  cwd_lt : cwd < s.sb.ninodes
  cwd_ref : 0 < s.ref cwd

theorem ends_begin_op (h : s.Ready cwd) : Ends (lower begin_op) s (fun _ s' => s.Along s' 0) E :=
  ends_lower (c := begin_op) ((State.Along.refl h.sound h.linked).quiet rfl rfl rfl rfl rfl)

/-- What `namei` has found. -/
theorem ends_namei (hR : s0.Ready cwd) (h : s0.Along s held) :
    Ends (namei cwd path) s (fun r s' => (r = none → s0.Along s' held) ∧
      ∀ ip, r = some ip → s0.Along s' (ip ::ₘ held) ∧ s0.Kept ip) fun _ => True := by
  unfold namei
  refine (ends_namex hR.named h hR.cwd_lt hR.cwd_ref).bind ?_
  rintro (_ | ⟨ip, name⟩) t ht
  · exact ⟨fun _ => ht.2, nofun⟩
  · refine ⟨nofun, ?_⟩
    rintro _ ⟨⟩
    exact ⟨ht.2.1, ht.2.2.1⟩

/-- Nothing is said of how the code ends. -/
theorem ends_true {α : Type} (m : D α) (s : State) : Ends m s (fun _ _ => True) fun _ => True := by
  unfold Ends
  split <;> trivial

/-- The undo of `link`, after lookups from the state `t` with the links changed. -/
theorem ends_linkBad (hR : s0.Ready cwd) (ht : s0.Along t (ip ::ₘ 0)) (hkept : s0.Kept ip)
    (hl : t.Locked ip) (h : (t.relinked ip 1).Along s 0) :
    Ends (linkBad ip) s (fun _ s' => s0.Unchanged s') fun _ => True := by
  have href : s.ref ip = s0.ref ip + 1 := by
    rw [h.ref]
    change t.ref ip + 0 = _
    rw [ht.ref, Multiset.count_cons_self]
    rfl
  have hlinks : (t.inode ip).nlink = (s0.dinode ip).nlink := by
    rw [ht.linked ip hl.lt hl.ref hl.valid, ht.dinode]
  have hlive : (s0.dinode ip).type ≠ .free := by
    rw [← ht.dinode]
    exact (ht.sound.live hl).2
  unfold linkBad
  refine (ends_lower ((along_ilock h (by rw [h.sb]; exact hl.lt) (by omega)).mono (fun _ _ => id)
    fun _ _ _ => trivial)).bind ?_
  rintro _ u ⟨hu, hlu⟩
  refine (ends_lower (leaves_addLinks (Q := fun _ v => v = u.relinked ip (-1)) rfl)).bind ?_
  rintro _ _ rfl
  -- the links are what they were
  have hback : ((u.relinked ip (-1)).dinode ip).nlink = (s0.dinode ip).nlink := by
    rw [relinked_nlink, hu.linked ip hlu.lt hlu.ref hlu.valid, hu.dinode,
      relinked_nlink, short_back,
      hlinks, nlink_short]
  have hlinked : (u.relinked ip (-1)).Linked := relinked_linked hu.linked
  have hsame : s0.SameFiles (u.relinked ip (-1)) :=
    ((ht.sameFiles.trans (relinked_same ht.sound hl)).trans hu.sameFiles).trans
    (relinked_same hu.sound hlu)
  have hnlink (i : Nat) : ((u.relinked ip (-1)).dinode i).nlink = (s0.dinode i).nlink := by
    rcases eq_or_ne i ip with rfl | hne
    · exact hback
    · rw [relinked_of_ne hne, hu.dinode, relinked_of_ne hne, ht.dinode]
  -- so the inode is kept
  have hrefv : (u.relinked ip (-1)).ref ip = s0.ref ip + 1 := by
    change u.ref ip = _
    rw [hu.ref, ← h.ref, href]
  have hsound := relinked_sound (k := -1) hu.sound hlu
  generalize u.relinked ip (-1) = v at *
  let w : State := { v with ref := update v.ref ip (s0.ref ip) }
  have hw : w.Along v (ip ::ₘ 0) := by
    refine ⟨rfl, rfl, fun i => ?_, hsound, hlinked⟩
    change v.ref i = update v.ref ip (s0.ref ip) i + _
    rcases eq_or_ne i ip with rfl | hne
    · rw [update_self, hrefv, Multiset.count_cons_self]
      rfl
    · rw [update_of_ne hne, Multiset.count_cons_of_ne hne]
      rfl
  have hkeptw : w.Kept ip := by
    refine ⟨by change ip < v.sb.ninodes; rw [hsame.sb]; exact hkept.1, ?_⟩
    change (v.dinode ip).type = .free ∨ 0 < update v.ref ip (s0.ref ip) ip ∨ (v.dinode ip).nlink ≠ 0
    rw [update_self, hback, (hsame.inodes ip).type]
    exact hkept.2
  have hsamew : s0.SameFiles w := ⟨hsame.sb, hsame.inodes, hsame.data, hsame.taken⟩
  refine (ends_iput hw hkeptw).bind fun _ z hz => ?_
  refine (hsamew.trans hz.sameFiles).unchanged hR.sound fun i => ?_
  rw [hz.dinode]
  exact hnlink i

/-- `dirlink` of a name that is there. -/
theorem ends_dirlink (hR : s0.Ready cwd) (h : s0.Along s held)
    (hl : s.Locked dp) (hkept : s0.Kept dp) (htype : (s0.dinode dp).type = .dir) :
    Ends (dirlink dp name inum) s (fun r s' => r = false → s0.Along s' held) fun _ => True := by
  unfold dirlink
  refine ((ends_dirlookup h hl htype).mono (fun _ _ => id) fun _ _ => trivial).bind ?_
  rintro r t ⟨ht, -⟩
  rcases r with _ | ⟨off, ip⟩
  · refine (ends_true _ t).bind fun _ _ _ => ?_
    rw [ends_pure]
    exact nofun
  · obtain ⟨-, hip⟩ := hR.named.found hkept htype ht
    refine (ends_iput ht.1 hip).bind fun _ u hu => ?_
    exact fun _ => hu

theorem ends_sys_link {args : Option (List UInt8 × List UInt8)} (hR : s0.Ready cwd) :
    Ends (sys_link cwd args) s0 (fun r s' => r = -1 → s0.Unchanged s') fun _ => True := by
  rcases args with _ | ⟨old, new⟩
  · exact fun _ => (State.Along.refl hR.sound hR.linked).unchanged hR.sound
  unfold sys_link
  refine (ends_begin_op hR).bind fun _ s hs => ?_
  refine (ends_namei hR hs).bind ?_
  rintro (_ | ip) t ⟨hnone, hsome⟩
  · exact fun _ => (hnone rfl).unchanged hR.sound
  obtain ⟨ht, hkept⟩ := hsome ip rfl
  refine (ends_ilock ht hkept).bind ?_
  rintro _ u ⟨hu, hl⟩
  rw [ends_get_bind]
  split
  · refine (ends_iput hu hkept).bind fun _ v hv => ?_
    exact fun _ => hv.unchanged hR.sound
  next htype =>
  rw [hu.sound.type_eq hl, hu.dinode] at htype
  refine (ends_lower (leaves_addLinks (Q := fun _ v => v = u.relinked ip 1) rfl)).bind ?_
  rintro _ _ rfl
  -- the second lookup starts in the state with one link more
  have hR' : (u.relinked ip 1).Ready cwd := by
    have hsame := hu.sameFiles.trans (relinked_same (k := 1) hu.sound hl)
    have hrefu (i : Nat) : s0.ref i ≤ u.ref i := by
      rw [hu.ref]
      exact Nat.le_add_right ..
    refine ⟨relinked_sound hu.sound hl, relinked_linked hu.linked,
      hR.named.of_same hR.sound hsame htype hl.ref fun i hne => ?_, ?_,
        hR.cwd_ref.trans_le (hrefu cwd)⟩
    · refine ⟨?_, by rw [relinked_of_ne hne, hu.dinode]⟩
      change u.ref i = _
      rw [hu.ref, Multiset.count_cons_of_ne hne]
      rfl
    · rw [hsame.sb]
      exact hR.cwd_lt
  unfold nameiparent
  refine (ends_namex hR'.named (.refl hR'.sound hR'.linked) hR'.cwd_lt hR'.cwd_ref).bind ?_
  rintro (_ | ⟨dp, name⟩) v hv
  · exact (ends_linkBad hR hu hkept hl hv.2).mono (fun _ _ h _ => h) fun _ => id
  obtain ⟨-, hv, hkeptd, hdir⟩ := hv
  have hdir := hdir rfl
  dsimp only
  refine (ends_ilock hv hkeptd).bind ?_
  rintro _ w ⟨hw, hlw⟩
  refine (ends_dirlink hR' hw hlw hkeptd hdir).bind ?_
  rintro (_ | _) x hx
  · refine (ends_iput (hx rfl) hkeptd).bind fun _ y hy => ?_
    exact (ends_linkBad hR hu hkept hl hy).mono (fun _ _ h _ => h) fun _ => id
  · refine (ends_true _ x).bind fun _ y _ => (ends_true _ y).bind fun _ _ _ => ?_
    rw [ends_pure]
    exact nofun

/-! ## `unlink` -/

/-- A removal does not fail. -/
theorem ends_removeDirent : Ends (removeDirent dp ip off) s (fun r _ => r = 0) fun _ => True := by
  unfold removeDirent
  refine (ends_true _ s).bind fun _ t _ => ?_
  rw [ends_get_bind]
  have hend (t : State) : Ends (do
      lower (iput dp)
      lower (addLinks ip (-1))
      lower (iput ip)
      return (0 : Int)) t (fun r _ => r = 0) fun _ => True :=
    (ends_true _ t).bind fun _ u _ => (ends_true _ u).bind fun _ v _ =>
    (ends_true _ v).bind fun _ _ _ => rfl
  split
  · exact (ends_true _ t).bind fun _ u _ => hend u
  · exact hend t

theorem ends_occupied (h : s0.Along s held) (hl : s.Locked ip) :
    Ends (occupied ip) s (fun _ s' => s0.Along s' held) fun _ => True := by
  unfold occupied
  rw [ends_get_bind]
  split
  · next htype =>
    unfold isdirempty
    refine Ends.bind (R := fun _ s' => s0.Along s' held) ?_ fun _ _ h => h
    refine ((ends_scanAll (k := 2) h.sound hl (by rw [htype]; nofun)).mono (fun _ _ => id)
      fun _ _ => trivial).bind ?_
    rintro _ _ ⟨-, mem, stores, rfl⟩
    exact h.quiet rfl rfl rfl rfl rfl
  · exact h

theorem ends_sys_unlink {path : Option (List UInt8)} (hR : s0.Ready cwd) :
    Ends (sys_unlink cwd path) s0 (fun r s' => r = -1 → s0.Unchanged s') fun _ => True := by
  rcases path with _ | path
  · exact fun _ => (State.Along.refl hR.sound hR.linked).unchanged hR.sound
  unfold sys_unlink nameiparent
  refine (ends_begin_op hR).bind fun _ s hs => ?_
  refine (ends_namex hR.named hs hR.cwd_lt hR.cwd_ref).bind ?_
  rintro (_ | ⟨dp, name⟩) t ht
  · exact fun _ => ht.2.unchanged hR.sound
  obtain ⟨-, ht, hkept, hdir⟩ := ht
  have hdir := hdir rfl
  dsimp only
  refine (ends_ilock ht hkept).bind ?_
  rintro _ u ⟨hu, hl⟩
  -- all failures but one put the directory only
  have hfail {u : State} (hu : s0.Along u (dp ::ₘ 0)) : Ends (do
      lower (iput dp)
      return (-1 : Int)) u (fun r s' => r = -1 → s0.Unchanged s') fun _ => True := by
    refine (ends_iput hu hkept).bind fun _ v hv => ?_
    exact fun _ => hv.unchanged hR.sound
  split
  · exact hfail hu
  refine ((ends_dirlookup hu hl hdir).mono (fun _ _ => id) fun _ _ => trivial).bind ?_
  rintro (_ | ⟨off, ip⟩) v ⟨hv, -⟩
  · exact hfail hv.2
  obtain ⟨-, hip⟩ := hR.named.found hkept hdir hv
  have hv := hv.1
  dsimp only
  refine (ends_ilock hv hip).bind ?_
  rintro _ w ⟨hw, hlw⟩
  rw [ends_get_bind]
  split
  · trivial
  refine (ends_occupied hw hlw).bind ?_
  rintro (_ | _) x hx
  · refine ends_removeDirent.mono (fun r _ hr => ?_) fun _ => id
    rw [hr]
    exact nofun
  · refine (ends_iput hx hip).bind fun _ y hy => ?_
    exact hfail hy

/-! ## `chdir` -/

theorem ends_sys_chdir {cwd : Nat} {path : Option (List UInt8)} (hR : s0.Ready cwd) :
    Ends (sys_chdir cwd path) s0 (fun r s' => r = none → s0.Unchanged s') fun _ => True := by
  rcases path with _ | path
  · exact (ends_begin_op hR).bind fun _ s hs _ => hs.unchanged hR.sound
  unfold sys_chdir
  refine (ends_begin_op hR).bind fun _ s hs => ?_
  refine (ends_namei hR hs).bind ?_
  rintro (_ | ip) t ⟨hnone, hsome⟩
  · exact fun _ => (hnone rfl).unchanged hR.sound
  obtain ⟨ht, hkept⟩ := hsome ip rfl
  refine (ends_ilock ht hkept).bind ?_
  rintro _ u ⟨hu, hl⟩
  rw [ends_get_bind]
  split
  · refine (ends_iput hu hkept).bind fun _ v hv => ?_
    exact fun _ => hv.unchanged hR.sound
  · refine (ends_true _ u).bind fun _ _ _ => ?_
    rw [ends_pure]
    exact nofun

/-! ## `create` -/

/-- In the cache, only the inode `n` has changed. -/
structure State.Apart (s : State) (n : Nat) (s' : State) : Prop where
  sb : s'.sb = s.sb
  ref : ∀ j ≠ n, s'.ref j = s.ref j
  valid : ∀ j ≠ n, s'.valid j = s.valid j
  inode : ∀ j ≠ n, s'.inode j = s.inode j

theorem State.Apart.trans {n : Nat} (h : s.Apart n s') (h' : s'.Apart n t) : s.Apart n t where
  sb := h'.sb.trans h.sb
  ref j hj := (h'.ref j hj).trans (h.ref j hj)
  valid j hj := (h'.valid j hj).trans (h.valid j hj)
  inode j hj := (h'.inode j hj).trans (h.inode j hj)

theorem State.Apart.locked (h : s.Apart n s') (hne : i ≠ n) (hl : s.Locked i) : s'.Locked i :=
  ⟨by rw [h.sb]; exact hl.lt, by rw [h.ref i hne]; exact hl.ref,
    by rw [h.valid i hne]; exact hl.valid⟩

theorem apart_iget : Leaves (iget n) s (fun r s' => r = n ∧ 0 < s'.ref n ∧ s.Apart n s')
    fun _ _ => False := by
  have hne {α : Type} {f : Nat → α} {x : α} {j : Nat} (h : j ≠ n) : update f n x j = f j :=
    update_of_ne h _ _
  unfold iget
  rw [leaves_get_bind]
  split
  · refine ⟨rfl, ?_, rfl, fun _ => hne, fun _ _ => rfl, fun _ _ => rfl⟩
    change 0 < update s.ref n (s.ref n + 1) n
    rw [update_self]
    omega
  · refine ⟨rfl, ?_, rfl, fun _ => hne, fun _ => hne, fun _ _ => rfl⟩
    change 0 < update s.ref n 1 n
    rw [update_self]
    exact Nat.one_pos

/-- An inode that was free is taken. -/
theorem apart_ialloc (h : s.Sound) : Leaves (ialloc type) s
    (fun n s' => s'.Sound ∧ (s.dinode n).type = .free ∧ n < s.sb.ninodes ∧
      0 < s'.ref n ∧ s.Apart n s') fun _ _ => True := by
  suffices hap : Leaves (ialloc type) s (fun n s' => (s.dinode n).type = .free ∧
      n < s.sb.ninodes ∧ 0 < s'.ref n ∧ s.Apart n s') fun _ _ => True from
    ((sound_ialloc h).and hap).mono
    (fun _ _ => id) fun _ _ _ => trivial
  unfold ialloc
  rw [leaves_get_bind]
  split
  swap
  · trivial
  next n hfind =>
  have hlt : n < s.sb.ninodes := by
    have := List.mem_range'_1.1 (List.mem_of_find?_eq_some hfind)
    omega
  have hfree : (s.dinode n).type = .free := by simpa using List.find?_some hfind
  rw [writeDinode_eq, leaves_modify_bind]
  refine (apart_iget (s := s.withDinode n (.blank type))).mono ?_ fun _ _ => False.elim
  rintro _ t ⟨rfl, href, ht⟩
  exact ⟨hfree, hlt, href, ht.sb, ht.ref, ht.valid, ht.inode⟩

theorem apart_lock (s : State) (n : Nat) : s.Apart n (s.lock n) := by
  unfold State.lock
  split
  · exact ⟨rfl, fun _ _ => rfl, fun _ _ => rfl, fun _ _ => rfl⟩
  · exact ⟨rfl, fun _ _ => rfl, fun _ h => update_of_ne h _ _,
      fun _ h => update_of_ne h _ _⟩

theorem apart_update (s : State) (n : Nat) (x : Inode) :
    s.Apart n ((s.withInode n x).withDinode n x) :=
  ⟨rfl, fun _ _ => rfl, fun _ _ => rfl, fun _ h => update_of_ne h _ _⟩

/-- There is a file `n` with one link. -/
structure State.Made (s : State) (n : Nat) : Prop where
  sound : s.Sound
  locked : s.Locked n
  nlink : (s.inode n).nlink = 1

/-- The new inode is filled in. -/
theorem made_fill (h : s.Sound) (hlt : n < s.sb.ninodes) : Leaves (do
      ilock n
      setInode n fun x => { x with
        major := Inodes.short major, minor := Inodes.short minor, nlink := 1 }
      iupdate n) s (fun _ s' => s'.Made n ∧ s.Apart n s') fun _ _ => True := by
  refine leaves_bind.2 (leaves_ilock (fun hlock => ?_) fun _ => ⟨trivial, trivial⟩)
  obtain ⟨hs, hl⟩ := h.lock hlt hlock
  have happly := apart_lock s n
  generalize s.lock n = u at *
  refine leaves_setInode (g := pure) ?_
  generalize hx : ({ u.inode n with
    major := Inodes.short major, minor := Inodes.short minor, nlink := 1 } : Inode) = x
  have hsame : x.Same (u.inode n) := by
    rw [← hx]
    exact ⟨⟨rfl, fun _ _ => rfl⟩, rfl⟩
  refine ⟨⟨hs.update hl hsame, ⟨hl.lt, hl.ref, hl.valid⟩, ?_⟩, happly.trans (apart_update u n x)⟩
  change (update u.inode n x n).nlink = 1
  rw [update_self, ← hx]

theorem State.Kin.made {n : Nat} (h : s.Kin ip s') (hne : n ≠ ip) (hmade : s.Made n)
    (hs : s'.Sound) : s'.Made n where
  sound := hs
  locked := ⟨by rw [h.sb]; exact hmade.locked.lt, by rw [h.ref]; exact hmade.locked.ref,
    by rw [h.valid]; exact hmade.locked.valid⟩
  nlink := by
    rw [h.inode n hne]
    exact hmade.nlink

/-- A lookup in vain has only read. -/
theorem ends_dirlookup_none (h : s.Sound) (hl : s.Locked dp) :
    Ends (dirlookup dp name) s (fun r s' => r = none → (s.inode dp).type = .dir ∧
      ∃ mem stores, s' = { s with mem, stores }) fun _ => True := by
  unfold dirlookup
  rw [ends_get_bind]
  split
  · trivial
  next hdir =>
  have hdir := not_not.1 hdir
  refine ((ends_scanAll (k := 0) h hl (by rw [hdir]; nofun)).mono (fun _ _ => id)
    fun _ _ => trivial).bind ?_
  rintro (_ | ⟨off, de⟩) t ⟨-, ht⟩
  · exact fun _ => ⟨hdir, ht⟩
  · refine (ends_true _ t).bind fun _ _ _ => ?_
    rw [ends_pure]
    exact nofun

/-- A record is written into a directory. -/
theorem ends_writeDirent {panic : Stop} (h : s.Sound) (hl : s.Locked dp) (hoff : off < 2 ^ 32) :
    Ends (writeDirent dp off de panic) s (fun _ s' => s'.Sound ∧ s.Kin dp s') fun _ => True := by
  unfold writeDirent
  refine (ends_lower (c := store DE de.bytes) (Q := fun _ t => t.Sound ∧ t.Locked dp ∧ s.Kin dp t)
    ⟨h.memory _ s.loads _, ⟨hl.lt, hl.ref, hl.valid⟩, .memory⟩).bind ?_
  rintro _ t ⟨ht, hlt, hkin⟩
  have hwrite := (sound_writei ht hlt hoff (by decide : 16 < 2 ^ 32)).and
    (kin_writei hkin : Stays (writei dp DE off 16) t (s.Kin dp))
  refine (ends_lower (hwrite.mono (fun _ _ => id) fun _ _ _ => trivial)).bind ?_
  rintro r u ⟨hu, hkinu⟩
  split
  · trivial
  · exact ⟨hu, hkinu⟩

/-- `dirlink` enters a name and leaves the new inode alone. -/
theorem made_dirlink (hmade : s.Made n) (hne : n ≠ dp) (hl : s.Locked dp) :
    Ends (dirlink dp name n) s (fun r s' => r = true → s'.Made n ∧ s.Kin dp s') fun _ => True := by
  unfold dirlink
  refine (ends_dirlookup_none hmade.sound hl).bind ?_
  rintro (_ | ⟨off, ip⟩) t ht
  swap
  · refine (ends_true _ t).bind fun _ _ _ => ?_
    rw [ends_pure]
    exact nofun
  obtain ⟨hdir, mem, stores, rfl⟩ := ht rfl
  have hs := hmade.sound.memory mem s.loads stores
  have hl' : { s with mem, stores }.Locked dp := ⟨hl.lt, hl.ref, hl.valid⟩
  refine Ends.bind (R := fun _ u => u.Sound ∧ s.Kin dp u) ?_ fun _ u hu _ =>
    ⟨hu.2.made hne hmade hu.1, hu.2⟩
  unfold addDirent
  refine ((ends_scanAll (k := 0) hs hl' (by dsimp only; rw [hdir]; nofun)).mono (fun _ _ => id)
    fun _ _ => trivial).bind ?_
  rintro _ _ ⟨rfl, mem', stores', rfl⟩
  rw [ends_get_bind]
  refine (ends_writeDirent (s := { s with mem := mem', stores := stores' })
    (hmade.sound.memory mem' s.loads stores') ⟨hl.lt, hl.ref, hl.valid⟩ ?_).mono ?_ fun _ => id
  · have hmax := hmade.sound.size_le (hmade.sound.live hl)
    have hsize := hmade.sound.size_eq hl
    have hmax : (s.dinode dp).size ≤ 71680 := hmax
    cases hfind : State.findRecord { s with mem, stores } dp (fun de => de.inum = 0) 0 with
    | none =>
      change ((s.inode dp).size + 15) / 16 * 16 < 2 ^ 32
      omega
    | some j =>
      have hj : j < (s.dinode dp).size / 16 := (findRecord_some hfind).1
      change 16 * j < 2 ^ 32
      omega
  · rintro _ u ⟨hu, hkin⟩
    exact ⟨hu, hkin.sb, hkin.ref, hkin.valid, hkin.inode, hkin.nlink, hkin.type⟩

/-- `create` makes a file and has not put it. -/
theorem made_createNew (h : s0.Along s (dp ::ₘ held)) (hl : s.Locked dp)
    (hkept : s0.Kept dp) : Ends (createNew dp name .file major minor) s
      (fun n s' => s'.Made n ∧ n < s0.sb.ninodes ∧ (s0.dinode n).type = .free) fun _ => True := by
  have hnot := h.not_last hkept
  unfold createNew
  refine (ends_lower (apart_ialloc h.sound)).bind ?_
  rintro n t ⟨ht, hfree, hlt, -, hat⟩
  have hne : n ≠ dp := by
    rintro rfl
    exact (h.sound.live hl).2 hfree
  have hfree : n < s0.sb.ninodes ∧ (s0.dinode n).type = .free := by
    rw [← h.sb, ← h.dinode]
    exact ⟨hlt, hfree⟩
  refine (ends_lower (made_fill ht (by rwa [hat.sb]))).bind ?_
  rintro _ u ⟨hmade, hau⟩
  have hap := hat.trans hau
  rw [if_neg (by decide)]
  refine (made_dirlink hmade hne (hap.locked hne.symm hl)).bind ?_
  rintro (_ | _) v hv
  · trivial
  obtain ⟨hmadev, hkin⟩ := hv rfl
  -- the directory is kept, and the new inode with it
  have hnotv : ¬ (v.ref dp = 1 ∧ v.valid dp ∧ (v.inode dp).nlink = 0) := by
    rw [hkin.ref, hkin.valid, hkin.nlink, hap.ref dp hne.symm, hap.valid dp hne.symm,
      hap.inode dp hne.symm]
    exact hnot
  refine Ends.bind (R := fun _ w => w.Made n) (ends_lower ?_) fun _ w hw => ⟨hw, hfree⟩
  have hdp : dp < v.sb.ninodes := by rw [hkin.sb, hap.sb]; exact hl.lt
  have hsound := sound_iput hmadev.sound hdp
  unfold iput at hsound ⊢
  rw [leaves_get_bind] at hsound ⊢
  rw [if_neg hnotv] at hsound ⊢
  refine ⟨hsound, ⟨hmadev.locked.lt, ?_, hmadev.locked.valid⟩, hmadev.nlink⟩
  change 0 < update v.ref dp (v.ref dp - 1) n
  rw [update_of_ne hne]
  exact hmadev.locked.ref

/-- `create` would make an inode: the directory of the path exists and has no such name. -/
def State.Missing (s : State) (cwd : Nat) (path : List UInt8) : Prop :=
  ∃ d name, s.resolve cwd path true = some (d, name) ∧ s.child d name = none

/-- What `create` has come to. -/
structure State.Created (s0 s : State) (cwd : Nat) (path : List UInt8) (type : FileType)
    (r : Option Nat) : Prop where
  failed : r = none → s0.Along s 0 ∧ ¬ s0.Missing cwd path
  found : ∀ ip, r = some ip → ¬ s0.Missing cwd path → s0.Along s (ip ::ₘ 0) ∧
    s0.Kept ip ∧ type = .file
  made : ∀ n, r = some n → s0.Missing cwd path → type = .file →
    s.Made n ∧ n < s0.sb.ninodes ∧ (s0.dinode n).type = .free

theorem ends_create (hR : s0.Ready cwd) (h : s0.Along s 0)
    : Ends (create cwd path type major minor) s
      (fun r s' => s0.Created s' cwd path type r) fun _ => True := by
  unfold create nameiparent
  refine (ends_namex hR.named h hR.cwd_lt hR.cwd_ref).bind ?_
  rintro (_ | ⟨dp, name⟩) t ht
  · refine ⟨fun _ => ⟨ht.2, ?_⟩, (fun _ h => by cases h), fun _ h => by cases h⟩
    rintro ⟨d, name, hd, -⟩
    rw [ht.1] at hd
    cases hd
  obtain ⟨hgoal, ht, hkept, hdir⟩ := ht
  have hdir := hdir rfl
  dsimp only
  refine (ends_ilock ht hkept).bind ?_
  rintro _ u ⟨hu, hl⟩
  refine ((ends_dirlookup hu hl hdir).mono (fun _ _ => id) fun _ _ => trivial).bind ?_
  rintro (_ | ⟨off, ip⟩) v ⟨hv, hlv⟩
  · have hmiss : s0.Missing cwd path := by
      refine ⟨dp, name, hgoal, ?_⟩
      rw [State.child, hv.1]
      rfl
    refine Ends.map ?_
    by_cases htype : type = .file
    · subst htype
      refine (made_createNew hv.2 hlv hkept).mono ?_ fun _ => id
      intro n w hw
      refine ⟨(fun h => by cases h), fun _ _ hno => absurd hmiss hno, ?_⟩
      rintro _ ⟨⟩ - -
      exact hw
    · refine (ends_true _ v).mono (fun n w _ => ?_) fun _ => id
      exact ⟨(fun h => by cases h), fun _ _ hno => absurd hmiss hno,
        fun _ _ _ hfile => absurd hfile htype⟩
  obtain ⟨hchild, hip⟩ := hR.named.found hkept hdir hv
  have hthere : ¬ s0.Missing cwd path := by
    rintro ⟨d, name', hd, hnone⟩
    rw [hgoal] at hd
    cases hd
    rw [hchild] at hnone
    cases hnone
  have hswap := hv.1
  rw [Multiset.cons_swap] at hswap
  dsimp only
  refine (ends_iput hswap hkept).bind fun _ w hw => ?_
  refine (ends_ilock hw hip).bind ?_
  rintro _ x ⟨hx, -⟩
  rw [ends_get_bind]
  split
  · next hfile =>
    refine ⟨(fun h => by cases h), ?_, fun _ _ hmiss => absurd hmiss hthere⟩
    rintro _ ⟨⟩ -
    exact ⟨hx, hip, hfile.1⟩
  · refine (ends_iput hx hip).bind fun _ y hy => ?_
    exact ⟨fun _ => ⟨hy, hthere⟩, (fun _ h => by cases h), fun _ h => by cases h⟩

theorem ends_makeNode {args : Option (List UInt8 × Int × Int)} (hR : s0.Ready cwd) :
    Ends (makeNode cwd type args) s0 (fun r s' => r = -1 → s0.Unchanged s') fun _ => True := by
  rcases args with _ | ⟨path, major, minor⟩
  · exact (ends_begin_op hR).bind fun _ s hs _ => hs.unchanged hR.sound
  unfold makeNode
  refine (ends_begin_op hR).bind fun _ s hs => ?_
  refine (ends_create hR hs).bind ?_
  rintro (_ | ip) t ht
  · exact fun _ => (ht.failed rfl).1.unchanged hR.sound
  · refine (ends_true _ t).bind fun _ _ _ => ?_
    rw [ends_pure]
    exact nofun

/-! ## `open` -/

/-- What the lookup of `open` has come to. -/
structure State.Opened (s0 s : State) (creates : Prop) (r : Option Nat) : Prop where
  failed : r = none → s0.Along s 0 ∧ ¬ creates
  found : ∀ ip, r = some ip → ¬ creates → s0.Along s (ip ::ₘ 0) ∧ s0.Kept ip
  made : ∀ n, r = some n → creates → s.Made n ∧ n < s0.sb.ninodes ∧ (s0.dinode n).type = .free

theorem ends_openInode (hR : s0.Ready cwd)
    (h : s0.Along s 0) : Ends (openInode cwd path omode) s (fun r s' => s0.Opened s'
      (omode &&& Files.O_CREATE ≠ 0 ∧ s0.Missing cwd path) r) fun _ => True := by
  unfold openInode
  split
  · next hmode =>
    refine (ends_create hR h).mono (fun r t ht => ?_) fun _ => id
    exact ⟨fun hr => ⟨(ht.failed hr).1, fun hc => (ht.failed hr).2 hc.2⟩,
      fun ip hr hc => ⟨(ht.found ip hr fun hm => hc ⟨hmode, hm⟩).1,
        (ht.found ip hr fun hm => hc ⟨hmode, hm⟩).2.1⟩,
      fun n hr hc => ht.made n hr hc.2 rfl⟩
  next hmode =>
  have hno : ¬ (omode &&& Files.O_CREATE ≠ 0 ∧ s0.Missing cwd path) := fun hc => hmode hc.1
  have hfail {t : State} (ht : s0.Along t 0) :
      s0.Opened t (omode &&& Files.O_CREATE ≠ 0 ∧ s0.Missing cwd path) none :=
    ⟨fun _ => ⟨ht, hno⟩, nofun, nofun⟩
  refine (ends_namei hR h).bind ?_
  rintro (_ | ip) t ⟨hnone, hsome⟩
  · exact hfail (hnone rfl)
  obtain ⟨ht, hkept⟩ := hsome ip rfl
  refine (ends_ilock ht hkept).bind ?_
  rintro _ u ⟨hu, -⟩
  rw [ends_get_bind]
  split
  · exact (ends_iput hu hkept).bind fun _ v hv => hfail hv
  · refine ⟨nofun, ?_, fun _ _ hc => absurd hc hno⟩
    rintro _ ⟨⟩ -
    exact ⟨hu, hkept⟩

end

/-- A file that was not opened has left the tables alone, where structures that are not in use have
no type. -/
theorem openFile_none {ι π : Type} [DecidableEq π] {f f' : Files ι π} {ip : ι}
    (hclosed : ∀ i, (f.file i).ref = 0 → (f.file i).type = .none)
    (h : f.openFile p ip omode = .ok (none, f')) : f' = f := by
  unfold Files.openFile at h
  split at h
  · cases h
    rfl
  next i f1 halloc =>
  split at h
  swap
  · cases h
  unfold Files.filealloc at halloc
  split at halloc
  · cases halloc
  next j hfind =>
  cases halloc
  have href : (f.file i).ref = 0 := by simpa using List.find?_some hfind
  have htype := hclosed i href
  -- the structure is closed again
  have hclose : (f.setFile i { f.file i with ref := 1 }).fileclose i = .ok (none, f) := by
    have hself : (f.setFile i { f.file i with ref := 1 }).file i = { f.file i with ref := 1 } :=
      update_self ..
    have hback : (f.setFile i { f.file i with ref := 1 }).setFile i
        { f.file i with ref := 0, type := .none } = f := by
      have hsame : ({ f.file i with ref := 0, type := .none } : Ftable.File ι π) = f.file i := by
        rw [← href, ← htype]
      rw [hsame]
      change { f with file := update (update f.file i _) i (f.file i) } = f
      rw [update_idem, update_eq_self]
    unfold Files.fileclose
    rw [hself]
    dsimp only
    rw [if_neg (by decide), if_neg (by decide), hback, htype]
  rw [hclose] at h
  cases h
  rfl

/-! ## Calls -/

namespace Kernel

/-- What the calls of `p` assume. -/
structure Tidy (k : Kernel) (p : Slot) : Prop where
  ready : k.fs.Ready (k.cwd p)
  closed : ∀ i, (k.files.file i).ref = 0 → (k.files.file i).type = .none

/-- Nothing that a process can see has changed. -/
structure Unchanged (k k' : Kernel) : Prop where
  fs : k.fs.Unchanged k'.fs
  files : k'.files = k.files
  cwd : k'.cwd = k.cwd

/-- The call is an `open` that creates a file. -/
def Creates (k : Kernel) (p : Slot) : PathCall → Prop
  | .open (some (path, omode)) =>
    omode &&& Files.O_CREATE ≠ 0 ∧ k.fs.Missing (k.cwd p) path
  | _ => False

variable {k k' : Kernel} {p : Slot}

/-- What code of the file system that returns has left. -/
theorem onFs_eq {α : Type} {m : D α} {a : α} (h : k.onFs m = .ok (a, k')) :
    m k.fs = .ok (a, k'.fs) ∧ k' = { k with fs := k'.fs } := by
  unfold onFs at h
  cases hm : m k.fs with
  | error e =>
    rw [hm] at h
    cases h
  | ok r =>
    rw [hm] at h
    cases h
    exact ⟨rfl, rfl⟩

theorem unchanged_onFs {m : D Int} (hm : Ends m k.fs (fun r s' => r = -1 → k.fs.Unchanged s')
    fun _ => True) (h : k.onFs m = .ok (-1, k')) : k.Unchanged k' := by
  obtain ⟨hrun, hk⟩ := onFs_eq h
  refine ⟨hm.of_ok hrun rfl, ?_, ?_⟩
  · rw [hk]
  · rw [hk]

theorem unchanged_chdir {path : Option (List UInt8)} (hT : k.Tidy p)
    (h : k.chdir p path = .ok (-1, k')) : k.Unchanged k' := by
  unfold chdir at h
  cases hrun : k.onFs (sys_chdir (k.cwd p) path) with
  | error e =>
    rw [hrun] at h
    cases h
  | ok r =>
    obtain ⟨ip, k1⟩ := r
    rw [hrun] at h
    obtain ⟨hm, hk⟩ := onFs_eq hrun
    have hends := (ends_sys_chdir hT.ready).of_ok hm
    rcases ip with _ | ip
    · cases h
      exact ⟨hends rfl, by rw [hk], by rw [hk]⟩
    · cases h

/-- A file with a link stays when it is put. -/
theorem made_iput (h : s.Made n) :
    Leaves (iput n) s (fun _ s' => (s'.dinode n).type ≠ .free) fun _ _ => False := by
  have hnot : ¬ (s.ref n = 1 ∧ s.valid n ∧ (s.inode n).nlink = 0) := by
    rw [h.nlink]
    exact fun hlast => one_ne_zero hlast.2.2
  unfold iput
  rw [leaves_get_bind, if_neg hnot]
  exact (h.sound.live h.locked).2

/-- `open` that finds no place for a file it has looked up. -/
theorem openFound_eq {omode : UInt32} {ip : Nat}
    (hclosed : ∀ i, (k.files.file i).ref = 0 → (k.files.file i).type = .none)
    (h : k.openFound p omode ip = .ok (-1, k')) :
    lower (iput ip) k.fs = .ok (⟨⟩, k'.fs) ∧ k' = { k with fs := k'.fs } := by
  unfold openFound at h
  split at h
  · cases h
  · next files hfiles =>
    have hsame := openFile_none hclosed hfiles
    subst hsame
    cases hput : k.onFs (lower (iput ip)) with
    | error e =>
      rw [hput] at h
      cases h
    | ok r =>
      rw [hput] at h
      cases h
      exact onFs_eq hput
  · next fd files _ =>
    have hfd := congrArg (fun r : Except Stop (Int × Kernel) => r.map Prod.fst) h
    have hfd : ((fd.1 : Nat) : Int) = -1 := by injection hfd
    omega

/-- `open` has no effect when it fails, unless it has created a file. -/
theorem unchanged_open {args : Option (List UInt8 × UInt32)} (hT : k.Tidy p)
    (h : k.sys_open p args = .ok (-1, k')) : k.Unchanged k' ↔ ¬ k.Creates p (.open args) := by
  have hR := hT.ready
  rcases args with _ | ⟨path, omode⟩
  · cases h
    exact iff_of_true ⟨(State.Along.refl hR.sound hR.linked).unchanged hR.sound, rfl, rfl⟩ id
  unfold sys_open at h
  dsimp only at h
  cases hrun : k.onFs (do lower begin_op; openInode (k.cwd p) path omode) with
  | error e =>
    rw [hrun] at h
    cases h
  | ok r =>
    obtain ⟨ip, k1⟩ := r
    rw [hrun] at h
    obtain ⟨hm, hk⟩ := onFs_eq hrun
    have hends := ((ends_begin_op hR).bind fun _ s hs => ends_openInode hR hs).of_ok hm
    have hfiles : k1.files = k.files := by rw [hk]
    have hcwd : k1.cwd = k.cwd := by rw [hk]
    rcases ip with _ | ip
    · cases h
      obtain ⟨halong, hno⟩ := hends.failed rfl
      exact iff_of_true ⟨halong.unchanged hR.sound, hfiles, hcwd⟩ hno
    have hclosed : ∀ i, (k1.files.file i).ref = 0 → (k1.files.file i).type = .none := by
      rw [hfiles]
      exact hT.closed
    obtain ⟨hput, hk'⟩ := openFound_eq hclosed h
    by_cases hc : omode &&& Files.O_CREATE ≠ 0 ∧ k.fs.Missing (k.cwd p) path
    · refine iff_of_false (fun hun => ?_) (not_not.2 hc)
      obtain ⟨hmade, hlt, hfree⟩ := hends.made ip rfl hc
      have hlive := (ends_lower (E := fun _ => True) ((made_iput hmade).mono (fun _ _ => id)
        fun _ _ => False.elim)).of_ok hput
      exact hlive ((hun.fs.inodes ip hlt).1.trans hfree)
    · obtain ⟨halong, hkept⟩ := hends.found ip rfl hc
      have hend := (ends_iput (E := fun _ => True) halong hkept).of_ok hput
      exact iff_of_true ⟨hend.unchanged hR.sound, by rw [hk', hfiles], by rw [hk', hcwd]⟩ hc

end Kernel

/-- A call that returns -1 has changed nothing, unless it is an `open` that has created a file. -/
theorem failing_unchanged {k k' : Kernel} {p : Slot} {c : PathCall} (hT : k.Tidy p)
    (h : k.call p c = .ok (-1, k')) : k.Unchanged k' ↔ ¬ k.Creates p c := by
  cases c with
  | «open» args => exact Kernel.unchanged_open hT h
  | mkdir path => exact iff_of_true (Kernel.unchanged_onFs (ends_makeNode hT.ready) h) id
  | mknod args => exact iff_of_true (Kernel.unchanged_onFs (ends_makeNode hT.ready) h) id
  | link args => exact iff_of_true (Kernel.unchanged_onFs (ends_sys_link hT.ready) h) id
  | unlink path => exact iff_of_true (Kernel.unchanged_onFs (ends_sys_unlink hT.ready) h) id
  | chdir path => exact iff_of_true (Kernel.unchanged_chdir hT h) id

/-- A disk with an empty root directory, which is the current directory of all processes. The first
process has opened it and duplicated the descriptor until none was left. -/
def fullKernel (s : State) : Kernel where
  fs := s
  files := { (Ftable.initial : Files Nat Nat).setFile 0
      ⟨.inode, NOFILE, true, false, none, some ROOTINO⟩ with
    ofile := fun p _ => if p = 0 then some 0 else none }
  cwd _ := ROOTINO

/-- The state after the root directory was made. -/
structure RootOnly (s : State) : Prop where
  ninodes : s.sb.ninodes = 8
  others : ∀ i < 8, i ≠ ROOTINO → (s.dinode i).type = .free
  root : (s.dinode ROOTINO).nlink = 1 ∧ (s.dinode ROOTINO).size = 0 ∧ 0 < s.ref ROOTINO
  linked : ∀ i < 8, (s.inode i).nlink = (s.dinode i).nlink

instance (s : State) : Decidable (RootOnly s) :=
  decidable_of_iff (s.sb.ninodes = 8 ∧ (∀ i < 8, i ≠ ROOTINO → (s.dinode i).type = .free) ∧
      ((s.dinode ROOTINO).nlink = 1 ∧ (s.dinode ROOTINO).size = 0 ∧ 0 < s.ref ROOTINO) ∧
      ∀ i < 8, (s.inode i).nlink = (s.dinode i).nlink)
    ⟨fun h => ⟨h.1, h.2.1, h.2.2.1, h.2.2.2⟩, fun h => ⟨h.ninodes, h.others, h.root, h.linked⟩⟩

theorem RootOnly.ready {s : State} (h : RootOnly s) (hs : s.Sound) : s.Ready ROOTINO := by
  have hroot : s.Kept ROOTINO := ⟨by rw [h.ninodes]; decide, .inr (.inl h.root.2.2)⟩
  refine ⟨hs, fun i hi _ _ => h.linked i (by rwa [h.ninodes] at hi),
    ⟨hroot, fun d hd hdir _ k hk => ?_⟩,
    hroot.1, h.root.2.2⟩
  have hd : d = ROOTINO := by
    by_contra hne
    rw [h.ninodes] at hd
    rw [h.others d hd hne] at hdir
    cases hdir
  rw [hd, h.root.2.1] at hk
  cases hk

theorem RootOnly.tidy (h : RootOnly s) (hs : s.Sound) : (fullKernel s).Tidy 0 := by
  refine ⟨h.ready hs, fun i hi => ?_⟩
  rcases eq_or_ne i 0 with rfl | hne
  · cases hi
  · simp [fullKernel, Files.setFile, Ftable.initial, hne]

/-- Returns -1. -/
def Fails (k : Kernel) (c : PathCall) : Bool :=
  match k.call 0 c with
  | .ok (r, _) => r = -1
  | .error _ => false

theorem Fails.exists (h : Fails k c = true) : ∃ k', k.call 0 c = .ok (-1, k') := by
  unfold Fails at h
  split at h
  · next r k' hc => exact ⟨k', by rw [hc, of_decide_eq_true h]⟩
  · cases h

theorem exists_rootOnly : ∃ s, s.Sound ∧ RootOnly s ∧
    Fails (fullKernel s) (.open (some ([47, 120], 0))) = true ∧
    Fails (fullKernel s) (.open (some ([47, 120], Files.O_CREATE))) = true ∧
    s.resolve ROOTINO [47, 120] true = some (ROOTINO, [120]) ∧ s.child ROOTINO [120] = none := by
  obtain ⟨s, hreach, h⟩ := system.exists_run next emptyDisk
    [.ialloc .dir, .iget 1, .iupdate 1 0 0 1]
    (Q := fun s => RootOnly s ∧ Fails (fullKernel s) (.open (some ([47, 120], 0))) = true ∧
      Fails (fullKernel s) (.open (some ([47, 120], Files.O_CREATE))) = true ∧
        s.resolve ROOTINO [47, 120] true = some (ROOTINO, [120]) ∧ s.child ROOTINO [120] = none)
    rfl emptyDisk_fresh (by decide +kernel)
  exact ⟨s, sound_reach hreach, h⟩

/-- `open` of a file that is not there fails and leaves all as it was. -/
theorem failing_unchanged_open : ∃ k k' : Kernel, k.Tidy 0 ∧
    k.call 0 (.open (some ([47, 120], 0))) = .ok (-1, k') ∧ k.Unchanged k' := by
  obtain ⟨s, hs, hroot, hopen, -⟩ := exists_rootOnly
  obtain ⟨k', hk'⟩ := Fails.exists hopen
  have hT := hroot.tidy hs
  exact ⟨fullKernel s, k', hT, hk', (failing_unchanged hT hk').2 fun hc => hc.1 rfl⟩

/-- With `O_CREATE` it fails for want of a descriptor, and the file is there. -/
theorem open_create_leaves_file : ∃ k k' : Kernel, k.Tidy 0 ∧
    k.call 0 (.open (some ([47, 120], Files.O_CREATE))) = .ok (-1, k') ∧ ¬ k.Unchanged k' := by
  obtain ⟨s, hs, hroot, -, hopen, hparent, hchild⟩ := exists_rootOnly
  obtain ⟨k', hk'⟩ := Fails.exists hopen
  have hT := hroot.tidy hs
  refine ⟨fullKernel s, k', hT, hk', fun hun => ?_⟩
  have hc : (fullKernel s).Creates 0 (.open (some ([47, 120], Files.O_CREATE))) :=
    ⟨by decide, ROOTINO, [120], hparent, hchild⟩
  have hopen : (fullKernel s).sys_open 0 (some ([47, 120], Files.O_CREATE)) = .ok (-1, k') := hk'
  exact (Kernel.unchanged_open hT hopen).1 hun hc

end Msboss.Fs
