import Msboss.Inodes.Held

/-!
# What the calls do

For each call of `sysfile.c` that uses inodes: it ends with the references and locks that it
started with, and if nothing was wrong with the disk before it, the disk has changed as the
functions of `Inodes.Disk` say, or not at all.
-/

namespace Msboss.Inodes

open Function List
open Fs (FileType)

variable {K : Kept} {o : Int} {H H' : Refs} {L : List InodeId} {D D' : Disk} {s : Volume}
  {i j : InodeId} {n m d : Nat} {Fine Safe : Prop}

/-- No link count has overflowed. -/
def InRange (D : Disk) : Prop := ∀ n, 0 ≤ (D n).nlink ∧ (D n).nlink < 2 ^ 15

theorem short_eq (h : -2 ^ 15 ≤ l) (h' : l < 2 ^ 15) : short l = l := by
  unfold short
  exact Int.bmod_eq_of_le (by omega) (by omega)

theorem short_add_one_ne_zero (h : 0 ≤ l) (h' : l < 2 ^ 15) : short (l + 1) ≠ 0 := by
  unfold short
  rw [Int.bmod_def]
  split <;> omega

/-- The undo of `link`. -/
theorem short_sub_one_short (h : 0 ≤ l) (h' : l < 2 ^ 15) : short (short (l + 1) + -1) = l := by
  have h1 : short (short (l + 1) + -1) = short (l + 1 + -1) := Int.bmod_add_bmod
  rw [h1, Int.add_neg_cancel_right, short_eq (by omega) h']

/-- What becomes of an inode when a call's last reference to it goes. -/
inductive Drop (R : Nat → Prop) (D : Disk) (n : Nat) : Disk → Prop
  | stays : R n ∨ (D n).nlink ≠ 0 → Drop R D n D
  | freed : ¬ R n → (D n).nlink = 0 → (D n).type ≠ .free → Drop R D n (D.free n)

/-- Different entries are of different inodes. -/
theorem Held.inum_inj (h : Held K o H L D s) (hi : (i, n) ∈ H) (hj : (j, m) ∈ H) (hne : i ≠ j) :
    n ≠ m := by
  intro hnm
  refine hne (h.unique i j (h.ref_pos hi) (h.ref_pos hj) ?_)
  rw [(h.fits i).named n hi, (h.fits j).named m hj, hnm]

/-- An inode in use is in use through its entry. -/
theorem Held.count_pos_of_has (h : Held K o H L D s) (hi : (i, n) ∈ H) (hn : K.Has n) :
    0 < K.count i := by
  obtain ⟨j, hj, rfl⟩ := hn
  have hpos : 0 < (s.entry j).ref := by rw [(h.fits j).refs]; omega
  have := h.unique j i hpos (h.ref_pos hi)
    (by rw [(h.fits j).kept hj, (h.fits i).named _ hi])
  exact this ▸ hj

/-- The last `iput` of an inode drops it. -/
theorem Put.drop (h : Held K o H L D0 s) (hi : (i, n) ∈ H) (hto : H'.to i = 0)
    (hput : Put K H' D i n true D') : Drop K.Has D n D' := by
  cases hput with
  | stays hs =>
    refine .stays ?_
    obtain hk | hk | hl | hv := hs
    · exact .inl ⟨i, hk, by rw [← (h.fits i).kept hk, (h.fits i).named n hi]⟩
    · omega
    · exact .inr hl
    · cases hv
  | freed hk _ hl ht =>
    exact .freed (fun hn => by have := h.count_pos_of_has hi hn; omega) hl ht

/-- `begin_op` counts the operation. -/
theorem ends_begin_op (h : Held K o H L D s) :
    Ends begin_op s (fun _ s' => Held K (o + 1) H L D s') E := by
  have hops := h.ops
  exact ⟨h.fits, h.unique, h.nodup, h.disk, by dsimp only; omega, h.ninodes⟩

/-- `end_op` counts it off. -/
theorem ends_end_op (h : Held K (o + 1) H L D s) :
    Ends end_op s (fun _ s' => Held K o H L D s') E := by
  have hops := h.ops
  exact ⟨h.fits, h.unique, h.nodup, h.disk, by dsimp only; omega, h.ninodes⟩

/-! ## `unlink` -/

/-- The outcomes of `unlink`, for a process whose current directory is `c`. -/
inductive Unlinked (R : Nat → Prop) (D : Disk) (c : Nat) : Option (List UInt8) → Disk → Prop
  | fails {path} : Unlinked R D c path D
  | removes {path : List UInt8} {d k n : Nat} {name : Name} {D1 D2 : Disk} :
      D.parent c path = some (d, name) → (D d).type = .dir →
      name ≠ dot → name ≠ dotdot → slot (D d).dirents name = some k →
      inumAt (D d).dirents k = n → 1 ≤ (D n).nlink →
      ((D n).type = .dir → isdirempty (D n).dirents = true) → d ≠ n →
      Drop R (D.unlink d k n) d D1 → Drop R D1 n D2 → Unlinked R D c (some path) D2

/-- The entry is cleared and the directory given back. -/
theorem ends_eraseEntry (h : Held K o [(i, n), (j, d)] [i, j] D s) (k : Nat) :
    Ends (eraseEntry j i k) s
      (fun _ s' => ∃ D', Held K o [(i, n)] [i] D' s' ∧ Put K [(i, n)] (D.erase d k n) j d true D')
      Full := by
  have htype := (h.locked_eq (i := i) (n := n) (by simp) (by simp)).2.1
  have hnum := (h.locked_eq (i := j) (n := d) (by simp) (by simp)).1
  have hset := h.changeDisk (E := D.rewrite d ((D d).dirents.set k ⟨0, []⟩)) fun m => by simp
  unfold eraseEntry
  rw [ends_get_bind, modifyInode, ends_modify_bind, htype, hnum, h.disk]
  unfold Disk.erase
  split
  · refine (ends_addLinks (i := j) (n := d) hset (by simp) (by simp) (-1)).bind fun _ s1 h₁ => ?_
    have := ends_iunlockput (h₁.perm (.swap _ _ _) (.swap _ _ _))
    simpa [← sub_eq_add_neg] using this
  · exact ends_iunlockput (hset.perm (.swap _ _ _) (.swap _ _ _))

/-- What is dropped does not depend on the link count of another inode. -/
theorem Drop.relink (h : Drop R D d D') (hne : d ≠ n) (l : Int) :
    Drop R (D.relink n l) d (D'.relink n l) := by
  have hd : D.relink n l d = D d := by rw [Disk.relink_apply, if_neg hne]
  cases h with
  | stays hs => exact .stays (by rwa [hd])
  | freed hk hl ht =>
    have : (D.free d).relink n l = (D.relink n l).free d := by
      funext m
      simp only [Disk.relink_apply, Disk.free_apply, if_neg hne.symm]
      by_cases h1 : m = n
      · rw [if_pos h1, if_neg (h1 ▸ hne.symm), if_pos h1]
      · simp only [if_neg h1]
    rw [this]
    exact .freed hk (by rwa [hd]) (by rwa [hd])

theorem Disk.erase_of_ne (hne : m ≠ d) (k n : Nat) : D.erase d k n m = D m := by
  unfold Disk.erase
  split
  · rw [Disk.relink_apply, if_neg hne, Disk.rewrite_apply, if_neg hne]
  · rw [Disk.rewrite_apply, if_neg hne]

theorem Drop.of_ne (h : Drop R D d D') (hne : m ≠ d) : D' m = D m := by
  cases h with
  | stays => rfl
  | freed => rw [Disk.free_apply, if_neg hne]

/-- Both inodes are given back. -/
theorem ends_removeEntry (h : Held K (o + 1) [(i, n), (j, d)] [i, j] D s) (k : Nat) :
    Ends (removeEntry j i k) s (fun _ s' => ∃ D1 D2, Held K o [] [] D2 s' ∧ d ≠ n ∧
      Drop K.Has (D.unlink d k n) d D1 ∧ Drop K.Has D1 n D2) Full := by
  have hij : i ≠ j := by have := h.nodup; simpa using this
  have hne : d ≠ n := h.inum_inj (i := j) (j := i) (by simp) (by simp) hij.symm
  refine (ends_eraseEntry h k).bind fun _ s1 h₁ => ?_
  obtain ⟨D1, h₁, hput1⟩ := h₁
  have hd : Drop K.Has (D.erase d k n) d D1 :=
    hput1.drop (i := j) h (by simp) (by simp [hij.symm])
  refine (ends_addLinks h₁ (by simp) (mem_cons_self) (-1)).bind fun _ s2 h2 => ?_
  refine (ends_iunlockput h2).bind fun _ s3 h3 => ?_
  obtain ⟨D3, h3, hput3⟩ := h3
  refine (ends_end_op h3).bind fun _ s4 h4 => ?_
  refine ⟨_, D3, h4, hne, ?_, hput3.drop h2 mem_cons_self rfl⟩
  rw [hd.of_ne hne.symm, Disk.erase_of_ne hne.symm, ← sub_eq_add_neg]
  exact hd.relink hne _

/-- The error path of `unlink` changes nothing. -/
theorem ends_unlinkBad (h : Held K (o + 1) [(i, n)] [i] D s) (hD : Fine → Quiet K.Has D) :
    Ends (unlinkBad i) s (fun _ s' => ∃ D', Held K o [] [] D' s' ∧ (Fine → D' = D)) Full := by
  refine (ends_iunlockput h).bind fun _ s1 h₁ => ?_
  obtain ⟨D1, h₁, hput⟩ := h₁
  refine (ends_end_op h₁).bind fun _ s2 h2 => ?_
  exact ⟨D1, h2, fun hF => hput.eq_of_ready h (hD hF) mem_cons_self⟩

/-- What `unlink` does to the disk. -/
theorem ends_sys_unlink (h : Held K o [] [] D s) (hD : Assumed Fine Safe K.Has D)
    (hc : 0 < K.count cwd) (path : Option (List UInt8)) : Ends (sys_unlink cwd path) s
      (fun _ s' => ∃ D', Held K o [] [] D' s' ∧ (Fine → Unlinked K.Has D (K.inum cwd) path D'))
      (Fails Safe) := by
  cases path with
  | none => exact ⟨D, h, fun _ => .fails⟩
  | some path =>
    refine (ends_begin_op h).bind fun _ s1 h₁ => ?_
    refine (ends_strained (ends_nameiparent h₁ hD hc path)).bind fun r s2 h2 => ?_
    cases r with
    | none =>
      obtain ⟨D2, h2, hF2⟩ := h2
      refine (ends_end_op h2).bind fun _ s3 h3 => ?_
      exact ⟨D2, h3, fun hF => (hF2 hF).1 ▸ .fails⟩
    | some r =>
      obtain ⟨dp, name⟩ := r
      obtain ⟨D2, d, h2, hF2, hS2⟩ := h2
      have hD2 := hD.congr fun hF => (hF2 hF).1
      refine (ends_ilock_found h2 mem_cons_self hS2).bind fun _ s3 h3 => ?_
      obtain ⟨h3, -, -⟩ := h3
      have hbad : ∀ {s}, Held K (o + 1) [(dp, d)] [dp] D2 s →
          Ends (unlinkBad dp) s (fun _ s' => ∃ D', Held K o [] [] D' s' ∧
            (Fine → Unlinked K.Has D (K.inum cwd) (some path) D')) (Fails Safe) := fun h =>
        (ends_unlinkBad h hD2.quiet).mono
          (fun _ _ ⟨D', h', hF'⟩ => ⟨D', h', fun hF => by rw [hF' hF, (hF2 hF).1]; exact .fails⟩)
          fun _ hx => hx.fails
      split
      · exact hbad h3
      next hname =>
      rw [not_or] at hname
      refine ((ends_dirlookup h3 mem_cons_self mem_cons_self name).mono (fun _ _ hq => hq)
        fun _ hx => hx.fails).bind fun r s4 h4 => ?_
      obtain ⟨hdir, h4⟩ := h4
      cases r with
      | none => exact hbad h4.1
      | some r =>
        obtain ⟨k, ip⟩ := r
        obtain ⟨h4, hslot⟩ := h4
        refine (ends_ilock_found h4 mem_cons_self fun hS =>
          (hD2.live hS).slot hdir hslot).bind fun _ s5 h5 => ?_
        obtain ⟨h5, -, -⟩ := h5
        obtain ⟨hnum, htype, hnlink, -⟩ :=
          h5.locked_eq (i := ip) mem_cons_self mem_cons_self
        rw [ends_get_bind, hnum, htype, hnlink, h5.disk]
        split
        · exact nofun
        next hpos =>
        split
        · refine (ends_fails (ends_iunlockput h5)).bind fun _ s6 h6 => ?_
          obtain ⟨D6, h6, hput⟩ := h6
          have heq : Fine → D6 = D2 := fun hF =>
            hput.eq_of_ready h5 (hD2.quiet hF) mem_cons_self
          refine (ends_unlinkBad h6 (hD2.congr heq).quiet).mono
            (fun _ _ ⟨D', h', hF'⟩ => ⟨D', h', fun hF => ?_⟩) fun _ hx => hx.fails
          rw [hF' hF, heq hF, (hF2 hF).1]
          exact .fails
        · next hempty =>
          refine (ends_removeEntry h5 k).mono (fun _ _ h6 => ?_) fun _ hx => hx.fails
          obtain ⟨D6, D7, h6, hne, hdrop1, hdrop2⟩ := h6
          refine ⟨D7, h6, fun hF => ?_⟩
          obtain ⟨rfl, hparent⟩ := hF2 hF
          refine .removes hparent hdir hname.1 hname.2 hslot rfl (by omega) (fun ht => ?_) hne
            hdrop1 hdrop2
          by_contra hc
          exact hempty ⟨ht, by simpa using hc⟩

/-! ## `link` -/

/-- The outcomes of `link`. -/
inductive Linked (D : Disk) (c : Nat) : Option (List UInt8) → Option (List UInt8) → Disk → Prop
  | fails {old new} : Linked D c old new D
  | links {old new : List UInt8} {n d : Nat} {name : Name} : D.find c old = some n →
      (D n).type ≠ .dir → (D n).type ≠ .free → D.parent c new = some (d, name) → (D d).type = .dir →
        slot (D d).dirents name = none →
      Linked D c (some old) (some new) (D.link d name n)

theorem Disk.relink_relink (D : Disk) (n : Nat) (l l' : Int) :
    (D.relink n l).relink n l' = D.relink n l' := by
  simp [Disk.relink]

theorem Disk.relink_self (D : Disk) (n : Nat) : D.relink n (D n).nlink = D := by
  simp [Disk.relink]

/-- The disk in the middle of `link` is as good as before. -/
theorem Assumed.relink (h : Assumed Fine Safe R D) (hl : Fine → l ≠ 0) :
    Assumed Fine Safe R (D.relink n l) where
  quiet hF m ht hm := by
    rw [Disk.relink_type] at ht
    rw [Disk.relink_apply] at hm
    split at hm
    · exact absurd hm (hl hF)
    · exact h.quiet hF m ht hm
  live hS :=
    { named := fun d hd e he he0 => by
        rw [Disk.relink_type] at hd ⊢
        rw [Disk.relink_dirents] at he
        exact (h.live hS).named d hd e he he0
      root := by rw [Disk.relink_type]; exact (h.live hS).root
      used := fun m hm => by rw [Disk.relink_type]; exact (h.live hS).used m hm }
  fine := h.fine

/-- The error path of `link` takes the count back. -/
theorem ends_linkBad (h : Held K (o + 1) [(i, n)] [] D s) : Ends (linkBad i) s
      (fun _ s' => ∃ D', Held K o [] [] D' s' ∧
        Drop K.Has (D.relink n (short ((D n).nlink + -1))) n D')
      fun x => x = .noType → (D n).type = .free := by
  have hlock : Ends (ilock i) s _ fun x => x = .noType → (D n).type = .free :=
    (ends_ilock h mem_cons_self).mono (fun _ _ hq => hq) fun _ hx _ =>
    (hx.resolve_right (by simp)).2
  refine hlock.bind fun _ s1 h₁ => ?_
  obtain ⟨h₁, -, hn⟩ := h₁
  have hcalm : ∀ x, Full x → x = .noType → (D n).type = .free := fun x hx hx' => absurd hx' hx.ne
  refine ((ends_addLinks h₁ mem_cons_self mem_cons_self (-1)).mono (fun _ _ hq => hq)
    hcalm).bind fun _ s2 h2 => ?_
  refine ((ends_iunlockput h2).mono (fun _ _ hq => hq) hcalm).bind fun _ s3 h3 => ?_
  obtain ⟨D3, h3, hput⟩ := h3
  refine (ends_end_op h3).bind fun _ s4 h4 => ?_
  exact ⟨D3, h4, hput.drop h2 mem_cons_self rfl⟩

/-- Nothing is freed when a call puts what it has not changed. -/
theorem Drop.eq_of_ready (h : Drop R D n D') (hD : Quiet R D) : D' = D := by
  cases h with
  | stays => rfl
  | freed hR hl ht => exact absurd (hD n ht hl) hR

theorem Disk.enter_nlink (D : Disk) (d : Nat) (name : Name) (n m : Nat) :
    (D.enter d name n m).nlink = (D m).nlink := Disk.rewrite_nlink _ _ _ _

theorem Disk.enter_type (D : Disk) (d : Nat) (name : Name) (n m : Nat) :
    (D.enter d name n m).type = (D m).type := Disk.rewrite_type _ _ _ _

/-- What `link` does to the disk. -/
theorem ends_sys_link (h : Held K o [] [] D s) (hD : Assumed Fine Safe K.Has D)
    (hrange : Fine → InRange D) (hc : 0 < K.count cwd) (old new : Option (List UInt8)) :
    Ends (sys_link cwd old new) s
      (fun _ s' => ∃ D', Held K o [] [] D' s' ∧ (Fine → Linked D (K.inum cwd) old new D'))
      (Fails Safe) := by
  match old, new with
  | none, none | none, some _ | some _, none => exact ⟨D, h, fun _ => .fails⟩
  | some old, some new =>
    refine (ends_begin_op h).bind fun _ s1 h₁ => ?_
    refine (ends_strained (ends_namei h₁ hD hc old)).bind fun r s2 h2 => ?_
    cases r with
    | none =>
      obtain ⟨D2, h2, hF2⟩ := h2
      refine (ends_end_op h2).bind fun _ s3 h3 => ?_
      exact ⟨D2, h3, fun hF => hF2 hF ▸ .fails⟩
    | some ip =>
      obtain ⟨D2, n, h2, hF2, hS2⟩ := h2
      have hD2 := hD.congr fun hF => (hF2 hF).1
      refine (ends_ilock_found h2 mem_cons_self hS2).bind fun _ s3 h3 => ?_
      obtain ⟨h3, -, hn⟩ := h3
      rw [ends_get_bind, (h3.locked_eq mem_cons_self mem_cons_self).2.1]
      split
      · refine (ends_fails (ends_iunlockput h3)).bind fun _ s4 h4 => ?_
        obtain ⟨D4, h4, hput⟩ := h4
        refine (ends_end_op h4).bind fun _ s5 h5 => ?_
        refine ⟨D4, h5, fun hF => ?_⟩
        rw [hput.eq_of_ready h3 (hD2.quiet hF) mem_cons_self, (hF2 hF).1]
        exact .fails
      next hfile =>
      refine (ends_fails (ends_addLinks h3 mem_cons_self mem_cons_self 1)).bind
        fun _ s4 h4 => ?_
      refine (ends_fails (ends_iunlock h4)).bind fun _ s5 h5 => ?_
      obtain ⟨h5, -, -⟩ := h5
      have hl : Fine → 0 ≤ (D2 n).nlink ∧ (D2 n).nlink < 2 ^ 15 := fun hF =>
        (hF2 hF).1 ▸ hrange hF n
      -- what happens at `bad`
      have hbad : ∀ {s D'}, Held K (o + 1) [(ip, n)] [] D' s →
          (Fine → D' = D2.relink n (short ((D2 n).nlink + 1))) →
          Ends (linkBad ip) s (fun _ s' => ∃ D', Held K o [] [] D' s' ∧
            (Fine → Linked D (K.inum cwd) (some old) (some new) D')) (Fails Safe) := by
        intro s D' hs heq
        refine (ends_linkBad hs).mono (fun _ _ ⟨D'', hs', hdrop⟩ => ⟨D'', hs', fun hF => ?_⟩) ?_
        · rw [heq hF, Disk.relink_relink, Disk.relink_apply, if_pos rfl] at hdrop
          dsimp only at hdrop
          rw [short_sub_one_short (hl hF).1 (hl hF).2, Disk.relink_self] at hdrop
          rw [hdrop.eq_of_ready (hD2.quiet hF), (hF2 hF).1]
          exact .fails
        · intro x hx hx' hS
          have := hx hx'
          rw [heq (hD.fine hS), Disk.relink_type] at this
          exact hn this
      have hD4 : Assumed Fine Safe K.Has (D2.relink n (short ((D2 n).nlink + 1))) :=
        hD2.relink fun hF => short_add_one_ne_zero (hl hF).1 (hl hF).2
      refine (ends_strained (ends_nameiparent h5 hD4 hc new)).bind fun r s6 h6 => ?_
      cases r with
      | none =>
        obtain ⟨D6, h6, hF6⟩ := h6
        exact hbad h6 fun hF => (hF6 hF).1
      | some r =>
        obtain ⟨dp, name⟩ := r
        obtain ⟨D6, d, h6, hF6, hS6⟩ := h6
        dsimp only
        refine (ends_ilock_found h6 mem_cons_self hS6).bind fun _ s7 h7 => ?_
        obtain ⟨h7, -, -⟩ := h7
        have hdev1 := (h7.fits dp).device (h7.ref_pos mem_cons_self)
        have hdev2 := (h7.fits ip).device (h7.ref_pos (n := n) (by simp))
        rw [ends_get_bind, hdev1, hdev2, if_neg (by simp), (h7.fits ip).named n (by simp)]
        refine ((ends_dirlink h7 mem_cons_self mem_cons_self name n).mono
          (fun _ _ hq => hq) fun _ hx => hx.fails).bind fun r s8 h8 => ?_
        obtain ⟨hdir, h8⟩ := h8
        cases r with
        | false =>
          obtain ⟨D8, h8, heq8, -⟩ := h8
          refine (ends_fails (ends_iunlockput h8)).bind fun _ s9 h9 => ?_
          obtain ⟨D9, h9, hput⟩ := h9
          refine hbad h9 fun hF => ?_
          obtain ⟨rfl, -⟩ := hF6 hF
          obtain rfl := heq8 (hD4.quiet hF)
          exact hput.eq_of_ready h8 (hD4.quiet hF) mem_cons_self
        | true =>
          obtain ⟨h8, hslot⟩ := h8
          refine (ends_fails (ends_iunlockput h8)).bind fun _ s9 h9 => ?_
          obtain ⟨D9, h9, hput9⟩ := h9
          refine (ends_fails (ends_iput h9 nofun)).bind fun _ s10 h10 => ?_
          obtain ⟨D10, h10, hput10⟩ := h10
          refine (ends_end_op h10).bind fun _ s11 h11 => ?_
          refine ⟨D10, h11, fun hF => ?_⟩
          obtain ⟨rfl, hparent⟩ := hF6 hF
          obtain ⟨rfl, hfind⟩ := hF2 hF
          rw [Disk.parent_relink] at hparent
          rw [Disk.relink_type] at hdir
          rw [Disk.relink_dirents] at hslot
          -- neither the directory nor the inode is freed
          obtain rfl := hput9.eq_of_quiet h8 mem_cons_self fun ht h0 => by
            rw [Disk.enter_type] at ht
            rw [Disk.enter_nlink] at h0
            exact hD4.quiet hF d ht h0
          obtain rfl := hput10.eq_of_quiet h9 mem_cons_self fun _ h0 => by
            rw [Disk.enter_nlink, Disk.relink_apply, if_pos rfl] at h0
            exact absurd h0 (short_add_one_ne_zero (hl hF).1 (hl hF).2)
          exact .links hfind hfile hn hparent hdir hslot

/-! ## `create` -/

/-- `create` has made the inode `n`. -/
inductive Created (N : Nat) (D : Disk) (c : Nat) (path : List UInt8) (t : FileType) :
    Nat → Disk → Prop
  | made {d : Nat} {name : Name} {n : Nat} : D.parent c path = some (d, name) → (D d).type = .dir →
      slot (D d).dirents name = none → 1 ≤ n → n < N → (D n).type = .free →
      Created N D c path t n (D.make d name t n)

/-- `dirlink` of a name that a directory does not have. -/
theorem ends_dirlink_new (h : Held K o H L D s) (hi : i ∈ L) (hn : (i, n) ∈ H)
    (hdir : (D n).type = .dir) (hslot : slot (D n).dirents name = none) (m : Nat) :
    Ends (dirlink i name m) s (fun r s' => r = true ∧ Held K o H L (D.enter n name m) s') Full := by
  refine (ends_dirlink h hi hn name m).mono (fun r s' h' => ?_) fun _ hx =>
    hx.resolve_right fun hx => hx.2 hdir
  cases r with
  | false =>
    obtain ⟨-, -, -, -, hsome⟩ := h'
    exact absurd hslot hsome
  | true => exact ⟨rfl, h'.2.1⟩

/-- `.` and `..` of a new directory. -/
theorem ends_createDots (h : Held K o [(i, n), (j, d)] [i, j] D s) (hdir : (D n).type = .dir)
    (hempty : (D n).dirents = []) :
    Ends (createDots j i) s (fun _ s' => Held K o [(i, n), (j, d)] [i, j] (D.addDots d n) s')
      Full := by
  refine (ends_addLinks (i := j) (n := d) h (by simp) (by simp) 1).bind fun _ s1 h₁ => ?_
  rw [ends_get_bind, (h₁.fits i).named n (by simp), (h₁.fits j).named d (by simp)]
  have hslot : slot ((D.relink d (short ((D d).nlink + 1))) n).dirents dot = none := by
    rw [Disk.relink_dirents, hempty]
    rfl
  refine (ends_dirlink_new (i := i) (n := n) h₁ (by simp) (by simp) (by simp [hdir]) hslot n).bind
    fun r s2 h2 => ?_
  obtain ⟨rfl, h2⟩ := h2
  have hslot' : slot ((D.relink d (short ((D d).nlink + 1))).enter n dot n n).dirents
    dotdot = none := by
    rw [Disk.enter, Disk.rewrite_apply, if_pos rfl]
    simp [hempty, slot, put, dot, dotdot]
  refine (ends_dirlink_new (i := i) (n := n) h2 (by simp) (by simp)
    (by simp [Disk.enter, hdir]) hslot'
    d).bind fun r s3 h3 => ?_
  obtain ⟨rfl, h3⟩ := h3
  exact h3

theorem ends_initNode (h : Held K o [(i, n), (j, d)] [i, j] D s) (t : FileType)
    (htype : (D n).type = t) (hempty : (D n).dirents = []) :
    Ends (initNode j i t) s (fun _ s' => Held K o [(i, n), (j, d)] [i, j]
      (if t = .dir then D.addDots d n else D) s') Full := by
  unfold initNode
  split
  · next ht => exact ends_createDots h (htype.trans ht) hempty
  · exact h

/-- The dots are not made in the directory that the new one is in. -/
theorem Disk.addDots_of_ne (D : Disk) (hne : d ≠ n) :
    (D.addDots d n d).type = (D d).type ∧ (D.addDots d n d).dirents = (D d).dirents := by
  simp [Disk.addDots, Disk.enter, Disk.rewrite_apply, hne]

/-- The part of `create` that makes a new inode. -/
theorem ends_createNew (h : Held K o [(j, d)] [j] D s) (hdir : (D d).type = .dir)
    (ht : t ≠ .free) (hslot : slot (D d).dirents name = none) :
    Ends (createNew j name t) s (fun r s' => ∃ i n D', r = some i ∧ Held K o [(i, n)] [i] D' s' ∧
      1 ≤ n ∧ n < K.ninodes ∧ (D n).type = .free ∧ d ≠ n ∧
      Put K [(i, n)] (D.make d name t n) j d true D') Full := by
  unfold createNew
  rw [ends_get_bind, (h.fits j).device (h.ref_pos mem_cons_self)]
  refine (ends_ialloc h t).bind fun i s1 h₁ => ?_
  obtain ⟨n, hn1, hnN, hfree, h₁⟩ := h₁
  have hne : d ≠ n := by
    rintro rfl
    rw [hdir] at hfree
    cases hfree
  have hij : i ≠ j := fun heq => hne <| by
    rw [← (h₁.fits j).named d (by simp), ← heq, (h₁.fits i).named n (by simp)]
  refine ((ends_ilock h₁ mem_cons_self).mono (fun _ _ hq => hq) fun x hx => ?_).bind
    fun _ s2 h2 => ?_
  · obtain ⟨-, hx⟩ | ⟨-, hx⟩ := hx
    · rw [update_self] at hx
      exact absurd hx ht
    · exact absurd (mem_singleton.1 hx) hij
  obtain ⟨h2, -, -⟩ := h2
  refine (ends_setLinks (i := i) (n := n) h2 (by simp) (by simp) fun _ => 1).bind fun _ s3 h3 => ?_
  have halloc : Disk.relink (update D n ⟨t, 0, []⟩) n 1 = D.alloc n t := by
    simp [Disk.relink, Disk.alloc]
  rw [halloc] at h3
  have hself : D.alloc n t n = ⟨t, 1, []⟩ := update_self ..
  have hother : D.alloc n t d = D d := update_of_ne hne ..
  refine (ends_initNode h3 t (by rw [hself]) (by rw [hself])).bind fun _ s4 h4 => ?_
  rw [ends_get_bind, (h4.fits i).named n (by simp)]
  have hd : (((if t = .dir then (D.alloc n t).addDots d n else D.alloc n t) : Disk) d).type = .dir ∧
      slot ((if t = .dir then (D.alloc n t).addDots d n else D.alloc n t : Disk) d).dirents
        name = none := by
    split
    · rw [(Disk.addDots_of_ne _ hne).1, (Disk.addDots_of_ne _ hne).2, hother]
      exact ⟨hdir, hslot⟩
    · rw [hother]
      exact ⟨hdir, hslot⟩
  refine (ends_dirlink_new (i := j) (n := d) h4 (by simp) (by simp) hd.1 hd.2 n).bind
    fun r s5 h5 => ?_
  obtain ⟨rfl, h5⟩ := h5
  refine (ends_iunlockput (h5.perm (.swap _ _ _) (.swap _ _ _))).bind fun _ s6 h6 => ?_
  obtain ⟨D6, h6, hput⟩ := h6
  exact ⟨i, n, D6, rfl, h6, hn1, hnN, hfree, hne, hput⟩

/-- The link counts after `create`. -/
theorem Disk.make_nlink (hne : d ≠ n) (name : Name) (t : FileType) (m : Nat) :
    (D.make d name t n m).nlink =
      if m = n then 1 else if m = d ∧ t = .dir then short ((D d).nlink + 1) else (D m).nlink := by
  unfold Disk.make
  rw [Disk.enter_nlink]
  by_cases ht : t = .dir
  · simp only [if_pos ht, Disk.addDots, Disk.enter_nlink, Disk.relink_apply, Disk.alloc_apply,
      if_neg hne, ht, and_true]
    by_cases hm : m = d
    · simp [hm, hne]
    · simp only [if_neg hm]
      split <;> rfl
  · simp only [Disk.alloc_apply, ht, and_false, if_false]
    split <;> rfl

theorem Disk.make_type (D : Disk) (d : Nat) (name : Name) (t : FileType) (n m : Nat) :
    (D.make d name t n m).type = if m = n then t else (D m).type := by
  have halloc : (D.alloc n t m).type = if m = n then t else (D m).type := by
    rw [Disk.alloc_apply]
    split <;> rfl
  unfold Disk.make
  rw [Disk.enter_type]
  split
  · simp only [Disk.addDots, Disk.enter_type, Disk.relink_type, halloc]
  · exact halloc

/-- What has a last element is a directory. -/
theorem Disk.parent_dir (h : D.parent c path = some (d, name)) : (D d).type = .dir := by
  have hwalk : ∀ (fuel n : Nat) (path : List UInt8), D.walk true fuel n path = some (d, name) →
      (D d).type = .dir := by
    intro fuel
    induction fuel with
    | zero => exact fun _ _ h => by cases h
    | succ fuel ih =>
      intro n path h
      unfold Disk.walk at h
      split at h
      · cases h
      split at h
      · cases h
      next hdir =>
      split at h
      · cases h
        exact not_not.1 hdir
      · split at h
        · cases h
        · exact ih _ _ h
  exact hwalk _ _ _ h

/-- What `create` does to the disk. -/
theorem ends_create (h : Held K o [] [] D s) (hD : Assumed Fine Safe K.Has D)
    (hrange : Fine → InRange D) (hc : 0 < K.count cwd) (path : List UInt8) (ht : t ≠ .free) :
    Ends (create cwd path t) s (fun r s' =>
      match r with
      | none => ∃ D', Held K o [] [] D' s' ∧ (Fine → D' = D ∧
          ∀ d name, D.parent (K.inum cwd) path = some (d, name) → slot (D d).dirents name ≠ none)
      | some i => ∃ D' n, Held K o [(i, n)] [i] D' s' ∧
          (Fine → t = .file ∧ D' = D ∧ (D n).type ≠ .free ∨
            Created K.ninodes D (K.inum cwd) path t n D'))
      (Strains Safe) := by
  refine (ends_nameiparent h hD hc path).bind fun r s2 h2 => ?_
  cases r with
  | none =>
    obtain ⟨D2, h2, hF2⟩ := h2
    refine ⟨D2, h2, fun hF => ⟨(hF2 hF).1, fun d name hparent => ?_⟩⟩
    rw [(hF2 hF).2] at hparent
    cases hparent
  | some r =>
    obtain ⟨dp, name⟩ := r
    obtain ⟨D2, d, h2, hF2, hS2⟩ := h2
    have hD2 := hD.congr fun hF => (hF2 hF).1
    refine (ends_ilock_first h2 mem_cons_self hS2).bind fun _ s3 h3 => ?_
    obtain ⟨h3, -⟩ := h3
    have hdir : Safe → (D2 d).type = .dir := fun hS => by
      rw [(hF2 (hD.fine hS)).1]
      exact Disk.parent_dir (hF2 (hD.fine hS)).2
    refine (ends_dirlookup_dir h3 mem_cons_self mem_cons_self hdir name).bind
      fun r s4 h4 => ?_
    obtain ⟨hdir, h4⟩ := h4
    cases r with
    | some r =>
      obtain ⟨k, ip⟩ := r
      obtain ⟨h4, hslot⟩ := h4
      refine (ends_strains (ends_iunlockput_found h4)).bind fun _ s5 h5 => ?_
      obtain ⟨D5, h5, hput5⟩ := h5
      have heq5 : Fine → D5 = D2 := fun hF => hput5.eq_of_ready h4 (hD2.quiet hF) (by simp)
      have hlive : Safe → (D5 (inumAt (D2 d).dirents k)).type ≠ .free := fun hS => by
        rw [heq5 (hD.fine hS)]
        exact (hD2.live hS).slot hdir hslot
      refine (ends_ilock_first h5 mem_cons_self hlive).bind fun _ s6 h6 => ?_
      obtain ⟨h6, hn⟩ := h6
      rw [ends_get_bind, (h6.locked_eq mem_cons_self mem_cons_self).2.1]
      split
      · next hfile =>
        refine ⟨D5, _, h6, fun hF => ?_⟩
        obtain rfl := heq5 hF
        obtain ⟨rfl, -⟩ := hF2 hF
        exact .inl ⟨hfile.1, rfl, hn⟩
      · refine (ends_strains (ends_iunlockput h6)).bind fun _ s7 h7 => ?_
        obtain ⟨D7, h7, hput7⟩ := h7
        refine ⟨D7, h7, fun hF => ⟨?_, fun d' name' hparent => ?_⟩⟩
        · rw [hput7.eq_of_ready h6 ((hD2.congr heq5).quiet hF) mem_cons_self, heq5 hF,
            (hF2 hF).1]
        · rw [(hF2 hF).2] at hparent
          cases hparent
          rw [← (hF2 hF).1, hslot]
          exact nofun
    | none =>
      obtain ⟨h4, hslot⟩ := h4
      refine (ends_createNew h4 hdir ht hslot).mono (fun r s5 h5 => ?_) fun _ hx _ => hx
      obtain ⟨ip, n, D5, rfl, h5, hn1, hnN, hfree, hne, hput⟩ := h5
      refine ⟨D5, n, h5, fun hF => ?_⟩
      obtain ⟨rfl, hparent⟩ := hF2 hF
      have hl := hrange hF d
      obtain rfl := hput.eq_of_quiet h4 mem_cons_self fun _ h0 => by
        rw [Disk.make_nlink hne, if_neg hne] at h0
        split at h0
        · exact absurd h0 (short_add_one_ne_zero hl.1 hl.2)
        · exact hD.quiet hF d (by rw [hdir]; exact nofun) h0
      exact .inr (.made hparent hdir hslot hn1 hnN hfree)

theorem Created.type (h : Created N D c path t n D') : (D' n).type = t ∧ (D' n).nlink = 1 := by
  obtain ⟨hparent, hdir, -, -, -, hfree⟩ := h
  rename_i d name
  have hne : d ≠ n := by
    intro h
    rw [h, hfree] at hdir
    cases hdir
  exact ⟨by rw [Disk.make_type, if_pos rfl], by rw [Disk.make_nlink hne, if_pos rfl]⟩

/-- `mkdir` and `mknod`. -/
theorem ends_makeNode (h : Held K o [] [] D s) (hD : Assumed Fine Safe K.Has D)
    (hrange : Fine → InRange D) (hc : 0 < K.count cwd)
    (path : Option (List UInt8)) (ht : t ≠ .free) (htf : t ≠ .file) :
    Ends (makeNode cwd t path) s (fun _ s' => ∃ D', Held K o [] [] D' s' ∧ (Fine → (D' = D ∧
      ∀ p, path = some p → ∀ d name, D.parent (K.inum cwd) p = some (d, name) →
        slot (D d).dirents name ≠ none) ∨
      ∃ p n, path = some p ∧ Created K.ninodes D (K.inum cwd) p t n D')) (Strains Safe) := by
  cases path with
  | none =>
    refine (ends_begin_op h).bind fun _ s1 h₁ => ?_
    refine (ends_end_op h₁).bind fun _ s2 h2 => ?_
    exact ⟨D, h2, fun _ => .inl ⟨rfl, nofun⟩⟩
  | some path =>
    refine (ends_begin_op h).bind fun _ s1 h₁ => ?_
    refine (ends_create h₁ hD hrange hc path ht).bind fun r s2 h2 => ?_
    cases r with
    | none =>
      obtain ⟨D2, h2, hF2⟩ := h2
      refine (ends_end_op h2).bind fun _ s3 h3 => ?_
      refine ⟨D2, h3, fun hF => .inl ⟨(hF2 hF).1, fun p hp => ?_⟩⟩
      cases hp
      exact (hF2 hF).2
    | some ip =>
      obtain ⟨D2, n, h2, hF2⟩ := h2
      refine (ends_strains (ends_iunlockput h2)).bind fun _ s3 h3 => ?_
      obtain ⟨D3, h3, hput⟩ := h3
      refine (ends_end_op h3).bind fun _ s4 h4 => ?_
      refine ⟨D3, h4, fun hF => ?_⟩
      have hmade := (hF2 hF).resolve_left fun hfile => htf hfile.1
      obtain rfl := hput.eq_of_quiet h2 mem_cons_self fun _ h0 => by
        rw [hmade.type.2] at h0
        cases h0
      exact .inr ⟨path, n, rfl, hmade⟩

/-! ## `open`, `exec` and `chdir` -/

/-- What `open` does to the disk. -/
theorem ends_openInode (h : Held K o [] [] D s) (hD : Assumed Fine Safe K.Has D)
    (hrange : Fine → InRange D) (hc : 0 < K.count cwd) (path : List UInt8) (omode : UInt32) :
    Ends (openInode cwd path omode) s (fun r s' =>
      match r with
      | none => ∃ D', Held K o [] [] D' s' ∧ (Fine → D' = D)
      | some i => ∃ D' n, Held K o [(i, n)] [i] D' s' ∧
          (Fine → D' = D ∧ (D n).type ≠ .free ∧
              (omode &&& Ftable.Files.O_CREATE = 0 → D.find (K.inum cwd) path = some n) ∨
            omode &&& Ftable.Files.O_CREATE ≠ 0 ∧
            Created K.ninodes D (K.inum cwd) path .file n D')) (Strains Safe) := by
  unfold openInode
  split
  · next hcreate =>
    refine (ends_create (t := .file) h hD hrange hc path nofun).mono (fun r s' h' => ?_)
      fun _ hx => hx
    cases r with
    | none =>
      obtain ⟨D', h', hF⟩ := h'
      exact ⟨D', h', fun hf => (hF hf).1⟩
    | some i =>
      obtain ⟨D', n, h', hF⟩ := h'
      refine ⟨D', n, h', fun hf => (hF hf).imp (fun hsame => ⟨hsame.2.1, hsame.2.2, ?_⟩)
        fun hmade => ?_⟩
      · exact fun h0 => absurd h0 hcreate
      · exact ⟨hcreate, hmade⟩
  · refine (ends_namei h hD hc path).bind fun r s1 h₁ => ?_
    cases r with
    | none => exact h₁
    | some ip =>
      obtain ⟨D1, n, h₁, hF1, hS1⟩ := h₁
      have hD1 := hD.congr fun hF => (hF1 hF).1
      refine (ends_ilock_first h₁ mem_cons_self hS1).bind fun _ s2 h2 => ?_
      obtain ⟨h2, hn⟩ := h2
      rw [ends_get_bind]
      split
      · refine (ends_strains (ends_iunlockput h2)).bind fun _ s3 h3 => ?_
        obtain ⟨D3, h3, hput⟩ := h3
        refine ⟨D3, h3, fun hF => ?_⟩
        rw [hput.eq_of_ready h2 (hD1.quiet hF) mem_cons_self, (hF1 hF).1]
      · refine ⟨D1, n, h2, fun hF => .inl ⟨(hF1 hF).1, ?_, fun _ => (hF1 hF).2⟩⟩
        rw [← (hF1 hF).1]
        exact hn

/-- `exec` changes nothing on the disk. -/
theorem ends_sys_exec (h : Held K o [] [] D s) (hD : Assumed Fine Safe K.Has D)
    (hc : 0 < K.count cwd) (path : Option (List UInt8)) :
    Ends (sys_exec cwd path) s (fun _ s' => ∃ D', Held K o [] [] D' s' ∧ (Fine → D' = D))
      (Fails Safe) := by
  cases path with
  | none => exact ⟨D, h, fun _ => rfl⟩
  | some path =>
    refine (ends_begin_op h).bind fun _ s1 h₁ => ?_
    refine (ends_strained (ends_namei h₁ hD hc path)).bind fun r s2 h2 => ?_
    cases r with
    | none =>
      obtain ⟨D2, h2, hF2⟩ := h2
      exact (ends_end_op h2).mono (fun _ s3 h3 => ⟨D2, h3, hF2⟩) fun _ hx => hx
    | some ip =>
      obtain ⟨D2, n, h2, hF2, hS2⟩ := h2
      have hD2 := hD.congr fun hF => (hF2 hF).1
      refine (ends_ilock_found h2 mem_cons_self hS2).bind fun _ s3 h3 => ?_
      obtain ⟨h3, -, -⟩ := h3
      refine (ends_fails (ends_iunlockput h3)).bind fun _ s4 h4 => ?_
      obtain ⟨D4, h4, hput⟩ := h4
      refine (ends_end_op h4).mono (fun _ s5 h5 => ⟨D4, h5, fun hF => ?_⟩) fun _ hx => hx
      rw [hput.eq_of_ready h3 (hD2.quiet hF) mem_cons_self, (hF2 hF).1]

/-- A reference from outside the call is now one of the call's. -/
def Kept.give (K : Kept) (i : InodeId) : Kept :=
  { K with count := update K.count i (K.count i - 1) }

/-- A reference of the call is now one from outside. -/
def Kept.take (K : Kept) (i : InodeId) (n : Nat) : Kept :=
  { K with count := update K.count i (K.count i + 1), inum := update K.inum i n }

theorem Kept.Has.of_give (h : (K.give i).Has m) : K.Has m := by
  obtain ⟨j, hj, rfl⟩ := h
  refine ⟨j, ?_, rfl⟩
  by_cases hji : j = i
  · subst hji
    simp only [Kept.give, update_self] at hj
    omega
  · simpa [Kept.give, hji] using hj

theorem Kept.Has.give (h : K.Has m) (hm : m ≠ K.inum i) : (K.give i).Has m := by
  obtain ⟨j, hj, rfl⟩ := h
  have hji : j ≠ i := fun h => hm (by rw [h])
  exact ⟨j, by simpa [Kept.give, hji] using hj, rfl⟩

theorem Kept.has_take (hi : 0 < K.count i → K.inum i = n) :
    (K.take i n).Has m ↔ K.Has m ∨ m = n := by
  constructor
  · rintro ⟨j, hj, rfl⟩
    by_cases hji : j = i
    · exact .inr (by simp [Kept.take, hji])
    · exact .inl ⟨j, by simpa [Kept.take, hji] using hj, by simp [Kept.take, hji]⟩
  · rintro (⟨j, hj, rfl⟩ | rfl)
    · by_cases hji : j = i
      · subst hji
        exact ⟨j, by simp [Kept.take], by simp [Kept.take, hi hj]⟩
      · exact ⟨j, by simpa [Kept.take, hji] using hj, by simp [Kept.take, hji]⟩
    · exact ⟨i, by simp [Kept.take], by simp [Kept.take]⟩

/-- A kept reference becomes one that is held. -/
theorem Held.give (h : Held K o H L D s) (hi : 0 < K.count i) :
    Held (K.give i) o ((i, K.inum i) :: H) L D s where
  fits j := by
    have hf := h.fits j
    by_cases hji : j = i
    · subst hji
      exact {
        refs := by simp only [hf.refs, Kept.give, update_self, Refs.to_cons, if_true]; omega
        busy := hf.busy
        locked := fun hl => ⟨by simp, (hf.locked hl).2⟩
        device := hf.device
        named := fun m hm => by
          obtain hm | hm := mem_cons.1 hm
          · rw [(Prod.mk.inj hm).2]
            exact hf.kept hi
          · exact hf.named m hm
        kept := fun _ => hf.kept hi
        loaded := fun _ => hf.loaded hi
        copied := hf.copied }
    · exact {
        refs := by simp [hf.refs, Kept.give, hji]
        busy := hf.busy
        locked := fun hl => by simpa [hji] using hf.locked hl
        device := hf.device
        named := fun m hm => hf.named m (by simpa [hji] using hm)
        kept := fun hk => hf.kept (by simpa [Kept.give, hji] using hk)
        loaded := fun hk => hf.loaded (by simpa [Kept.give, hji] using hk)
        copied := hf.copied }
  unique := h.unique
  nodup := h.nodup
  disk := h.disk
  ops := h.ops
  ninodes := h.ninodes

/-- A held reference is kept. -/
theorem Held.take (h : Held K o ((i, n) :: H) L D s) (hi : i ∈ L → 0 < H.to i)
    (hv : (s.entry i).valid = true ∨ n = ROOTINO) : Held (K.take i n) o H L D s where
  fits j := by
    have hf := h.fits j
    by_cases hji : j = i
    · subst hji
      exact {
        refs := by
          have := hf.refs
          simp only [Refs.to_cons, if_true] at this
          simp only [Kept.take, update_self]
          omega
        busy := hf.busy
        locked := fun hl => ⟨hi hl, (hf.locked hl).2⟩
        device := hf.device
        named := fun m hm => hf.named m (mem_cons_of_mem _ hm)
        kept := fun _ => by simpa [Kept.take] using hf.named n mem_cons_self
        loaded := fun _ => by simpa [Kept.take] using hv
        copied := hf.copied }
    · exact {
        refs := by simpa [Kept.take, hji] using hf.refs
        busy := hf.busy
        locked := fun hl => by simpa [hji] using hf.locked hl
        device := hf.device
        named := fun m hm => hf.named m (mem_cons_of_mem _ hm)
        kept := fun hk => by
          simpa [Kept.take, hji] using hf.kept (by simpa [Kept.take, hji] using hk)
        loaded := fun hk => by
          simpa [Kept.take, hji] using hf.loaded (by simpa [Kept.take, hji] using hk)
        copied := hf.copied }
  unique := h.unique
  nodup := h.nodup
  disk := h.disk
  ops := h.ops
  ninodes := h.ninodes

/-- `iput` of what a file or a process pointed at. -/
theorem ends_iput_kept (h : Held K o [] [] D s) (hi : 0 < K.count i)
    (hroot : Fine → (D ROOTINO).nlink ≠ 0) :
    Ends (iput i) s (fun _ s' => ∃ D', Held (K.give i) o [] [] D' s' ∧
      (Fine → Drop (K.give i).Has D (K.inum i) D')) Full := by
  have hg := h.give hi
  refine (ends_iput hg nofun).mono (fun _ s1 ⟨D', h', hput⟩ => ⟨D', h', fun hF => ?_⟩)
    fun _ hx => hx
  cases hv : (s.entry i).valid with
  | true =>
    rw [hv] at hput
    exact hput.drop hg mem_cons_self rfl
  | false =>
    -- an entry that was never read is that of the root
    have hr : K.inum i = ROOTINO := by
      obtain hv' | hr := (h.fits i).loaded hi
      · rw [hv] at hv'
        cases hv'
      · exact hr
    cases hput with
    | stays => exact .stays (.inr (hr ▸ hroot hF))
    | freed _ _ hl => exact absurd hl (hr ▸ hroot hF)

/-- `chdir` changes nothing on the disk. -/
theorem ends_sys_chdir (h : Held K o [] [] D s) (hD : Assumed Fine Safe K.Has D)
    (hroot : Fine → (D ROOTINO).nlink ≠ 0) (hc : 0 < K.count cwd) (path : Option (List UInt8)) :
    Ends (sys_chdir cwd path) s (fun r s' =>
      match r with
      | none => ∃ D', Held K o [] [] D' s' ∧ (Fine → D' = D)
      | some i => ∃ D' n, Held ((K.take i n).give cwd) o [] [] D' s' ∧
          (0 < K.count i → K.inum i = n) ∧ (Fine → (D n).type ≠ .free ∧
            Drop ((K.take i n).give cwd).Has D (K.inum cwd) D')) (Fails Safe) := by
  cases path with
  | none =>
    refine (ends_begin_op h).bind fun _ s1 h₁ => ?_
    refine (ends_end_op h₁).bind fun _ s2 h2 => ?_
    exact ⟨D, h2, fun _ => rfl⟩
  | some path =>
    refine (ends_begin_op h).bind fun _ s1 h₁ => ?_
    refine (ends_strained (ends_namei h₁ hD hc path)).bind fun r s2 h2 => ?_
    cases r with
    | none =>
      obtain ⟨D2, h2, hF2⟩ := h2
      refine (ends_end_op h2).bind fun _ s3 h3 => ?_
      exact ⟨D2, h3, hF2⟩
    | some ip =>
      obtain ⟨D2, n, h2, hF2, hS2⟩ := h2
      have hD2 := hD.congr fun hF => (hF2 hF).1
      refine (ends_ilock_found h2 mem_cons_self hS2).bind fun _ s3 h3 => ?_
      obtain ⟨h3, -, hn⟩ := h3
      rw [ends_get_bind]
      split
      · refine (ends_fails (ends_iunlockput h3)).bind fun _ s4 h4 => ?_
        obtain ⟨D4, h4, hput⟩ := h4
        refine (ends_end_op h4).bind fun _ s5 h5 => ?_
        refine ⟨D4, h5, fun hF => ?_⟩
        rw [hput.eq_of_ready h3 (hD2.quiet hF) mem_cons_self, (hF2 hF).1]
      refine (ends_fails (ends_iunlock h3)).bind fun _ s4 h4 => ?_
      obtain ⟨h4, -, hvalid⟩ := h4
      have hsame : 0 < K.count ip → K.inum ip = n := fun hk => by
        rw [← (h4.fits ip).kept hk, (h4.fits ip).named n mem_cons_self]
      -- the new directory belongs to the process before the old one is put
      have htaken := h4.take nofun (.inl hvalid)
      have hcount : 0 < (K.take ip n).count cwd := by
        by_cases hip : cwd = ip
        · simp [Kept.take, hip]
        · simpa [Kept.take, hip] using hc
      have hinum : (K.take ip n).inum cwd = K.inum cwd := by
        by_cases hip : cwd = ip
        · subst hip
          simp [Kept.take, hsame hc]
        · simp [Kept.take, hip]
      refine (ends_fails (ends_iput_kept htaken hcount fun hF => (hF2 hF).1 ▸ hroot hF)).bind
        fun _ s5 h5 => ?_
      obtain ⟨D5, h5, hdrop⟩ := h5
      refine (ends_end_op h5).bind fun _ s6 h6 => ?_
      refine ⟨D5, n, h6, hsame, fun hF => ?_⟩
      obtain ⟨rfl, -⟩ := hF2 hF
      exact ⟨hn, hinum ▸ hdrop hF⟩

end Msboss.Inodes
