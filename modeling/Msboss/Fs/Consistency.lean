import Msboss.Fs.Ownership

/-!
# The calls keep the file system consistent

Every call of `fs.c` that allocates or frees blocks, or changes an inode, keeps what `Ownership`
says of the disk, and `bfree` never finds a block that is free already (`blocks_owned`). `itrunc`
frees all blocks before it writes the inode, so in the middle of it there is a list of what the
places still hold that is not stored anywhere (`Cutting`).
-/

namespace Msboss.Fs

open Function List

/-! ## `readi` and `writei` -/

section
variable {s : State} {ip K z off n : Nat}

/-- What is in memory is no matter. -/
theorem State.Writing.memory (h : s.Writing ip K z) (mem : Nat → UInt8) (loads stores : List Nat) :
    { s with mem, loads, stores }.Writing ip K z :=
  h.frame rfl (fun _ _ => rfl) (fun _ _ => rfl) rfl rfl rfl h.size le_rfl fun _ =>
    h.holds.congr rfl (fun _ => id) rfl (fun _ _ => rfl) fun _ _ => rfl

theorem State.Sound.memory (h : s.Sound) (mem : Nat → UInt8) (loads stores : List Nat) :
    { s with mem, loads, stores }.Sound where
  super := h.super
  layout := h.layout
  owned := State.Holds.congr h.owned rfl (fun _ => id) rfl (fun _ _ => rfl) fun _ _ => rfl
  cached := h.cached

/-- A block of the file is written. -/
theorem State.Writing.setData (h : s.Writing ip K z)
    (hown : s.own (s.view ip) (filePlace ip bn) = b) (h0 : b ≠ 0) (data : Block) :
    (s.setBlock b data).Writing ip K z ∧ (s.setBlock b data).dinode ip = s.dinode ip := by
  have hL := h.layout
  have hplace (i : Nat) : filePlace ip bn ≠ .indirect i := by
    unfold filePlace
    split <;> nofun
  have hzone := h.holds.owners.zone (x := filePlace ip bn) (by rw [hown]; exact h0)
  rw [hown] at hzone
  have hmeta (c : Nat) (hc : c < s.sb.bmapstart) : (s.setBlock b data).block c = s.block c := by
    have := hL.zone
    exact setBlock_of_ne _ _ (by omega)
  have hdinode {i : Nat} (hi : i < s.sb.ninodes) : (s.setBlock b data).dinode i = s.dinode i :=
    dinode_of_meta hL rfl hmeta hi
  have hholds := h.holds.setData hL data (by rw [hown]; exact h0) hplace
  rw [hown] at hholds
  refine ⟨?_, hdinode h.live.1⟩
  refine h.frame rfl hmeta (fun _ _ => rfl) rfl rfl rfl h.size le_rfl fun hlive => ?_
  refine hholds.congr rfl (fun i hi => (hlive i).1 hi) (own_congr fun i hi => ?_) (fun _ _ => rfl)
    fun _ _ => rfl
  rcases eq_or_ne i ip with rfl | hne
  · rw [view_self, view_self]
    exact .refl _
  · rw [view_of_ne hne, view_of_ne hne, hdinode hi]
    exact .refl _

/-- The loop of `readi` reads blocks that are there. -/
theorem leaves_readLoop (h : s.Writing ip K z) (hoff : off + n ≤ z) :
    Leaves (readLoop ip dst off n fuel tot) s
      (fun _ s' => ∃ mem stores, s' = { s with mem, stores }) Harmless := by
  induction fuel generalizing s tot with
  | zero => exact ⟨_, _, rfl⟩
  | succ fuel ih =>
    unfold readLoop
    split
    swap
    · exact ⟨_, _, rfl⟩
    next htot =>
    have hbn : (off + tot) / BSIZE < K := by
      have h1 := h.grown
      simp only [blocksFor, BSIZE] at h1 ⊢
      omega
    refine (leaves_bmap h hbn.le (hbn.trans_le h.le)).bind fun b t ht => ?_
    obtain rfl := ht.2.2.2 hbn
    dsimp only
    rw [leaves_get_bind]
    refine leaves_bind.2 ?_
    refine (ih (h.memory _ t.loads _)).mono ?_ fun _ _ => id
    rintro _ _ ⟨mem, stores, rfl⟩
    exact ⟨mem, stores, rfl⟩

/-- The loop of `writei` adds the blocks that the file needs. -/
theorem leaves_writeLoop (h : s.Writing ip (max (blocksFor z) (blocksFor (off + tot))) z)
    (hmax : off + n ≤ MAXFILE * BSIZE) (htot : tot ≤ n) (hfuel : n ≤ tot + fuel)
    (hsync : off + n ≤ z → (s.inode ip).Same (s.dinode ip)) :
    Leaves (writeLoop ip src off n fuel tot) s
      (fun _ s' => s'.Writing ip (max (blocksFor z) (blocksFor (off + n))) z ∧
        (off + n ≤ z → (s'.inode ip).Same (s'.dinode ip))) Harmless := by
  induction fuel generalizing s tot with
  | zero =>
    obtain rfl : tot = n := by omega
    exact ⟨h, hsync⟩
  | succ fuel ih =>
    unfold writeLoop
    split
    swap
    · obtain rfl : tot = n := by omega
      exact ⟨h, hsync⟩
    next hlt =>
    generalize hm : min (n - tot) (BSIZE - (off + tot) % BSIZE) = m
    have hbn : (off + tot) / BSIZE ≤ max (blocksFor z) (blocksFor (off + tot)) := by
      simp only [blocksFor, BSIZE]
      omega
    have hbn' : (off + tot) / BSIZE < MAXFILE := by
      rw [Nat.div_lt_iff_lt_mul (by decide)]
      omega
    have hgrow : max (max (blocksFor z) (blocksFor (off + tot))) ((off + tot) / BSIZE + 1) =
        max (blocksFor z) (blocksFor (off + (tot + m))) := by
      simp only [blocksFor, BSIZE] at hm ⊢
      omega
    have hpos : 0 < m ∧ tot + m ≤ n := by
      simp only [BSIZE] at hm
      omega
    refine (leaves_bmap h hbn hbn').bind fun b t ht => ?_
    obtain ⟨hW, hown, h0, hsame⟩ := ht
    rw [hgrow] at hW
    have hW' := hW.memory t.mem (t.loads ++ addresses (src + tot) m) t.stores
    have hset := hW'.setData hown h0
      (Bytes.write (t.block b) ((off + tot) % BSIZE) ((addresses (src + tot) m).map t.mem))
    dsimp only
    refine ih hset.1 hpos.2 (by omega) fun hz => ?_
    obtain rfl := hsame (by simp only [blocksFor, BSIZE]; omega)
    exact (congrArg (t.inode ip).Same hset.2).mpr (hsync hz)

/-- The inode is locked and its contents are read. -/
structure State.Locked (s : State) (ip : Nat) : Prop where
  lt : ip < s.sb.ninodes
  ref : 0 < s.ref ip
  valid : s.valid ip = true

/-- Before a call reads or writes a file. -/
theorem State.Sound.writing (h : s.Sound) (hl : s.Locked ip) :
    s.Writing ip (blocksFor (s.inode ip).size) (s.inode ip).size := by
  obtain ⟨hsame, hfree⟩ := h.cached ip hl.lt hl.ref hl.valid
  have hview (i : Nat) : (s.view ip i).Alike (s.dinode i) := by
    rcases eq_or_ne i ip with rfl | hne
    · rw [view_self]
      exact hsame.toAlike
    · rw [view_of_ne hne]
      exact .refl _
  have hlive (i : Nat) : s.Live (s.view ip) i ↔ s.Live s.dinode i := live_congr rfl fun _ => hview i
  refine ⟨h.super, h.layout, ?_, ⟨hl.lt, by rw [view_self]; exact hfree⟩,
    fun i _ => h.cached i, rfl,
    hsame.size.symm, le_rfl⟩
  refine State.Holds.congr h.owned rfl (fun i => (hlive i).1) (own_congr fun i _ => hview i)
    (fun _ _ => rfl) fun i _ => ?_
  rcases eq_or_ne i ip with rfl | hne
  · rw [update_self, hsame.size]
  · rw [update_of_ne hne]

/-- After a call that has left the inode as it was. -/
theorem State.Writing.sound (h : s.Writing ip (blocksFor z) z)
    (hsame : (s.inode ip).Same (s.dinode ip)) : s.Sound := by
  have hview (i : Nat) : (s.dinode i).Alike (s.view ip i) := by
    rcases eq_or_ne i ip with rfl | hne
    · rw [view_self]
      exact hsame.symm.toAlike
    · rw [view_of_ne hne]
      exact .refl _
  refine ⟨h.super, h.layout, ?_, fun i => ?_⟩
  · refine h.holds.congr rfl (fun i => (live_congr rfl fun _ => hview i).1)
      (own_congr fun i _ => hview i) (fun _ _ => rfl) fun i _ => ?_
    rcases eq_or_ne i ip with rfl | hne
    · rw [update_self, h.disk]
    · rw [update_of_ne hne]
  · rcases eq_or_ne i ip with rfl | hne
    · refine fun _ _ _ => ⟨hsame, ?_⟩
      have := h.live.2
      rwa [view_self] at this
    · exact h.cached i hne

end

/-! ## Inodes that are written -/

/-- The state after the inode has been written to its block. -/
def State.withDinode (s : State) (inum : Nat) (x : Inode) : State :=
  s.setBlock (s.sb.IBLOCK inum)
    (Bytes.write (s.block (s.sb.IBLOCK inum)) (inum % IPB * 64) x.bytes)

theorem writeDinode_eq (inum : Nat) (x : Inode) :
    writeDinode inum x = modify fun s => s.withDinode inum x := rfl

theorem iupdate_eq (ip : Nat) : iupdate ip = modify fun s => s.withDinode ip (s.inode ip) := rfl

section
variable {s : State} {ip : Nat} {x : Inode} {ino : Nat → Inode} {K : Nat → Nat}

theorem withDinode_self (s : State) (hs : x.size < 2 ^ 32)
    (ha : ∀ k ≤ NDIRECT, x.addrs k < 2 ^ 32) : ((s.withDinode ip x).dinode ip).Same x := by
  have hblock : (s.withDinode ip x).block (s.sb.IBLOCK ip) =
      Bytes.write (s.block (s.sb.IBLOCK ip)) (ip % IPB * 64) x.bytes := setBlock_self ..
  have := ofBlock_write (s.block (s.sb.IBLOCK ip)) (ip % IPB * 64) hs ha
  rwa [← hblock] at this

theorem withDinode_of_ne (s : State) (x : Inode) (h : i ≠ ip) :
    (s.withDinode ip x).dinode i = s.dinode i := by
  rcases eq_or_ne (s.sb.IBLOCK ip) (s.sb.IBLOCK i) with heq | hne
  · have hblock : (s.withDinode ip x).block (s.sb.IBLOCK i) =
        Bytes.write (s.block (s.sb.IBLOCK i)) (ip % IPB * 64) x.bytes := by
      rw [← heq]
      exact setBlock_self ..
    -- the inodes share a block, at other offsets
    have hoff : i % IPB ≠ ip % IPB := by
      simp only [Superblock.IBLOCK, IPB, BSIZE] at heq ⊢
      omega
    have hapart : i % IPB * 64 + 64 ≤ ip % IPB * 64 ∨ ip % IPB * 64 + 64 ≤ i % IPB * 64 := by omega
    have hother := ofBlock_write_other (s.block (s.sb.IBLOCK i)) x hapart
    rwa [← hblock] at hother
  · exact dinode_setBlock s _ hne

theorem withDinode_block (s : State) (ip : Nat) (x : Inode) (h : c ≠ s.sb.IBLOCK ip) :
    (s.withDinode ip x).block c = s.block c := setBlock_of_ne s _ h

theorem withDinode_taken (hL : s.sb.Layout) (hi : ip < s.sb.ninodes) (x : Inode) (b : Nat) :
    (s.withDinode ip x).taken b = s.taken b := by
  refine taken_setBlock s _ ?_
  have h1 := hL.inodes ip hi
  have h2 := Superblock.Layout.bitmap_ge s.sb b
  omega

theorem withDinode_super (hL : s.sb.Layout) (ip : Nat) (x : Inode) :
    (s.withDinode ip x).block 1 = s.block 1 := by
  refine withDinode_block s ip x ?_
  have h1 := hL.super
  have h2 := Superblock.Layout.inodes_ge s.sb ip
  omega

theorem withDinode_data (hL : s.sb.Layout) (hi : ip < s.sb.ninodes) (x : Inode)
    (hc : s.sb.datastart ≤ c) : (s.withDinode ip x).block c = s.block c := by
  refine withDinode_block s ip x ?_
  have h1 := hL.inodes ip hi
  have h2 := hL.zone
  omega

/-- After the inode is written, the disk is as it was with the inode in mind. -/
theorem sound_withDinode (hsuper : s.sb = .ofBlock (s.block 1)) (hL : s.sb.Layout)
    (hH : s.Holds (update s.dinode ip x) fun i => blocksFor (update s.dinode ip x i).size)
    (hi : ip < s.sb.ninodes) (hs : x.size < 2 ^ 32) (ha : ∀ k ≤ NDIRECT, x.addrs k < 2 ^ 32)
    (hcached : ∀ i ≠ ip, s.Cached i)
    (hself : 0 < s.ref ip → s.valid ip = true → (s.inode ip).Same x ∧ x.type ≠ .free) :
    (s.withDinode ip x).Sound := by
  have hdinode (i : Nat) :
      ((s.withDinode ip x).dinode i).Same (update s.dinode ip x i) := by
    rcases eq_or_ne i ip with rfl | hne
    · rw [update_self]
      exact withDinode_self s hs ha
    · rw [update_of_ne hne, withDinode_of_ne s x hne]
      exact .refl _
  refine ⟨?_, hL, ?_, fun j hlt hr hv => ?_⟩
  · rw [withDinode_super hL]
    exact hsuper
  · refine hH.congr rfl (fun i => (live_congr rfl fun _ => (hdinode i).toAlike).1)
      (funext fun y => own_eq rfl rfl (fun _ => (hdinode _).toAlike) fun h0 => ?_)
      (fun b _ => withDinode_taken hL hi x b) fun i _ => by rw [(hdinode i).size]
    exact withDinode_data hL hi x (hH.owners.zone h0).1
  · rcases eq_or_ne j ip with rfl | hne
    · obtain ⟨hsame, htype⟩ := hself hr hv
      exact ⟨hsame.trans (withDinode_self s hs ha).symm, by
        rw [show (s.withDinode j x).inode j = s.inode j from rfl, hsame.type]
        exact htype⟩
    · rw [withDinode_of_ne s x hne]
      exact hcached j hne hlt hr hv

end

section
variable {s : State} {ip K z off n : Nat}

/-- The state with another cached inode. -/
def State.withInode (s : State) (ip : Nat) (x : Inode) : State :=
  { s with inode := update s.inode ip x }

/-- `setInode` and `iupdate`. -/
theorem leaves_setInode {α : Type} {g : Unit → M α} {Q : α → State → Prop}
    (h : Leaves (g ⟨⟩) ((s.withInode ip (f (s.inode ip))).withDinode ip (f (s.inode ip))) Q E) :
    Leaves (do setInode ip f; iupdate ip; g ⟨⟩) s Q E := by
  have hself : (s.withInode ip (f (s.inode ip))).inode ip = f (s.inode ip) := update_self ..
  unfold setInode
  rw [leaves_modify_bind, iupdate_eq, leaves_modify_bind]
  change Leaves (g ⟨⟩) ((s.withInode ip (f (s.inode ip))).withDinode ip
    ((s.withInode ip (f (s.inode ip))).inode ip)) Q E
  rwa [hself]

theorem sound_write (hsuper : s.sb = .ofBlock (s.block 1)) (hL : s.sb.Layout)
    (hH : s.Holds (update s.dinode ip x) fun i => blocksFor (update s.dinode ip x i).size)
    (hi : ip < s.sb.ninodes) (hs : x.size < 2 ^ 32) (ha : ∀ k ≤ NDIRECT, x.addrs k < 2 ^ 32)
    (hcached : ∀ i ≠ ip, s.Cached i) (htype : x.type ≠ .free) :
    ((s.withInode ip x).withDinode ip x).Sound := by
  have hself : (s.withInode ip x).inode ip = x := update_self ..
  have hne {i : Nat} (h : i ≠ ip) : (s.withInode ip x).inode i = s.inode i :=
    update_of_ne h _ _
  refine sound_withDinode (s := s.withInode ip x) hsuper hL
    (hH.congr rfl (fun _ => id) rfl (fun _ _ => rfl) fun _ _ => rfl) hi hs ha (fun i h => ?_)
    fun _ _ => ⟨by rw [hself]; exact .refl x, htype⟩
  have := hcached i h
  unfold State.Cached at this ⊢
  rw [hne h]
  exact this

/-- The blocks of an inode are words. -/
theorem State.Writing.addr_lt (h : s.Writing ip K z) (hk : k ≤ NDIRECT) :
    (s.inode ip).addrs k < 2 ^ 32 := by
  have hword := h.layout.word
  have hlt {y : Place} (hy : s.own (s.view ip) y = (s.inode ip).addrs k) :
      (s.inode ip).addrs k < 2 ^ 32 := by
    rcases eq_or_ne ((s.inode ip).addrs k) 0 with h0 | h0
    · rw [h0]
      decide
    · have := (h.holds.owners.zone (x := y) (by rw [hy]; exact h0)).2
      omega
  rcases Nat.lt_or_eq_of_le hk with hk | rfl
  · exact hlt (y := .direct ip ⟨k, hk⟩) (by rw [own_direct h.live, view_self])
  · exact hlt (y := .indirect ip) (by rw [own_indirect h.live, view_self])

/-- The end of `writei` on a file that has grown. -/
theorem State.Writing.flush (h : s.Writing ip (blocksFor z') z) (hz : z' < 2 ^ 32)
    (hx : x = { s.inode ip with size := z' }) : ((s.withInode ip x).withDinode ip x).Sound := by
  have hlive := h.live.2
  rw [view_self] at hlive
  refine sound_write h.super h.layout ?_ h.live.1 (by rw [hx]; exact hz)
    (fun k hk => by rw [hx]; exact h.addr_lt hk) h.cached (by rw [hx]; exact hlive)
  have hview (i : Nat) : (update s.dinode ip x i).Alike (s.view ip i) := by
    rcases eq_or_ne i ip with rfl | hne
    · rw [update_self, view_self, hx]
      exact ⟨rfl, fun _ _ => rfl⟩
    · rw [update_of_ne hne, view_of_ne hne]
      exact .refl _
  refine h.holds.congr rfl (fun i => (live_congr rfl fun _ => hview i).1)
    (own_congr fun i _ => hview i) (fun _ _ => rfl) fun i _ => ?_
  rcases eq_or_ne i ip with rfl | hne
  · rw [update_self, update_self, hx]
  · rw [update_of_ne hne, update_of_ne hne]

/-- `writei` keeps the file system. -/
theorem sound_writei {src : Nat} (h : s.Sound) (hl : s.Locked ip) (hoff : off < 2 ^ 32)
    (hn : n < 2 ^ 32) : Leaves (writei ip src off n) s (fun _ s' => s'.Sound) Harmless := by
  unfold writei
  rw [leaves_get_bind]
  dsimp only
  split
  · split
    · exact h.memory s.mem _ s.stores
    · exact h
  split
  · exact h
  next hle =>
  split
  · exact h
  next hmax =>
  have hsize : off ≤ (s.inode ip).size ∧ off + n ≤ MAXFILE * BSIZE := by
    simp only [MAXFILE, NDIRECT, NINDIRECT, BSIZE] at hmax ⊢
    omega
  obtain ⟨hsame, -⟩ := h.cached ip hl.lt hl.ref hl.valid
  have hW := h.writing hl
  have h0 : blocksFor (s.inode ip).size =
      max (blocksFor (s.inode ip).size) (blocksFor (off + 0)) := by
    simp only [blocksFor, BSIZE]
    omega
  rw [h0] at hW
  refine (leaves_writeLoop hW hsize.2 (Nat.zero_le n) (by omega) fun _ => hsame).bind
    fun _ t ht => ?_
  obtain ⟨hW', hsync⟩ := ht
  split
  · next hgrow =>
    have hK : max (blocksFor (s.inode ip).size) (blocksFor (off + n)) = blocksFor (off + n) := by
      simp only [blocksFor, BSIZE]
      omega
    rw [hK] at hW'
    have hz : off + n < 2 ^ 32 := by
      simp only [MAXFILE, NDIRECT, NINDIRECT, BSIZE] at hsize
      omega
    refine leaves_setInode (g := fun _ => pure (int n)) ?_
    exact hW'.flush hz rfl
  · next hgrow =>
    have hK : max (blocksFor (s.inode ip).size) (blocksFor (off + n)) =
        blocksFor (s.inode ip).size := by
      simp only [blocksFor, BSIZE]
      omega
    rw [hK] at hW'
    exact hW'.sound (hsync (by omega))

/-- The console stores in memory only. -/
theorem leaves_consoleLoop :
    Leaves (consoleLoop input n i dst) s (fun _ s' => ∃ mem stores, s' = { s with mem, stores })
      Harmless := by
  induction n generalizing s i dst with
  | zero => exact ⟨_, _, rfl⟩
  | succ n ih =>
    unfold consoleLoop
    split
    · exact ⟨_, _, rfl⟩
    split
    · exact ⟨_, _, rfl⟩
    refine leaves_bind.2 ?_
    split
    · exact ⟨_, _, rfl⟩
    · refine ih.mono ?_ fun _ _ => id
      rintro _ _ ⟨mem, stores, rfl⟩
      exact ⟨mem, stores, rfl⟩

/-- `readi` keeps the file system. -/
theorem sound_readi (h : s.Sound) (hl : s.Locked ip) (hoff : off < 2 ^ 32) (hn : n < 2 ^ 32) :
    Leaves (readi input ip dst off n) s (fun _ s' => s'.Sound) Harmless := by
  unfold readi
  rw [leaves_get_bind]
  dsimp only
  split
  · split
    · refine leaves_consoleLoop.bind ?_
      rintro r _ ⟨mem, stores, rfl⟩
      have := h.memory mem s.loads stores
      split
      · exact this
      · exact this
    · exact h
  split
  · exact h
  next hle =>
  generalize hm :
    (if (off + n) % 2 ^ 32 > (s.inode ip).size then (s.inode ip).size - off else n) = m
  have hsize : off + m ≤ (s.inode ip).size := by
    split at hm
    · omega
    · omega
  refine (leaves_readLoop (h.writing hl) hsize).bind ?_
  rintro _ _ ⟨mem, stores, rfl⟩
  exact h.memory mem s.loads stores

/-! ## The cache -/

/-- What `Sound` depends on if the disk is left alone. -/
theorem State.Sound.of_disk {s' : State} (h : s.Sound) (hsb : s'.sb = s.sb)
    (hblock : s'.block = s.block) (hcached : ∀ i, s'.Cached i) : s'.Sound := by
  have hdinode : s'.dinode = s.dinode := by
    unfold State.dinode
    rw [hsb, hblock]
  refine ⟨by rw [hsb, hblock]; exact h.super, by rw [hsb]; exact h.layout, ?_, hcached⟩
  refine State.Holds.congr h.owned hsb (fun i => ?_) ?_ (fun b _ => ?_) fun i _ => by rw [hdinode]
  · rw [hdinode]
    exact (live_congr hsb fun _ => .refl _).1
  · rw [hdinode]
    exact funext fun y => own_eq rfl hsb (fun _ => .refl _) fun _ => by rw [hblock]
  · unfold State.taken
    rw [hsb, hblock]

theorem sound_iget {inum : Nat} (h : s.Sound) :
    Leaves (iget inum) s (fun _ s' => s'.Sound) Harmless := by
  unfold iget
  rw [leaves_get_bind]
  split
  · next href =>
    refine h.of_disk rfl rfl fun i hlt _ hv => h.cached i hlt ?_ hv
    rcases eq_or_ne i inum with rfl | hne
    · exact href
    · next hr =>
      have hr : 0 < update s.ref inum (s.ref inum + 1) i := hr
      rwa [update_of_ne hne] at hr
  · refine h.of_disk rfl rfl fun i hlt hr hv => ?_
    rcases eq_or_ne i inum with rfl | hne
    · have hv : update s.valid i false i = true := hv
      rw [update_self] at hv
      cases hv
    · have hr : 0 < update s.ref inum 1 i := hr
      have hv : update s.valid inum false i = true := hv
      rw [update_of_ne hne] at hr hv
      exact h.cached i hlt hr hv

theorem State.Sound.lock (h : s.Sound) (hi : ip < s.sb.ninodes) (hlock : s.CanLock ip) :
    (s.lock ip).Sound ∧ (s.lock ip).Locked ip := by
  unfold State.lock
  split
  · next hv => exact ⟨h, hi, hlock.1, hv⟩
  next hv =>
  have htype := hlock.2.resolve_left hv
  refine ⟨h.of_disk rfl rfl fun i hlt hr hv' => ?_, hi, hlock.1, update_self ..⟩
  change (update s.inode ip (s.dinode ip) i).Same (s.dinode i) ∧
    (update s.inode ip (s.dinode ip) i).type ≠ .free
  rcases eq_or_ne i ip with rfl | hne
  · rw [update_self]
    exact ⟨.refl _, htype⟩
  · have hv' : update s.valid ip true i = true := hv'
    rw [update_of_ne hne] at hv' ⊢
    exact h.cached i hlt hr hv'

theorem sound_ilock (h : s.Sound) (hi : ip < s.sb.ninodes) :
    Leaves (ilock ip) s (fun _ s' => s'.Sound ∧ s'.Locked ip) Harmless :=
  leaves_ilock (h.lock hi) fun _ => ⟨nofun, nofun⟩

/-- What is in a locked inode fits into the one on the disk. -/
theorem State.Sound.bounds {x : Inode} (h : s.Sound) (hl : s.Locked ip) (hx : x.Same (s.inode ip)) :
    x.size < 2 ^ 32 ∧ ∀ k ≤ NDIRECT, x.addrs k < 2 ^ 32 := by
  obtain ⟨hsame, -⟩ := h.cached ip hl.lt hl.ref hl.valid
  refine ⟨?_, fun k hk => ?_⟩
  · rw [hx.size, hsame.size]
    exact (Bytes.leNat_lt _).trans_eq (by rw [Bytes.length_read])
  · rw [hx.addrs k hk]
    exact (h.writing hl).addr_lt hk

/-- The fields that have nothing to do with blocks are changed and written. -/
theorem State.Sound.update (h : s.Sound) (hl : s.Locked ip) (hx : x.Same (s.inode ip)) :
    ((s.withInode ip x).withDinode ip x).Sound := by
  obtain ⟨hsame, htype⟩ := h.cached ip hl.lt hl.ref hl.valid
  obtain ⟨hs, ha⟩ := h.bounds hl hx
  have hupdate (i : Nat) : (Function.update s.dinode ip x i).Same (s.dinode i) := by
    rcases eq_or_ne i ip with rfl | hne
    · rw [update_self]
      exact hx.trans hsame
    · rw [update_of_ne hne]
      exact .refl _
  refine sound_write h.super h.layout ?_ hl.lt hs ha (fun i _ => h.cached i) (by rwa [hx.type])
  exact State.Holds.congr h.owned rfl (fun i => (live_congr rfl fun _ => (hupdate i).toAlike).1)
    (own_congr fun i _ => (hupdate i).toAlike) (fun _ _ => rfl) fun i _ => by rw [(hupdate i).size]

theorem sound_update {f : Inode → Inode} (hf : ∀ x, (f x).Same x) (h : s.Sound) (hl : s.Locked ip) :
    Leaves (do setInode ip f; iupdate ip) s (fun _ s' => s'.Sound) Harmless :=
  leaves_setInode (g := pure) (h.update hl (hf _))

theorem blocksFor_zero : blocksFor 0 = 0 := by decide

theorem own_of_no_blocks (h : ∀ k ≤ NDIRECT, (ino y.inum).addrs k = 0) : s.own ino y = 0 := by
  by_cases hl : s.Live ino y.inum
  swap
  · exact own_of_not_live hl
  cases y with
  | direct i k => exact (own_direct hl k).trans (h k k.isLt.le)
  | indirect i => exact (own_indirect hl).trans (h NDIRECT le_rfl)
  | entry i j => exact (own_entry hl j).trans (if_pos (h NDIRECT le_rfl))

/-- An inode that is free has no blocks, and none is lost when it is cleared. -/
theorem sound_ialloc (h : s.Sound) : Leaves (ialloc type) s (fun _ s' => s'.Sound) Harmless := by
  unfold ialloc
  rw [leaves_get_bind]
  split
  swap
  · exact nofun
  next inum hfind =>
  have hlt : inum < s.sb.ninodes := by
    have := mem_range'_1.1 (mem_of_find?_eq_some hfind)
    omega
  have hfree : (s.dinode inum).type = .free := by simpa using find?_some hfind
  rw [writeDinode_eq, leaves_modify_bind]
  refine sound_iget ?_
  have hnot : ¬ s.Live s.dinode inum := fun hl => hl.2 hfree
  have hself : update s.dinode inum (.blank type) inum = .blank type :=
    update_self ..
  have hown : s.own (update s.dinode inum (.blank type)) = s.own s.dinode := by
    funext y
    by_cases hy : y.inum = inum
    · have hdead : ¬ s.Live s.dinode y.inum := by rw [hy]; exact hnot
      rw [own_of_not_live hdead]
      exact own_of_no_blocks (fun k _ => by rw [hy, hself]; rfl)
    · refine own_eq rfl rfl (fun _ => ?_) fun _ => rfl
      rw [update_of_ne hy]
      exact .refl _
  refine sound_withDinode h.super h.layout ?_ hlt (Nat.two_pow_pos 32)
    (fun _ _ => Nat.two_pow_pos 32)
    (fun i _ => h.cached i) fun hr hv => ?_
  · refine State.Holds.of_own h.owned rfl hown (fun _ _ => rfl) fun i hi => ?_
    rcases eq_or_ne i inum with rfl | hne
    · refine .inr ⟨fun k => own_of_not_live (by rw [filePlace_inum]; exact hnot), ?_⟩
      rw [hself]
      exact blocksFor_zero
    · refine .inl ⟨⟨hi.1, ?_⟩, by rw [update_of_ne hne]⟩
      have := hi.2
      rwa [update_of_ne hne] at this
  · obtain ⟨hsame, htype⟩ := h.cached inum hlt hr hv
    exact absurd (hsame.type.trans hfree) htype

end

/-! ## `itrunc` -/

/-- In the middle of `itrunc` on `ip`, when `own` is what the places still hold. The other inodes
are as on the disk. -/
structure State.Cutting (s : State) (ip : Nat) (own : Place → Nat) : Prop where
  super : s.sb = .ofBlock (s.block 1)
  layout : s.sb.Layout
  lt : ip < s.sb.ninodes
  owners : Owners own (fun b => s.taken b = true) s.sb.datastart s.sb.size
  others : ∀ y : Place, y.inum ≠ ip → s.own s.dinode y = own y
  shape : ∀ i ≠ ip, s.Live s.dinode i → ∀ k < MAXFILE,
    own (filePlace i k) ≠ 0 ↔ k < blocksFor (s.dinode i).size
  fits : ∀ i ≠ ip, s.Live s.dinode i → blocksFor (s.dinode i).size ≤ MAXFILE
  cached : ∀ i ≠ ip, s.Cached i

/-- The state after `bfree`. -/
def State.freed (s : State) (b : Nat) : State :=
  s.setBlock (s.sb.BBLOCK b) (Bytes.clearBit (s.block (s.sb.BBLOCK b)) (b % BPB))

section
variable {s : State} {ip : Nat} {own : Place → Nat} {x : Place}

/-- A place of another inode. -/
theorem place_ne (hx : x.inum = ip) (hy : y.inum ≠ ip) : y ≠ x := by
  rintro rfl
  exact hy hx

theorem freed_taken (s : State) (b c : Nat) :
    (s.freed b).taken c = (!decide (c = b) && s.taken c) := by
  rcases eq_or_ne (s.sb.BBLOCK c) (s.sb.BBLOCK b) with heq | hne
  · have hmod : c % BPB = b % BPB ↔ c = b := by
      simp only [Superblock.BBLOCK, BPB, BSIZE] at *
      omega
    have hself : (s.freed b).taken c =
        Bytes.bit (Bytes.clearBit (s.block (s.sb.BBLOCK b)) (b % BPB)) (c % BPB) := by
      rw [← setBlock_self s (s.sb.BBLOCK b) (Bytes.clearBit (s.block (s.sb.BBLOCK b)) (b % BPB))]
      exact congrArg (fun a => Bytes.bit ((s.freed b).block a) (c % BPB)) heq
    rw [hself, Bytes.bit_clearBit, decide_eq_decide.2 hmod, ← heq]
    rfl
  · have hcb : c ≠ b := fun h => hne (by rw [h])
    rw [decide_eq_false hcb, Bool.not_false, Bool.true_and]
    exact taken_setBlock s _ hne.symm

/-- A block that a place of `ip` holds is freed. -/
theorem State.Cutting.freed (h : s.Cutting ip own) (hx : x.inum = ip) (h0 : own x ≠ 0) :
    (s.freed (own x)).Cutting ip (update own x 0) := by
  have hL := h.layout
  have hzone := h.owners.zone h0
  have hge := Superblock.Layout.bitmap_ge s.sb (own x)
  have hlt := hL.bitmap (own x) hzone.2
  have hmeta (c : Nat) (hc : c < s.sb.bmapstart) : (s.freed (own x)).block c = s.block c :=
    setBlock_of_ne s _ (by omega)
  have hdinode {i : Nat} (hi : i < s.sb.ninodes) : (s.freed (own x)).dinode i = s.dinode i :=
    dinode_of_meta hL rfl hmeta hi
  have hlive {i : Nat} (hi : (s.freed (own x)).Live (s.freed (own x)).dinode i) :
      s.Live s.dinode i := ⟨hi.1, by rw [← hdinode hi.1]; exact hi.2⟩
  refine ⟨?_, hL, h.lt, ?_, fun y hy => ?_, fun i hi hl k hk => ?_, fun i hi hl => ?_,
    fun i hi hlt hr hv => ?_⟩
  · have h1 := hL.super
    have h2 := hL.order
    rw [hmeta 1 (by omega)]
    exact h.super
  · refine h.owners.drop h0 fun c hc => ?_
    rw [freed_taken, Bool.and_eq_true, Bool.not_eq_true', decide_eq_false_iff_not, and_comm]
  · rw [update_of_ne (place_ne hx hy), ← h.others y hy]
    refine own_eq rfl rfl (fun hi => by rw [hdinode hi]; exact .refl _) fun hy0 => ?_
    rw [h.others (.indirect y.inum) hy] at hy0 ⊢
    have := (h.owners.zone hy0).1
    exact setBlock_of_ne s _ (by omega)
  · rw [update_of_ne (place_ne hx (by rw [filePlace_inum]; exact hi)), hdinode hl.1]
    exact h.shape i hi (hlive hl) k hk
  · rw [hdinode hl.1]
    exact h.fits i hi (hlive hl)
  · rw [hdinode hlt]
    exact h.cached i hi hlt hr hv

/-- `bfree` of a block that a place holds. -/
theorem leaves_bfree (h : s.Cutting ip own) (hx : own x = b) (h0 : b ≠ 0) (hQ : Q ⟨⟩ (s.freed b)) :
    Leaves (bfree b) s Q E := by
  have hsb : ({ s with sb := .ofBlock (s.block 1) } : State) = s := by rw [← h.super]
  have htaken := h.owners.taken_own (x := x) (by rw [hx]; exact h0)
  rw [hx] at htaken
  unfold bfree readsb
  rw [leaves_modify_bind, leaves_get_bind, hsb]
  dsimp only
  rw [if_pos (show Bytes.bit (s.block (s.sb.BBLOCK b)) (b % BPB) = true from htaken)]
  exact hQ

/-- What is in the cache for `ip` is no matter. -/
theorem State.Cutting.of_cache {s' : State} (h : s.Cutting ip own) (hsb : s'.sb = s.sb)
    (hblock : s'.block = s.block) (hcached : ∀ i ≠ ip, s'.Cached i) : s'.Cutting ip own := by
  have hdinode : s'.dinode = s.dinode := by
    unfold State.dinode
    rw [hsb, hblock]
  have htaken : s'.taken = s.taken := by
    unfold State.taken
    rw [hsb, hblock]
  have hlive {i : Nat} : s'.Live s'.dinode i → s.Live s.dinode i := by
    rw [hdinode]
    exact (live_congr hsb fun _ => .refl _).1
  refine ⟨by rw [hsb, hblock]; exact h.super, by rw [hsb]; exact h.layout, by rw [hsb]; exact h.lt,
    by rw [hsb, htaken]; exact h.owners, fun y hy => ?_, fun i hi hl => ?_,
      fun i hi hl => ?_, hcached⟩
  · rw [← h.others y hy, hdinode]
    exact own_eq rfl hsb (fun _ => .refl _) fun _ => by rw [hblock]
  · rw [hdinode]
    exact h.shape i hi (hlive hl)
  · rw [hdinode]
    exact h.fits i hi (hlive hl)

theorem State.Cutting.withInode (h : s.Cutting ip own) (y : Inode) :
    (s.withInode ip y).Cutting ip own := by
  refine h.of_cache rfl rfl fun i hi hlt hr hv => ?_
  have hin : (s.withInode ip y).inode i = s.inode i := update_of_ne hi _ _
  rw [hin]
  exact h.cached i hi hlt hr hv

theorem State.Cutting.withAddr (h : s.Cutting ip own) (k b : Nat) :
    (s.withAddr ip k b).Cutting ip own := h.withInode _

/-- The inode itself is written. -/
theorem State.Cutting.withDinode (h : s.Cutting ip own) (y : Inode) :
    (s.withDinode ip y).Cutting ip own := by
  have hL := h.layout
  have hlive {i : Nat} (hi : i ≠ ip) (hl : (s.withDinode ip y).Live (s.withDinode ip y).dinode i) :
      s.Live s.dinode i := ⟨hl.1, by rw [← withDinode_of_ne s y hi]; exact hl.2⟩
  refine ⟨?_, hL, h.lt, ?_, fun z hz => ?_, fun i hi hl => ?_, fun i hi hl => ?_,
    fun i hi hlt hr hv => ?_⟩
  · rw [withDinode_super hL]
    exact h.super
  · exact h.owners.congr fun b _ => by rw [withDinode_taken hL h.lt]
  · rw [← h.others z hz]
    refine own_eq rfl rfl (fun _ => by rw [withDinode_of_ne s y hz]; exact .refl _) fun hz0 => ?_
    rw [h.others (.indirect z.inum) hz] at hz0 ⊢
    exact withDinode_data hL h.lt y (h.owners.zone hz0).1
  · rw [withDinode_of_ne s y hi]
    exact h.shape i hi (hlive hi hl)
  · rw [withDinode_of_ne s y hi]
    exact h.fits i hi (hlive hi hl)
  · rw [withDinode_of_ne s y hi]
    exact h.cached i hi hlt hr hv

/-- Before `itrunc`, the places hold what the cached inode says. -/
theorem State.Sound.cutting (h : s.Sound) (hl : s.Locked ip) :
    s.Cutting ip (s.own (s.view ip)) := by
  have hW := h.writing hl
  have hother {y : Place} (hy : y.inum ≠ ip) : s.own s.dinode y = s.own (s.view ip) y :=
    own_eq rfl rfl (fun _ => by rw [view_of_ne hy]; exact .refl _) fun _ => rfl
  have hlive {i : Nat} (hi : i ≠ ip) (hl : s.Live s.dinode i) : s.Live (s.view ip) i :=
    ⟨hl.1, by rw [view_of_ne hi]; exact hl.2⟩
  refine ⟨h.super, h.layout, hl.lt, hW.holds.owners, fun y hy => hother hy, fun i hi hl k hk => ?_,
    fun i hi hl => ?_, fun i _ => h.cached i⟩
  · have := hW.holds.shape i (hlive hi hl) k hk
    rwa [update_of_ne hi] at this
  · have := hW.holds.fits i (hlive hi hl)
    rwa [update_of_ne hi] at this

/-- After the inode has given up everything and is free on the disk. -/
theorem State.Cutting.sound (h : s.Cutting ip own) (hown : ∀ y : Place, y.inum = ip → own y = 0)
    (hfree : (s.dinode ip).type = .free) (hcached : s.Cached ip) : s.Sound := by
  have hnot : ¬ s.Live s.dinode ip := fun hl => hl.2 hfree
  have heq : s.own s.dinode = own := by
    funext y
    by_cases hy : y.inum = ip
    · rw [hown y hy, own_of_not_live (by rw [hy]; exact hnot)]
    · exact h.others y hy
  have hne {i : Nat} (hl : s.Live s.dinode i) : i ≠ ip := by
    rintro rfl
    exact hnot hl
  refine ⟨h.super, h.layout, ⟨?_, fun i hl => ?_, fun i hl => h.fits i (hne hl) hl⟩, fun i => ?_⟩
  · rw [heq]
    exact h.owners
  · rw [heq]
    exact h.shape i (hne hl) hl
  · rcases eq_or_ne i ip with rfl | hi
    · exact hcached
    · exact h.cached i hi

/-- The places after a direct block has been freed and its place cleared. -/
theorem own_freed (h : s.Cutting ip (s.own (s.view ip))) (hl : s.Live (s.view ip) ip)
    {k : Fin NDIRECT} (h0 : (s.inode ip).addrs k ≠ 0) :
    ((s.freed ((s.inode ip).addrs k)).withAddr ip k 0).own
        (((s.freed ((s.inode ip).addrs k)).withAddr ip k 0).view ip) =
      update (s.own (s.view ip)) (.direct ip k) 0 := by
  generalize hs' : (s.freed ((s.inode ip).addrs k)).withAddr ip k 0 = s'
  have hL := h.layout
  have hown : s.own (s.view ip) (.direct ip k) = (s.inode ip).addrs k := by
    rw [own_direct hl, view_self]
  have hzone := h.owners.zone (x := .direct ip k) (by rw [hown]; exact h0)
  rw [hown] at hzone
  have hmap := hL.bitmap _ hzone.2
  have hge := Superblock.Layout.bitmap_ge s.sb ((s.inode ip).addrs k)
  have hblock {c : Nat} (hc : c ≠ s.sb.BBLOCK ((s.inode ip).addrs k)) : s'.block c = s.block c := by
    rw [← hs']
    exact setBlock_of_ne s _ hc
  have hsb : s'.sb = s.sb := by rw [← hs']; rfl
  rw [← own_setDirect hl k 0]
  refine funext fun y => own_eq rfl hsb (fun hy => ?_) fun hy0 => hblock ?_
  · rcases eq_or_ne y.inum ip with heq | hne
    · rw [heq, view_self, update_self, view_self, ← hs', withAddr_self]
      exact .refl _
    · rw [view_of_ne hne, update_of_ne hne, view_of_ne hne,
        dinode_of_meta hL hsb (fun c hc => hblock (by omega)) hy]
      exact .refl _
  · rw [own_setDirect hl k 0] at hy0 ⊢
    have hne : Place.indirect y.inum ≠ .direct ip k := nofun
    rw [update_of_ne hne] at hy0 ⊢
    have := (h.owners.zone hy0).1
    omega

/-- The first loop: the direct blocks are freed, each with its place cleared. -/
theorem leaves_truncDirect {l : List Nat} (hl : ∀ i ∈ l, i < NDIRECT)
    (h : s.Cutting ip (s.own (s.view ip))) (hlive : (s.inode ip).type ≠ .free) :
    Leaves (truncDirect ip l) s (fun _ s' => s'.Cutting ip (s'.own (s'.view ip)) ∧
      (s'.inode ip).type ≠ .free ∧
      ∀ k, (s.inode ip).addrs k = 0 ∨ k ∈ l → (s'.inode ip).addrs k = 0) fun _ _ => False := by
  induction l generalizing s with
  | nil => exact ⟨h, hlive, fun k hk => hk.resolve_right not_mem_nil⟩
  | cons i l ih =>
    unfold truncDirect
    rw [leaves_get_bind]
    dsimp only
    have hi := hl i mem_cons_self
    have hL : s.Live (s.view ip) ip := ⟨h.lt, by rw [view_self]; exact hlive⟩
    have hown : s.own (s.view ip) (.direct ip ⟨i, hi⟩) = (s.inode ip).addrs i := by
      rw [own_direct hL, view_self]
    have hl' : ∀ j ∈ l, j < NDIRECT := fun j hj => hl j (mem_cons_of_mem i hj)
    split
    · next h0 =>
      refine leaves_bind.2 (leaves_bfree h hown h0 ?_)
      rw [setAddr_eq, leaves_modify_bind]
      have hcut := h.freed (x := .direct ip ⟨i, hi⟩) rfl (by rw [hown]; exact h0)
      rw [hown] at hcut
      have hcut' := hcut.withAddr i 0
      have hplaces := own_freed h hL (k := ⟨i, hi⟩) h0
      rw [← hplaces] at hcut'
      refine (ih hl' hcut' ?_).mono (fun _ s' hs' => ?_) fun _ _ => id
      · rw [withAddr_self]
        exact hlive
      · refine ⟨hs'.1, hs'.2.1, fun k hk => hs'.2.2 k ?_⟩
        rw [withAddr_self]
        change update (s.inode ip).addrs i 0 k = 0 ∨ k ∈ l
        rcases eq_or_ne k i with rfl | hne
        · exact .inl (update_self ..)
        · rw [update_of_ne hne]
          exact hk.imp_right fun hk => (mem_cons.1 hk).resolve_left hne
    · next h0 =>
      rw [not_not] at h0
      refine (ih hl' h hlive).mono (fun _ s' hs' => ?_) fun _ _ => id
      refine ⟨hs'.1, hs'.2.1, fun k hk => hs'.2.2 k ?_⟩
      rcases eq_or_ne k i with rfl | hne
      · exact .inl h0
      · exact hk.imp_right fun hk => (mem_cons.1 hk).resolve_left hne

/-- The second loop: the blocks listed in the indirect block are freed. -/
theorem leaves_truncEntries (hl : ∀ j ∈ l, j < NINDIRECT) (hd : l.Nodup) (h : s.Cutting ip own)
    (hword : ∀ j : Fin NINDIRECT, j.val ∈ l → own (.entry ip j) = word bp j) :
    Leaves (truncEntries bp l) s (fun _ s' => s'.inode = s.inode ∧ s'.ref = s.ref ∧
      s'.valid = s.valid ∧ ∃ own', s'.Cutting ip own' ∧ own' (.indirect ip) = own (.indirect ip) ∧
        (∀ y, own y = 0 → own' y = 0) ∧ ∀ j : Fin NINDIRECT, j.val ∈ l → own' (.entry ip j) = 0)
      fun _ _ => False := by
  induction l generalizing s own with
  | nil => exact ⟨rfl, rfl, rfl, own, h, rfl, fun _ => id, fun _ hj => absurd hj not_mem_nil⟩
  | cons i l ih =>
    have hi := hl i mem_cons_self
    have hl' : ∀ j ∈ l, j < NINDIRECT := fun j hj => hl j (mem_cons_of_mem i hj)
    have hown := hword ⟨i, hi⟩ mem_cons_self
    obtain ⟨hnotin, hd'⟩ := nodup_cons.1 hd
    unfold truncEntries
    split
    · next h0 =>
      refine leaves_bind.2 (leaves_bfree h hown h0 ?_)
      have hcut := h.freed (x := .entry ip ⟨i, hi⟩) rfl (by rw [hown]; exact h0)
      rw [hown] at hcut
      refine (ih hl' hd' hcut fun j hj => ?_).mono (fun _ s' hs' => ?_) fun _ _ => id
      · have hne : Place.entry ip j ≠ .entry ip ⟨i, hi⟩ := by
          intro heq
          rw [(Place.entry.inj heq).2] at hj
          exact hnotin hj
        rw [update_of_ne hne]
        exact hword j (mem_cons_of_mem i hj)
      · obtain ⟨h1, h2, h3, own', hcut', hind, hzero, hentry⟩ := hs'
        have hne : Place.indirect ip ≠ .entry ip ⟨i, hi⟩ := nofun
        rw [update_of_ne hne] at hind
        refine ⟨h1, h2, h3, own', hcut', hind, fun y hy => hzero y ?_, fun j hj => ?_⟩
        · rcases eq_or_ne y (.entry ip ⟨i, hi⟩) with rfl | hyne
          · exact update_self ..
          · rw [update_of_ne hyne]
            exact hy
        · rcases mem_cons.1 hj with hji | hj
          · obtain rfl : j = ⟨i, hi⟩ := Fin.ext hji
            exact hzero _ (update_self ..)
          · exact hentry j hj
    · next h0 =>
      rw [not_not] at h0
      refine (ih hl' hd' h fun j hj => hword j (mem_cons_of_mem i hj)).mono
        (fun _ s' hs' => ?_)
        fun _ _ => id
      obtain ⟨h1, h2, h3, own', hcut', hind, hzero, hentry⟩ := hs'
      refine ⟨h1, h2, h3, own', hcut', hind, hzero, fun j hj => ?_⟩
      rcases mem_cons.1 hj with hji | hj
      · obtain rfl : j = ⟨i, hi⟩ := Fin.ext hji
        exact hzero _ (hown.trans h0)
      · exact hentry j hj

/-- The inode has given up its blocks. -/
structure State.Emptied (s : State) (ip : Nat) (own : Place → Nat) :
    Prop extends s.Cutting ip own where
  places : ∀ y : Place, y.inum = ip → own y = 0
  addrs : ∀ k ≤ NDIRECT, (s.inode ip).addrs k = 0

/-- The end of `itrunc`. -/
theorem leaves_truncEnd (h : s.Emptied ip own) :
    Leaves (do setInode ip fun x => { x with size := 0 }; iupdate ip) s
      (fun _ s' => s'.Emptied ip own ∧ (s'.inode ip).size = 0) fun _ _ => False := by
  refine leaves_setInode (g := pure) ?_
  have hself : ((s.withInode ip { s.inode ip with size := 0 }).withDinode ip
      { s.inode ip with size := 0 }).inode ip = { s.inode ip with size := 0 } := update_self ..
  refine ⟨⟨(h.toCutting.withInode _).withDinode _, h.places, fun k hk => ?_⟩, ?_⟩
  · rw [hself]
    exact h.addrs k hk
  · rw [hself]

theorem leaves_itrunc (h : s.Sound) (hl : s.Locked ip) : Leaves (itrunc ip) s
    (fun _ s' => ∃ own, s'.Emptied ip own ∧ (s'.inode ip).size = 0) fun _ _ => False := by
  have htype := (h.cached ip hl.lt hl.ref hl.valid).2
  unfold itrunc
  refine (leaves_truncDirect (fun i hi => mem_range.1 hi) (h.cutting hl) htype).bind
    fun _ t ht => ?_
  obtain ⟨hcut, htype', hzero⟩ := ht
  have hL : t.Live (t.view ip) ip := ⟨hcut.lt, by rw [view_self]; exact htype'⟩
  have haddrs {k : Nat} (hk : k < NDIRECT) : (t.inode ip).addrs k = 0 :=
    hzero k (.inr (mem_range.2 hk))
  have hdirect (k : Fin NDIRECT) : t.own (t.view ip) (.direct ip k) = 0 := by
    rw [own_direct hL, view_self]
    exact haddrs k.isLt
  have hind : t.own (t.view ip) (.indirect ip) = (t.inode ip).addrs NDIRECT := by
    rw [own_indirect hL, view_self]
  rw [leaves_get_bind]
  dsimp only
  split
  · next h0 =>
    refine leaves_bind.2 ?_
    have hwords (j : Fin NINDIRECT) : t.own (t.view ip) (.entry ip j) =
        word (t.block ((t.inode ip).addrs NDIRECT)) j := by
      rw [own_entry hL, view_self, if_neg h0]
    refine (leaves_truncEntries (fun j hj => mem_range.1 hj) nodup_range hcut
      fun j _ => hwords j).mono (fun _ u hu => ?_) fun _ _ => id
    obtain ⟨hinode, -, -, own', hcut', hind', hzero', hentry⟩ := hu
    rw [hind] at hind'
    refine leaves_bind.2 (leaves_bfree hcut' hind' h0 ?_)
    have hfreed := hcut'.freed (x := .indirect ip) rfl (by rw [hind']; exact h0)
    rw [hind'] at hfreed
    rw [setAddr_eq, leaves_modify_bind]
    refine (leaves_truncEnd ⟨hfreed.withAddr _ _, fun y hy => ?_, fun k hk => ?_⟩).mono
      (fun _ s' hs' => ⟨_, hs'⟩)
      fun _ _ => id
    · cases y with
      | direct i k =>
        obtain rfl : i = ip := hy
        have hne : Place.direct i k ≠ .indirect i := nofun
        rw [update_of_ne hne]
        exact hzero' _ (hdirect k)
      | indirect i =>
        obtain rfl : i = ip := hy
        exact update_self ..
      | entry i j =>
        obtain rfl : i = ip := hy
        have hne : Place.entry i j ≠ .indirect i := nofun
        rw [update_of_ne hne]
        exact hentry j (mem_range.2 j.isLt)
    · rw [withAddr_self]
      change update (u.inode ip).addrs NDIRECT 0 k = 0
      rw [hinode]
      rcases Nat.lt_or_eq_of_le hk with hk | rfl
      · rw [update_of_ne hk.ne]
        exact haddrs hk
      · exact update_self ..
  · next h0 =>
    rw [not_not] at h0
    refine (leaves_truncEnd ⟨hcut, fun y hy => ?_, fun k hk => ?_⟩).mono (fun _ s' hs' => ⟨_, hs'⟩)
      fun _ _ => id
    · cases y with
      | direct i k =>
        obtain rfl : i = ip := hy
        exact hdirect k
      | indirect i =>
        obtain rfl : i = ip := hy
        exact hind.trans h0
      | entry i j =>
        obtain rfl : i = ip := hy
        rw [own_entry hL, view_self, if_pos h0]
    · rcases Nat.lt_or_eq_of_le hk with hk | rfl
      · exact haddrs hk
      · exact h0

/-- The state after the end of `iput` on an inode that is freed. -/
def State.dropped (s : State) (ip r : Nat) : State :=
  { s with
    valid := update s.valid ip false
    ref := update s.ref ip r }

/-- `iput` keeps the file system. -/
theorem sound_iput (h : s.Sound) (hi : ip < s.sb.ninodes) :
    Leaves (iput ip) s (fun _ s' => s'.Sound) Harmless := by
  unfold iput
  rw [leaves_get_bind]
  split
  · next hlast =>
    have hl : s.Locked ip := ⟨hi, by rw [hlast.1]; exact Nat.one_pos, hlast.2.1⟩
    refine leaves_bind.2 ((leaves_itrunc h hl).mono (fun _ t ht => ?_) fun _ _ => False.elim)
    obtain ⟨own, hcut, hsize⟩ := ht
    refine leaves_setInode (g := fun _ => do setValid ip false; setRef ip (s.ref ip - 1)) ?_
    generalize hx : ({ t.inode ip with type := .free } : Inode) = x
    have hdinode : ((t.withInode ip x).withDinode ip x).dinode ip |>.Same x := by
      refine withDinode_self _ ?_ fun k hk => ?_
      · rw [← hx, show ({ t.inode ip with type := .free } : Inode).size = 0 from hsize]
        decide
      · rw [← hx, show ({ t.inode ip with type := .free } : Inode).addrs k = 0 from hcut.addrs k hk]
        decide
    have hcut' := (hcut.toCutting.withInode x).withDinode x
    generalize (t.withInode ip x).withDinode ip x = u at hdinode hcut'
    have hcache (i : Nat) (hne : i ≠ ip) : (u.dropped ip (s.ref ip - 1)).Cached i := by
      intro hlt hr hv
      have hr : 0 < update u.ref ip (s.ref ip - 1) i := hr
      have hv : update u.valid ip false i = true := hv
      rw [update_of_ne hne] at hr hv
      exact hcut'.cached i hne hlt hr hv
    have hend : (u.dropped ip (s.ref ip - 1)).Cutting ip own := hcut'.of_cache rfl rfl hcache
    refine hend.sound hcut.places ?_ fun _ _ hv => ?_
    · exact hdinode.type.trans (by rw [← hx])
    · have hv : update u.valid ip false ip = true := hv
      rw [update_self] at hv
      cases hv
  · refine h.of_disk rfl rfl fun i hlt hr hv => ?_
    have hr : 0 < update s.ref ip (s.ref ip - 1) i := hr
    refine h.cached i hlt ?_ hv
    rcases eq_or_ne i ip with rfl | hne
    · rw [update_self] at hr
      omega
    · rwa [update_of_ne hne] at hr

end

/-! ## Runs -/

/-- The calls, each with the `ilock` that comes before it. -/
inductive Act
  | iget (inum : Nat)
  | ialloc (type : FileType)
  | readi (input : Input) (ip dst : Nat) (off n : UInt32)
  | writei (ip src : Nat) (off n : UInt32)
  /-- `iupdate` after the stores of `create`, `sys_link` and `sys_unlink`. -/
  | iupdate (ip : Nat) (major minor nlink : Int)
  | iput (ip : Nat)

/-- The code of a call. -/
def call : Act → M Unit
  | .iget inum => do
    let _ ← iget inum
  | .ialloc type => do
    let _ ← ialloc type
  | .readi input ip dst off n => do
    ilock ip
    let _ ← readi input ip dst off.toNat n.toNat
  | .writei ip src off n => do
    ilock ip
    let _ ← writei ip src off.toNat n.toNat
  | .iupdate ip major minor nlink => do
    ilock ip
    setInode ip fun x => { x with major, minor, nlink }
    iupdate ip
  | .iput ip => iput ip

/-- The inode of a call is one of the disk's, and there is a reference to drop. -/
def State.Enabled (s : State) : Act → Prop
  | .iget inum => inum < s.sb.ninodes
  | .ialloc _ => True
  | .readi _ ip _ _ _ | .writei ip _ _ _ | .iupdate ip _ _ _ => ip < s.sb.ninodes
  | .iput ip => ip < s.sb.ninodes ∧ 0 < s.ref ip

instance (s : State) : (a : Act) → Decidable (s.Enabled a)
  | .iget _ | .readi .. | .writei .. | .iupdate .. => inferInstanceAs (Decidable (_ < _))
  | .ialloc _ => inferInstanceAs (Decidable True)
  | .iput _ => inferInstanceAs (Decidable (_ ∧ _))

/-- The state after a call that returns. -/
def next (s : State) (a : Act) : Option State :=
  if s.Enabled a then
    match call a s with
    | .ok _ s' => some s'
    | .error _ _ => none
  else none

/-- A file system before the first call. -/
structure State.Fresh (s : State) : Prop where
  super : s.sb = .ofBlock (s.block 1)
  layout : s.sb.Layout
  owned : s.Owned
  ref : ∀ i, s.ref i = 0

/-- All sequences of calls that return. -/
def system : System State Act := .ofNext State.Fresh next

section
variable {s : State} {a : Act}

theorem State.Fresh.sound (h : s.Fresh) : s.Sound :=
  ⟨h.super, h.layout, h.owned, fun i _ hr _ => absurd hr (by rw [h.ref i]; exact Nat.lt_irrefl 0)⟩

/-- Every call keeps the file system and never frees a free block. -/
theorem sound_call (h : s.Sound) (ha : s.Enabled a) :
    Leaves (call a) s (fun _ s' => s'.Sound) Harmless := by
  cases a with
  | iget inum => exact (sound_iget h).bind fun _ _ h' => h'
  | ialloc type => exact (sound_ialloc h).bind fun _ _ h' => h'
  | readi input ip dst off n =>
    refine (sound_ilock h ha).bind fun _ t ht => ?_
    exact (sound_readi ht.1 ht.2 off.toNat_lt n.toNat_lt).bind fun _ _ h' => h'
  | writei ip src off n =>
    refine (sound_ilock h ha).bind fun _ t ht => ?_
    exact (sound_writei ht.1 ht.2 off.toNat_lt n.toNat_lt).bind fun _ _ h' => h'
  | iupdate ip major minor nlink =>
    refine (sound_ilock h ha).bind fun _ t ht => ?_
    exact sound_update (fun x => ⟨⟨rfl, fun _ _ => rfl⟩, rfl⟩) ht.1 ht.2
  | iput ip => exact sound_iput h ha.1

theorem sound_reach (h : system.Reach s) : s.Sound := by
  refine h.invariant (I := State.Sound) (fun s hi => State.Fresh.sound hi) fun s a s' hs hst => ?_
  have hst : next s a = some s' := hst
  unfold next at hst
  split at hst
  swap
  · cases hst
  next ha =>
  have hcall := sound_call hs ha
  unfold Leaves at hcall
  split at hst
  · next hm =>
    rw [hm] at hcall
    cases hst
    exact hcall
  · cases hst

/-- After every sequence of calls that return, no block is at two places, the free map has the
metadata and the blocks at a place, every file has the blocks for its size, and no call comes to
`panic("freeing free block")`. -/
theorem blocks_owned (h : system.Reach s) :
    s.Owned ∧ ∀ a, s.Enabled a → ∀ s', call a s ≠ .error .bfree s' := by
  have hs := sound_reach h
  refine ⟨hs.owned, fun a ha s' hm => ?_⟩
  have hcall := sound_call hs ha
  unfold Leaves at hcall
  rw [hm] at hcall
  exact hcall rfl

/-- A disk with one block of inodes, all free, and eight blocks of data. -/
def emptyDisk : State where
  sb := ⟨12, 8, 8, 2, 3⟩
  block
    | 1 => Bytes.write (fun _ => 0) 0
      (([12, 8, 8, 0, 0, 2, 3] : List Nat).flatMap (Bytes.leBytes 4))
    | 3 => Bytes.write (fun _ => 0) 0 [15]
    | _ => fun _ => 0
  inode _ := .blank .free
  ref _ := 0
  valid _ := false
  ops := []
  mem _ := 7
  loads := []
  stores := []

theorem emptyDisk_fresh : emptyDisk.Fresh := by
  have hdinode (i : Nat) (hi : i < 8) : (emptyDisk.dinode i).type = .free := by
    interval_cases i <;> decide
  have hown : emptyDisk.own emptyDisk.dinode = fun _ => 0 :=
    funext fun x => own_of_not_live fun hl => hl.2 (hdinode _ hl.1)
  refine ⟨by decide, ⟨by decide, by decide, by decide, fun i hi => ?_, fun b hb => ?_, by decide⟩,
    ⟨?_, fun i hl => absurd (hdinode i hl.1) hl.2, fun i hl => absurd (hdinode i hl.1) hl.2⟩,
    fun _ => rfl⟩
  · have hi : i < 8 := hi
    interval_cases i <;> decide
  · have hb : b < 12 := hb
    interval_cases b <;> decide
  · rw [hown]
    refine ⟨by decide, fun h => absurd rfl h, fun h => absurd rfl h, fun {b} hb => ?_⟩
    have hb : b < 12 := hb
    have hlo : (b < emptyDisk.sb.datastart ∨ ∃ _ : Place, 0 = b) ↔ b < 4 := by
      refine ⟨fun h => h.elim id ?_, .inl⟩
      rintro ⟨-, rfl⟩
      decide
    rw [hlo]
    interval_cases b <;> decide

/-- A file of three bytes is made. -/
theorem blocks_owned_three : ∃ s, system.Reach s ∧ (s.dinode 1).size = 3 ∧ s.Owned ∧
    ∀ s', call (.iput 1) s ≠ .error .bfree s' := by
  obtain ⟨s, hreach, hs⟩ := system.exists_run next emptyDisk [.ialloc .file, .writei 1 0 0 3]
    (Q := fun s => (s.dinode 1).size = 3 ∧ s.Enabled (.iput 1)) rfl emptyDisk_fresh
    (by decide +kernel)
  obtain ⟨howned, hfree⟩ := blocks_owned hreach
  exact ⟨s, hreach, hs.1, howned, hfree (.iput 1) hs.2⟩

end

end Msboss.Fs
