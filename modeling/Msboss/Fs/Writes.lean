import Msboss.Fs.Contents

/-!
# What is written is read back

`writei` replaces a range of the bytes of a file, and lets the file grow where the range ends behind
it; all other bytes, of this file and of all others, are as before (`contents_kept`). Within the
loop the blocks of the file are those of the cached inode (`State.byteAt`). The new blocks have to
be there: `State.needs` counts them.
-/

namespace Msboss.Fs

/-! ## Blocks -/

/-- The byte at offset `o` of file `i`, while `ip` is written. -/
def State.byteAt (s : State) (ip i o : Nat) : UInt8 :=
  s.block (s.own (s.view ip) (filePlace i (o / BSIZE))) (o % BSIZE)

/-- The blocks that are to be allocated for a file with `K` blocks to have `L` of them. -/
def State.needs (s : State) (ip K L : Nat) : Nat :=
  (L - K) + if NDIRECT < L ∧ (s.inode ip).addrs NDIRECT = 0 then 1 else 0

section
variable {s s0 t : State} {ip K L z bn b i o off n : Nat}

theorem filePlace_ne_indirect (i k j : Nat) : filePlace i k ≠ .indirect j := by
  unfold filePlace
  split <;> nofun

theorem State.Keeps.byteAt (h : s.Keeps ip t)
    (h0 : s.own (s.view ip) (filePlace i (o / BSIZE)) ≠ 0) : t.byteAt ip i o = s.byteAt ip i o := by
  obtain ⟨hown, hblock⟩ := h _ (filePlace_ne_indirect i _) h0
  rw [State.byteAt, hown, hblock]
  rfl

theorem State.Writing.cost_le (hW : s.Writing ip K z) (hbn : bn ≤ K) (hL : bn < L) :
    s.cost ip K bn ≤ s.needs ip K L := by
  unfold State.cost State.needs
  have hind (h0 : (s.inode ip).addrs NDIRECT = 0) := hW.le_direct h0
  split_ifs <;> omega

/-- A file has the blocks up to its end. -/
theorem State.Writing.needs_eq_zero (hW : s.Writing ip K z) (hL : L ≤ K) : s.needs ip K L = 0 := by
  unfold State.needs
  have hind (h0 : (s.inode ip).addrs NDIRECT = 0) := hW.le_direct h0
  split_ifs <;> omega

/-- The blocks that `bmap` allocates are some of those that are needed. -/
theorem State.Mapped.needs (h : s.Mapped ip K z bn b t) (hW : s.Writing ip K z) (hbn : bn ≤ K)
    (hL : bn < L) : s.cost ip K bn + t.needs ip (max K (bn + 1)) L ≤ s.needs ip K L := by
  unfold State.cost State.needs
  rcases Nat.lt_or_ge bn K with hlt | hge
  · obtain rfl := h.old hlt
    have hind : ¬ (¬ bn < NDIRECT ∧ (t.inode ip).addrs NDIRECT = 0) := fun hno => by
      have := hW.le_direct hno.2
      omega
    rw [if_pos hlt, if_neg hind, Nat.max_eq_left hlt]
    omega
  · obtain rfl : bn = K := by omega
    rw [if_neg (Nat.lt_irrefl bn), Nat.max_eq_right (Nat.le_succ bn)]
    have hd := h.direct
    split_ifs <;> omega

/-- A block of the file is written. -/
theorem State.Writing.own_setData (h : s.Writing ip K z)
    (hown : s.own (s.view ip) (filePlace ip bn) = b) (h0 : b ≠ 0) (data : Block) :
    (s.setBlock b data).own ((s.setBlock b data).view ip) = s.own (s.view ip) := by
  have hL := h.layout
  have hzone := h.holds.owners.zone (x := filePlace ip bn) (by rw [hown]; exact h0)
  rw [hown] at hzone
  have hmeta (c : Nat) (hc : c < s.sb.bmapstart) : (s.setBlock b data).block c = s.block c := by
    have := hL.zone
    exact setBlock_of_ne _ _ (by omega)
  funext y
  refine own_eq rfl rfl (fun hi => ?_) fun hy => ?_
  · rcases eq_or_ne y.inum ip with hip | hne
    · rw [hip, view_self, view_self]
      exact .refl _
    · have hd : (s.setBlock b data).dinode y.inum = s.dinode y.inum :=
        dinode_of_meta hL rfl hmeta hi
      rw [view_of_ne hne, view_of_ne hne, hd]
      exact .refl _
  · refine setBlock_of_ne _ _ fun heq => filePlace_ne_indirect ip bn y.inum ?_
    exact (h.holds.owners.single hy (heq.trans hown.symm)).symm

theorem State.Writing.freeBlocks_setData (h : s.Writing ip K z)
    (hown : s.own (s.view ip) (filePlace ip bn) = b) (h0 : b ≠ 0) (data : Block) :
    (s.setBlock b data).freeBlocks = s.freeBlocks := by
  refine Finset.filter_congr fun c hc => ?_
  have hzone := h.holds.owners.zone (x := filePlace ip bn) (by rw [hown]; exact h0)
  rw [hown] at hzone
  have hmap := h.layout.bitmap c (Finset.mem_range.1 hc)
  rw [taken_setBlock s data (by omega)]

/-! ## The loop of `writei` -/

/-- Of the range from `off` on, `tot` bytes of the memory at `src` have been written into `ip`, a
file of size `z`. -/
structure State.Wrote (s0 : State) (ip src off tot z : Nat) (s : State) : Prop where
  mem : s.mem = s0.mem
  front : s0.SameFront s
  others : ∀ i ≠ ip, ∀ o, s0.own (s0.view ip) (filePlace i (o / BSIZE)) ≠ 0 →
    s.own (s.view ip) (filePlace i (o / BSIZE)) ≠ 0 ∧ s.byteAt ip i o = s0.byteAt ip i o
  old : ∀ o < z, o < off ∨ off + tot ≤ o → s.byteAt ip ip o = s0.byteAt ip ip o
  new : ∀ j < tot, s.byteAt ip ip (off + j) = s0.mem ((src + j) % 2 ^ 32)

/-- The bytes after a block of the file was written. -/
theorem State.Writing.byteAt_setData (h : s.Writing ip K z)
    (hown : s.own (s.view ip) (filePlace ip bn) = b) (h0 : b ≠ 0) (data : Block)
    (hi : s.own (s.view ip) (filePlace i (o / BSIZE)) ≠ 0) : (s.setBlock b data).byteAt ip i o =
      if filePlace i (o / BSIZE) = filePlace ip bn then data (o % BSIZE) else s.byteAt ip i o := by
  rw [State.byteAt, h.own_setData hown h0]
  split
  · next heq => rw [heq, hown, setBlock_self]
  · next hne =>
    rw [setBlock_of_ne _ _ fun heq => hne (h.holds.owners.single hi (heq.trans hown.symm))]
    rfl

/-- A block is written. -/
theorem State.Wrote.step {loads : List Nat} (hw : s0.Wrote ip src off tot z s)
    (hW : s.Writing ip K z) (hK : K = max (blocksFor z) (blocksFor (off + tot)))
    (hm : (off + tot) % BSIZE + m ≤ BSIZE) (hmax : (off + tot) / BSIZE < MAXFILE)
    (ht : s.Mapped ip K z ((off + tot) / BSIZE) b t) (hmem : t.mem = s.mem) :
    s0.Wrote ip src off (tot + m) z ({ t with loads }.setBlock b
      (Bytes.write (t.block b) ((off + tot) % BSIZE) ((addresses (src + tot) m).map t.mem))) := by
  have hlen : ((addresses (src + tot) m).map t.mem).length = m := by simp [addresses]
  have hwrite (r : Nat) : Bytes.write (t.block b) ((off + tot) % BSIZE)
      ((addresses (src + tot) m).map t.mem) r =
        if (off + tot) % BSIZE ≤ r ∧ r < (off + tot) % BSIZE + m then
          s0.mem ((src + tot + (r - (off + tot) % BSIZE)) % 2 ^ 32) else t.block b r := by
    rw [Bytes.write, hlen]
    split
    · next hr =>
      have hlt : r - (off + tot) % BSIZE < m := by omega
      rw [List.getD_eq_getElem _ _ (by rw [hlen]; exact hlt)]
      simp only [addresses, List.map_map, List.getElem_map, List.getElem_range, Function.comp_apply]
      rw [hmem, hw.mem]
    · rfl
  generalize Bytes.write (t.block b) ((off + tot) % BSIZE)
    ((addresses (src + tot) m).map t.mem) = data
    at hwrite ⊢
  have hWt : { t with loads }.Writing ip (max K ((off + tot) / BSIZE + 1)) z :=
    ht.writing.memory _ _ _
  -- a byte that was there before
  have hbyte {i o : Nat} (h0 : s.own (s.view ip) (filePlace i (o / BSIZE)) ≠ 0) :
      ({ t with loads }.setBlock b data).byteAt ip i o =
        if filePlace i (o / BSIZE) = filePlace ip ((off + tot) / BSIZE) then data (o % BSIZE)
        else s.byteAt ip i o := by
    have hown : t.own (t.view ip) (filePlace i (o / BSIZE)) ≠ 0 := by
      rwa [(ht.keeps _ (filePlace_ne_indirect i _) h0).1]
    rw [hWt.byteAt_setData ht.own ht.ne data hown]
    exact if_congr Iff.rfl rfl (ht.keeps.byteAt h0)
  have hpast {o : Nat} (hz : o < z ∨ o < off + tot) : o / BSIZE < MAXFILE ∧
      s.own (s.view ip) (filePlace ip (o / BSIZE)) ≠ 0 := by
    have hlt : o / BSIZE < K := by
      rw [hK]
      simp only [blocksFor, BSIZE]
      omega
    have hmax := hlt.trans_le hW.le
    exact ⟨hmax, (hW.shape hmax).2 hlt⟩
  -- it keeps its value outside of the range
  have hout {o : Nat} (hz : o < z ∨ o < off + tot) (ho : o < off + tot ∨ off + (tot + m) ≤ o) :
      ({ t with loads }.setBlock b data).byteAt ip ip o = s.byteAt ip ip o := by
    obtain ⟨hlt, h0⟩ := hpast hz
    rw [hbyte h0]
    split
    · next heq =>
      have hbn := (filePlace_inj hlt hmax heq).2
      have hr : ¬ ((off + tot) % BSIZE ≤ o % BSIZE ∧ o % BSIZE < (off + tot) % BSIZE + m) := by
        simp only [BSIZE] at *
        omega
      rw [hwrite, if_neg hr, ← ht.keeps.byteAt h0, State.byteAt, heq, ht.own]
    · rfl
  have hfront : t.SameFront ({ t with loads }.setBlock b data) := by
    refine ⟨rfl, fun c hc => setBlock_of_ne _ _ ?_⟩
    have hown : t.own (t.view ip) (filePlace ip ((off + tot) / BSIZE)) ≠ 0 := ht.own.trans_ne ht.ne
    have hzone := ht.writing.holds.owners.zone hown
    have hmap := ht.writing.layout.zone
    rw [ht.own] at hzone
    omega
  refine ⟨hmem.trans hw.mem, (hw.front.trans ht.front).trans hfront,
    fun i hi o h0 => ?_, fun o hz ho => ?_, fun j hj => ?_⟩
  · obtain ⟨hs, heq⟩ := hw.others i hi o h0
    have hne : filePlace i (o / BSIZE) ≠ filePlace ip ((off + tot) / BSIZE) := fun hp => hi (by
      rw [← filePlace_inum i (o / BSIZE), hp, filePlace_inum])
    refine ⟨?_, by rw [hbyte hs, if_neg hne, heq]⟩
    rw [hWt.own_setData ht.own ht.ne]
    exact (ht.keeps _ (filePlace_ne_indirect i _) hs).1.trans_ne hs
  · rw [hout (.inl hz) (by omega), hw.old o hz (by omega)]
  · rcases Nat.lt_or_ge j tot with hlt | hge
    · rw [hout (.inr (by omega)) (.inl (by omega)), hw.new j hlt]
    -- and has a new one in it
    have hdiv : (off + j) / BSIZE = (off + tot) / BSIZE := by
      simp only [BSIZE] at *
      omega
    have hmod : (off + j) % BSIZE = (off + tot) % BSIZE + (j - tot) := by
      simp only [BSIZE] at *
      omega
    have hown : t.own (t.view ip) (filePlace ip ((off + j) / BSIZE)) ≠ 0 := by
      rw [hdiv, ht.own]
      exact ht.ne
    rw [hWt.byteAt_setData ht.own ht.ne data hown, if_pos (by rw [hdiv]), hwrite,
      if_pos (by omega)]
    congr 2
    omega

/-- The loop of `writei` writes all of the range, if there are blocks enough. -/
theorem leaves_writeLoop_bytes (hw : s0.Wrote ip src off tot z s)
    (hW : s.Writing ip K z) (hK : K = max (blocksFor z) (blocksFor (off + tot)))
    (hmax : off + n ≤ MAXFILE * BSIZE) (htot : tot ≤ n) (hfuel : n ≤ tot + fuel) :
    Leaves (writeLoop ip src off n fuel tot) s (fun _ s' => s0.Wrote ip src off n z s')
      fun e _ => e = .balloc ∧ s.freeBlocks.card < s.needs ip K (blocksFor (off + n)) := by
  induction fuel generalizing s tot K with
  | zero =>
    obtain rfl : tot = n := by omega
    exact hw
  | succ fuel ih =>
    unfold writeLoop
    split
    swap
    · obtain rfl : tot = n := by omega
      exact hw
    next hlt =>
    generalize hm : min (n - tot) (BSIZE - (off + tot) % BSIZE) = m
    have hbn : (off + tot) / BSIZE ≤ K ∧ (off + tot) / BSIZE < blocksFor (off + n) ∧
        (off + tot) / BSIZE < MAXFILE := by
      rw [hK]
      simp only [blocksFor, BSIZE] at *
      omega
    have hpos : 0 < m ∧ tot + m ≤ n ∧ (off + tot) % BSIZE + m ≤ BSIZE ∧
        max K ((off + tot) / BSIZE + 1) = max (blocksFor z) (blocksFor (off + (tot + m))) := by
      rw [hK]
      simp only [blocksFor, BSIZE] at *
      omega
    have hmem : Stays (bmap ip ((off + tot) / BSIZE)) s (Quiet s) := quiet_bmap (.refl s)
    refine (((leaves_bmap_cost hW hbn.1 hbn.2.2).and hmem).mono (fun _ _ => id) ?_).bind ?_
    · rintro e _ ⟨⟨rfl, hcard⟩, -⟩
      exact ⟨rfl, hcard.trans_le (hW.cost_le hbn.1 hbn.2.1)⟩
    rintro b t ⟨ht, hq⟩
    unfold load
    refine leaves_bind.2 ?_
    rw [leaves_modify_bind, leaves_get_bind, leaves_pure, leaves_get_bind, log_write_eq,
      leaves_modify_bind]
    have hWt : { t with loads := t.loads ++ addresses (src + tot) m }.Writing ip
        (max K ((off + tot) / BSIZE + 1)) z := ht.writing.memory _ _ _
    have hnext := (hWt.setData ht.own ht.ne (Bytes.write (t.block b) ((off + tot) % BSIZE)
      ((addresses (src + tot) m).map t.mem))).1
    refine (ih (hw.step hW hK hpos.2.2.1 hbn.2.2 ht hq.mem)
      hnext hpos.2.2.2 hpos.2.1 (by omega)).mono
      (fun _ _ => id) ?_
    rintro e _ ⟨rfl, hcard⟩
    rw [hWt.freeBlocks_setData ht.own ht.ne] at hcard
    have hneeds := ht.needs hW hbn.1 hbn.2.1
    have hfree := ht.free
    have hcard : t.freeBlocks.card < t.needs ip (max K ((off + tot) / BSIZE + 1))
      (blocksFor (off + n)) :=
      hcard
    exact ⟨rfl, by omega⟩

/-! ## `writei` -/

/-- When the inode is as on the disk, so are its blocks. -/
theorem own_view (h : (s.inode ip).Same (s.dinode ip)) : s.own (s.view ip) = s.own s.dinode := by
  refine own_congr fun i _ => ?_
  rcases eq_or_ne i ip with rfl | hne
  · rw [view_self]
    exact h.toAlike
  · rw [view_of_ne hne]
    exact .refl _

theorem State.Writing.same_flush (h : s.Writing ip K z) (hz : z' < 2 ^ 32)
    (hx : x = { s.inode ip with size := z' }) :
    (((s.withInode ip x).withDinode ip x).dinode ip).Same x := by
  refine withDinode_self (s.withInode ip x) (by rw [hx]; exact hz) fun k hk => ?_
  rw [hx]
  exact h.addr_lt hk

/-- After the inode is written, they are again. -/
theorem State.Writing.own_flush (h : s.Writing ip K z) (hz : z' < 2 ^ 32)
    (hx : x = { s.inode ip with size := z' }) :
    ((s.withInode ip x).withDinode ip x).own ((s.withInode ip x).withDinode ip x).dinode =
      s.own (s.view ip) := by
  have hsame := h.same_flush hz hx
  funext y
  refine own_eq rfl rfl (fun _ => ?_) fun h0 => ?_
  · rcases eq_or_ne y.inum ip with hy | hne
    · rw [hy, view_self]
      exact ⟨hsame.type.trans (by rw [hx]), fun k hk => (hsame.addrs k hk).trans (by rw [hx])⟩
    · rw [withDinode_of_ne _ x hne, view_of_ne hne]
      exact .refl _
  · exact withDinode_data (s := s.withInode ip x) h.layout h.live.1 x (h.holds.owners.zone h0).1

/-- After `writei` has written `n` bytes of the memory at `src` into `ip`, from `off` on. -/
structure State.Written (s : State) (ip src off n : Nat) (s' : State) : Prop where
  sound : s'.Sound
  kin : s.Kin ip s'
  mem : s'.mem = s.mem
  size : (s'.dinode ip).size = max (s.dinode ip).size (off + n)
  new : ∀ j < n, s'.byte ip (off + j) = s.mem ((src + j) % 2 ^ 32)
  old : ∀ o < (s.dinode ip).size, o < off ∨ off + n ≤ o → s'.byte ip o = s.byte ip o
  dinode : ∀ i < s.sb.ninodes, i ≠ ip → s'.dinode i = s.dinode i
  others : ∀ i ≠ ip, s.Live s.dinode i → ∀ o < (s.dinode i).size, s'.byte i o = s.byte i o

/-- The bytes are on the disk once the inode is. -/
theorem State.Wrote.written (h : s.Sound) (hl : s.Locked ip)
    (hw : s.Wrote ip src off n (s.inode ip).size t) (hW : t.Writing ip K (s.inode ip).size)
    (hK : blocksFor (off + n) ≤ K) (hown : s'.own s'.dinode = t.own (t.view ip))
    (hdata : ∀ c ≥ t.sb.datastart, s'.block c = t.block c)
    (hdinode : ∀ i ≠ ip, s'.dinode i = t.dinode i) (hs' : s'.Sound) (hkin : s.Kin ip s')
    (hmem : s'.mem = t.mem) (hsize : (s'.dinode ip).size = max (s.dinode ip).size (off + n)) :
    s.Written ip src off n s' := by
  have hview := own_view (h.cached ip hl.lt hl.ref hl.valid).1
  have hbyte {i o : Nat} (h0 : t.own (t.view ip) (filePlace i (o / BSIZE)) ≠ 0) :
      s'.byte i o = t.byteAt ip i o := by
    rw [State.byte, hown, hdata _ (hW.holds.owners.zone h0).1]
    rfl
  have hself {o : Nat} (ho : o < (s.inode ip).size ∨ o < off + n) :
      s'.byte ip o = t.byteAt ip ip o := by
    have hgrown := hW.grown
    have hlt : o / BSIZE < K := by
      simp only [blocksFor, BSIZE] at *
      omega
    exact hbyte ((hW.shape (hlt.trans_le hW.le)).2 hlt)
  have hstart (i o : Nat) : s.byteAt ip i o = s.byte i o := by
    rw [State.byteAt, hview]
    rfl
  refine ⟨hs', hkin, hmem.trans hw.mem, hsize, fun j hj => ?_, fun o ho hout => ?_,
    fun i hi hne => ?_,
    fun i hne hlive o ho => ?_⟩
  · rw [hself (.inr (by omega)), hw.new j hj]
  · rw [← h.size_eq hl] at ho
    rw [hself (.inl ho), hw.old o ho hout, hstart]
  · rw [hdinode i hne]
    exact dinode_of_meta h.layout hw.front.sb hw.front.block hi
  · have hmax := h.size_le hlive
    have h0 : s.own (s.view ip) (filePlace i (o / BSIZE)) ≠ 0 := by
      rw [hview]
      refine (h.owned.shape i hlive _ ?_).2 ?_ <;> simp only [blocksFor, BSIZE, MAXFILE, NDIRECT,
        NINDIRECT] at * <;> omega
    obtain ⟨hne0, heq⟩ := hw.others i hne o h0
    rw [hbyte hne0, heq, hstart]

/-- `writei` writes the bytes, if there are blocks enough. -/
theorem leaves_writei_bytes (h : s.Sound) (hl : s.Locked ip)
    (hdev : (s.inode ip).type ≠ .dev) (hoff : off ≤ (s.inode ip).size)
    (hmax : off + n ≤ MAXFILE * BSIZE) :
    Leaves (writei ip src off n) s (fun r s' => r = n ∧ s.Written ip src off n s')
      fun e _ => e = .balloc ∧
        s.freeBlocks.card < s.needs ip (blocksFor (s.inode ip).size) (blocksFor (off + n)) := by
  have hlt : off + n < 2 ^ 31 := by
    simp only [MAXFILE, NDIRECT, NINDIRECT, BSIZE] at hmax
    omega
  have hint : int n = (n : Int) := if_pos (by omega)
  have hmod : (off + n) % 2 ^ 32 = off + n := Nat.mod_eq_of_lt (by omega)
  have hkin : Stays (writei ip src off n) s (s.Kin ip) := kin_writei .memory
  suffices hwrite : Leaves (writei ip src off n) s
      (fun r s' => r = n ∧ (s.Kin ip s' → s.Written ip src off n s'))
      fun e _ => e = .balloc ∧
        s.freeBlocks.card < s.needs ip (blocksFor (s.inode ip).size) (blocksFor (off + n)) from
    (hwrite.and hkin).mono (fun _ _ h => ⟨h.1.1, h.1.2 h.2⟩) fun _ _ h => h.1
  clear hkin
  unfold writei
  rw [leaves_get_bind]
  dsimp only
  rw [if_neg hdev, hmod, if_neg (by omega), if_neg (by omega)]
  obtain ⟨hsame, -⟩ := h.cached ip hl.lt hl.ref hl.valid
  have hsize := h.size_eq hl
  have hW := h.writing hl
  have h0 : blocksFor (s.inode ip).size =
      max (blocksFor (s.inode ip).size) (blocksFor (off + 0)) := by
    simp only [blocksFor, BSIZE]
    omega
  have hstart : s.Wrote ip src off 0 (s.inode ip).size s :=
    ⟨rfl, .refl s, fun _ _ _ h => ⟨h, rfl⟩, fun _ _ _ => rfl,
      fun _ hj => absurd hj (Nat.not_lt_zero _)⟩
  have hloop := (leaves_writeLoop_bytes hstart hW h0 hmax (Nat.zero_le n) (Nat.le_add_left n 0)).and
    (leaves_writeLoop (h0 ▸ hW) hmax (Nat.zero_le n) (Nat.le_add_left n 0) fun _ => hsame)
  refine (hloop.mono (fun _ _ => id) fun _ _ h => h.1).bind ?_
  rintro _ t ⟨hw, hWt, hsync⟩
  have hK : blocksFor (off + n) ≤ max (blocksFor (s.inode ip).size)
    (blocksFor (off + n)) := by omega
  split
  · next hgrow =>
    have hz : off + n < 2 ^ 32 := by omega
    have hmaxK : max (blocksFor (s.inode ip).size) (blocksFor (off + n)) = blocksFor (off + n) := by
      simp only [blocksFor, BSIZE]
      omega
    refine leaves_setInode (g := fun _ => pure (int n)) ⟨hint, fun hkin => ?_⟩
    refine hw.written h hl hWt hK (hWt.own_flush hz rfl) (fun c hc => ?_) (fun i hne => ?_)
      ((hmaxK ▸ hWt).flush hz rfl) hkin rfl ?_
    · exact withDinode_data (s := t.withInode ip _) hWt.layout hWt.live.1 _ hc
    · exact withDinode_of_ne (t.withInode ip _) _ hne
    · rw [(hWt.same_flush hz rfl).size]
      change off + n = _
      omega
  · next hgrow =>
    have hmaxK : max (blocksFor (s.inode ip).size) (blocksFor (off + n)) =
        blocksFor (s.inode ip).size := by
      simp only [blocksFor, BSIZE]
      omega
    have hsame := hsync (by omega)
    refine ⟨hint, fun hkin => hw.written h hl hWt hK (own_view hsame).symm (fun _ _ => rfl)
      (fun _ _ => rfl)
      ((hmaxK ▸ hWt).sound hsame) hkin rfl ?_⟩
    rw [hWt.disk]
    omega

/-- A write outside of the largest file fails. -/
theorem writei_fails (hdev : (s.inode ip).type ≠ .dev) (hn : n < 2 ^ 32)
    (hfail : (s.inode ip).size < off ∨ 2 ^ 32 ≤ off + n ∨ MAXFILE * BSIZE < off + n) :
    writei ip src off n s = .ok (-1) s := by
  have hmax : MAXFILE * BSIZE = 71680 := rfl
  unfold writei
  change (if (s.inode ip).type = .dev then _ else _ : M Int) s = _
  rw [if_neg hdev]
  by_cases hwrap : off > (s.inode ip).size ∨ (off + n) % 2 ^ 32 < off
  · rw [if_pos hwrap]
    rfl
  · rw [if_neg hwrap, if_pos (by omega)]
    rfl

/-- A write outside of the largest file fails and changes nothing. Any other, with blocks enough,
returns `n` and replaces the bytes of its range. A read gives the bytes of its range, up to the end
of the file. -/
theorem contents_kept {src : Nat} (h : s.Sound) (hl : s.Locked ip) (hdev : (s.inode ip).type ≠ .dev)
    (hn : n < 2 ^ 32) : ((s.inode ip).size < off ∨ 2 ^ 32 ≤ off + n ∨ MAXFILE * BSIZE < off + n →
      writei ip src off n s = .ok (-1) s) ∧ (off ≤ (s.inode ip).size → off + n ≤ MAXFILE * BSIZE →
      s.needs ip (blocksFor (s.inode ip).size) (blocksFor (off + n)) ≤ s.freeBlocks.card →
      ∃ s', writei ip src off n s = .ok n s' ∧ s.Written ip src off n s') ∧
    ∀ input dst off' n' m, off' ≤ (s.inode ip).size → off' + n' < 2 ^ 32 →
      m = min n' ((s.inode ip).size - off') →
      ∃ mem stores, readi input ip dst off' n' s = .ok m { s with mem, stores } ∧
        (addresses dst m).map mem = s.bytes ip off' m := by
  have hsize := h.size_le (h.live hl)
  rw [← h.size_eq hl] at hsize
  have hsize : (s.inode ip).size ≤ 71680 := hsize
  refine ⟨writei_fails hdev hn, fun hle hfit hfree => ?_, fun input dst off' n' m hle hn' hm => ?_⟩
  · have hwrite : Leaves (writei ip src off n) s (fun r s' => r = n ∧ s.Written ip src off n s')
        fun _ _ => False :=
      (leaves_writei_bytes h hl hdev hle hfit).mono (fun _ _ => id) fun _ _ he =>
        absurd he.2 (Nat.not_lt.2 hfree)
    obtain ⟨_, s', hok, rfl, hw⟩ := hwrite.exists_ok
    exact ⟨s', hok, hw⟩
  · obtain ⟨_, _, hok, rfl, stores, rfl⟩ := (leaves_readi_bytes h hl hdev hle hn').exists_ok
    rw [← hm] at hok
    have hint : int m = (m : Int) := if_pos (by omega)
    have hread := map_storeBytes s.mem dst (l := s.bytes ip off' m) (by
      rw [length_bytes_range]
      omega)
    rw [length_bytes_range] at hread
    exact ⟨_, stores, by rw [hok, hint], hread⟩

/-- A file of three bytes grows into a second block. -/
theorem contents_kept_grown : ∃ s s' : State, s.Sound ∧ (s.dinode 1).size = 3 ∧
    writei 1 0 2 600 s = .ok 600 s' ∧ s.Written 1 0 2 600 s' := by
  obtain ⟨s, hreach, hlt, href, hvalid, hdev, hsize, hdisk, hfree⟩ := system.exists_run next
    emptyDisk [.ialloc .file, .writei 1 0 0 3]
    (Q := fun s => 1 < s.sb.ninodes ∧ 0 < s.ref 1 ∧ s.valid 1 = true ∧ (s.inode 1).type ≠ .dev ∧
      (s.inode 1).size = 3 ∧ (s.dinode 1).size = 3 ∧ s.needs 1 (blocksFor (s.inode 1).size)
        (blocksFor (2 + 600)) ≤ s.freeBlocks.card)
    rfl emptyDisk_fresh (by decide +kernel)
  have hs := sound_reach hreach
  have hl : s.Locked 1 := ⟨hlt, href, hvalid⟩
  obtain ⟨s', hok, hw⟩ := (contents_kept hs hl hdev (by decide)).2.1 (by omega) (by decide) hfree
  exact ⟨s, s', hs, hdisk, hok, hw⟩

end

end Msboss.Fs
