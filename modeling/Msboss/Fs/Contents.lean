import Msboss.Fs.Consistency
import Msboss.Fs.Buffers
import Msboss.Fs.Dirs

/-!
# What files contain

The bytes of a file are those of its blocks (`State.bytes`). `readi` copies them to memory and
leaves the disk and the cache alone (`leaves_readi_bytes`), since all blocks of a file are there. A
directory is a file of records, and the loops over a directory find the first record that they look
for (`ends_scan`). -/

namespace Msboss.Fs

open Inodes (Name Dirent)

/-! ## Bytes of a file -/

/-- The byte at offset `off` of file `i`. -/
def State.byte (s : State) (i off : Nat) : UInt8 :=
  s.block (s.own s.dinode (filePlace i (off / BSIZE))) (off % BSIZE)

/-- `n` bytes from `off` on. -/
def State.bytes (s : State) (i off n : Nat) : List UInt8 :=
  (List.range n).map fun j => s.byte i (off + j)

section
variable {s : State} {i ip bn off n m : Nat}

@[simp] theorem length_bytes_range (s : State) (i off n : Nat) : (s.bytes i off n).length = n := by
  rw [State.bytes, List.length_map, List.length_range]

theorem bytes_append (s : State) (i off n m : Nat) :
    s.bytes i off (n + m) = s.bytes i off n ++ s.bytes i (off + n) m := by
  simp only [State.bytes, List.range_add, List.map_append, List.map_map, Function.comp_def,
    Nat.add_assoc]

/-- Bytes of one block. -/
theorem bytes_of_block (h : off % BSIZE + n ≤ BSIZE) :
    Bytes.read (s.block (s.own s.dinode (filePlace i (off / BSIZE)))) (off % BSIZE) n =
      s.bytes i off n := by
  refine List.map_congr_left fun j hj => ?_
  have hj := List.mem_range.1 hj
  have hdiv : (off + j) / BSIZE = off / BSIZE := by
    simp only [BSIZE] at *
    omega
  have hmod : (off + j) % BSIZE = off % BSIZE + j := by
    simp only [BSIZE] at *
    omega
  rw [State.byte, hdiv, hmod]

/-! ## Memory -/

theorem storeBytes_append (mem : Nat → UInt8) (a : Nat) (l l' : List UInt8) :
    storeBytes (storeBytes mem a l) (a + l.length) l' = storeBytes mem a (l ++ l') := by
  induction l generalizing mem a with
  | nil => rfl
  | cons b l ih =>
    rw [storeBytes, List.cons_append, storeBytes, ← ih, List.length_cons, Nat.add_assoc,
      Nat.add_comm 1]

/-- What was stored is there. -/
theorem map_storeBytes (mem : Nat → UInt8) (a : Nat) {l : List UInt8} (h : l.length ≤ 2 ^ 32) :
    (addresses a l.length).map (storeBytes mem a l) = l := by
  induction l generalizing mem a with
  | nil => rfl
  | cons b l ih =>
    have hlen : l.length < 2 ^ 32 := h
    have hcons : addresses a (l.length + 1) = a % 2 ^ 32 :: addresses (a + 1) l.length := by
      rw [addresses, List.range_succ_eq_map, List.map_cons, List.map_map]
      refine congrArg (a % 2 ^ 32 :: ·) (List.map_congr_left fun i _ => ?_)
      rw [Function.comp_apply, Nat.add_right_comm]
      rfl
    have hnot : a % 2 ^ 32 ∉ addresses (a + 1) l.length := by
      intro hmem
      obtain ⟨j, hj, heq⟩ := mem_addresses.1 hmem
      omega
    rw [List.length_cons, hcons, List.map_cons, storeBytes, ih _ _ hlen.le,
      storeBytes_of_notMem hnot, Function.update_self]

/-! ## Reading -/

/-- The blocks of a file are there, so `bmap` only looks. -/
theorem leaves_bmap_old (h : s.Sound) (hl : s.Locked ip) (hbn : bn < blocksFor (s.inode ip).size) :
    Leaves (bmap ip bn) s (fun b s' => b = s.own s.dinode (filePlace ip bn) ∧ s' = s)
      fun _ _ => False := by
  obtain ⟨hsame, htype⟩ := h.cached ip hl.lt hl.ref hl.valid
  have hlive : s.Live s.dinode ip := ⟨hl.lt, hsame.type ▸ htype⟩
  rw [hsame.size] at hbn
  have hmax : bn < MAXFILE := hbn.trans_le (h.owned.fits ip hlive)
  have hne := (h.owned.shape ip hlive bn hmax).2 hbn
  unfold bmap
  split
  · next hd =>
    have hown : s.own s.dinode (filePlace ip bn) = (s.inode ip).addrs bn := by
      rw [filePlace_direct hd, own_direct hlive, hsame.addrs bn hd.le]
    rw [leaves_get_bind, if_neg (hown ▸ hne)]
    exact ⟨hown.symm, rfl⟩
  next hd =>
  have hi : bn - NDIRECT < NINDIRECT := by
    simp only [MAXFILE] at hmax
    omega
  rw [filePlace_entry hd hi, own_entry hlive] at hne ⊢
  split at hne
  · exact absurd rfl hne
  next h0 =>
  rw [if_pos hi, if_neg h0]
  have h0' : (s.inode ip).addrs NDIRECT ≠ 0 := by rwa [hsame.addrs NDIRECT le_rfl]
  refine leaves_bind.2 ?_
  unfold indirect
  rw [leaves_get_bind, if_neg h0', leaves_pure, leaves_get_bind,
    hsame.addrs NDIRECT le_rfl, if_neg hne]
  exact ⟨rfl, rfl⟩

/-- The loop of `readi` copies the bytes of the file. -/
theorem leaves_readLoop_bytes (h : s.Sound) (hl : s.Locked ip)
    (hoff : off + n ≤ (s.inode ip).size) (htot : tot ≤ n) (hfuel : n ≤ tot + fuel) :
    Leaves (readLoop ip dst off n fuel tot) s (fun _ s' => ∃ stores, s' = { s with
        mem := storeBytes s.mem (dst + tot) (s.bytes ip (off + tot) (n - tot)), stores })
      fun _ _ => False := by
  induction fuel generalizing s tot with
  | zero =>
    obtain rfl : tot = n := by omega
    rw [Nat.sub_self]
    exact ⟨s.stores, rfl⟩
  | succ fuel ih =>
    unfold readLoop
    split
    swap
    · obtain rfl : tot = n := by omega
      rw [Nat.sub_self]
      exact ⟨s.stores, rfl⟩
    next hlt =>
    generalize hm : min (n - tot) (BSIZE - (off + tot) % BSIZE) = m
    have hbn : (off + tot) / BSIZE < blocksFor (s.inode ip).size := by
      simp only [blocksFor, BSIZE] at *
      omega
    have hpos : 0 < m ∧ tot + m ≤ n ∧ (off + tot) % BSIZE + m ≤ BSIZE := by
      simp only [BSIZE] at *
      omega
    refine (leaves_bmap_old h hl hbn).bind ?_
    rintro b t ⟨rfl, rfl⟩
    rw [leaves_get_bind]
    dsimp only
    rw [bytes_of_block hpos.2.2]
    refine leaves_bind.2 ?_
    have hsound := h.memory (storeBytes t.mem (dst + tot) (t.bytes ip (off + tot) m)) t.loads
      (t.stores ++ addresses (dst + tot) (t.bytes ip (off + tot) m).length)
    refine (ih hsound ⟨hl.lt, hl.ref, hl.valid⟩ hoff hpos.2.1 (by omega)).mono ?_ fun _ _ => id
    rintro _ _ ⟨stores, rfl⟩
    refine ⟨stores, ?_⟩
    have hsplit : n - tot = m + (n - (tot + m)) := by omega
    have happend := storeBytes_append t.mem (dst + tot) (t.bytes ip (off + tot) m)
      (t.bytes ip (off + tot + m) (n - (tot + m)))
    rw [length_bytes_range] at happend
    rw [hsplit, bytes_append, ← happend, Nat.add_assoc dst, Nat.add_assoc off]
    rfl

/-- `readi` copies bytes of the file, as far as it goes. -/
theorem leaves_readi_bytes (h : s.Sound) (hl : s.Locked ip)
    (hdev : (s.inode ip).type ≠ .dev) (hoff : off ≤ (s.inode ip).size) (hn : off + n < 2 ^ 32) :
    Leaves (readi input ip dst off n) s
      (fun r s' => r = int (min n ((s.inode ip).size - off)) ∧ ∃ stores, s' = { s with
        mem := storeBytes s.mem dst (s.bytes ip off (min n ((s.inode ip).size - off))), stores })
      fun _ _ => False := by
  unfold readi
  rw [leaves_get_bind]
  dsimp only
  have hmod : (off + n) % 2 ^ 32 = off + n := Nat.mod_eq_of_lt hn
  rw [if_neg hdev, hmod, if_neg (by omega)]
  have hmin : (if off + n > (s.inode ip).size then (s.inode ip).size - off else n) =
      min n ((s.inode ip).size - off) := by
    split_ifs <;> omega
  rw [hmin]
  generalize hm : min n ((s.inode ip).size - off) = m
  refine (leaves_readLoop_bytes h hl (n := m) (by omega) (Nat.zero_le m) (by omega)).bind ?_
  rintro _ _ ⟨stores, rfl⟩
  exact ⟨rfl, stores, rfl⟩

/-! ## Directories -/

/-- Code of the lower layers ends as it leaves. -/
theorem ends_lower {α : Type} {c : M α} {Q : α → State → Prop}
    (h : Leaves c s Q fun e _ => E (.fs e)) : Ends (lower c) s Q E := by
  unfold Leaves at h
  unfold Ends lower
  cases hc : c s with
  | ok a s' =>
    rw [hc] at h
    exact h
  | error e s' =>
    rw [hc] at h
    exact h

/-- The record `k` of a directory. -/
def State.record (s : State) (d k : Nat) : Dirent := .ofBytes (s.bytes d (16 * k) 16)

/-- A locked inode is as on the disk. -/
theorem State.Sound.size_eq (h : s.Sound) (hl : s.Locked ip) :
    (s.inode ip).size = (s.dinode ip).size :=
  (h.cached ip hl.lt hl.ref hl.valid).1.size

theorem State.Sound.type_eq (h : s.Sound) (hl : s.Locked ip) :
    (s.inode ip).type = (s.dinode ip).type :=
  (h.cached ip hl.lt hl.ref hl.valid).1.type

theorem State.Sound.live (h : s.Sound) (hl : s.Locked ip) : s.Live s.dinode ip :=
  ⟨hl.lt, by
    rw [← h.type_eq hl]
    exact (h.cached ip hl.lt hl.ref hl.valid).2⟩

theorem State.Sound.size_le (h : s.Sound) (hl : s.Live s.dinode ip) :
    (s.dinode ip).size ≤ MAXFILE * BSIZE := by
  have hfits := h.owned.fits ip hl
  unfold blocksFor at hfits
  simp only [BSIZE, MAXFILE, NDIRECT, NINDIRECT] at *
  omega

/-- A record is read, or the last one is cut off. -/
theorem ends_readDirent {dp k : Nat} {panic : Stop} (h : s.Sound) (hl : s.Locked dp)
    (hdev : (s.inode dp).type ≠ .dev) (hk : 16 * k < (s.inode dp).size) :
    Ends (readDirent dp (16 * k) panic) s
      (fun de s' => 16 * k + 16 ≤ (s.inode dp).size ∧ de = s.record dp k ∧
        ∃ mem stores, s' = { s with mem, stores })
      fun e => e = panic ∧ (s.inode dp).size < 16 * k + 16 := by
  have hmax := h.size_le (h.live hl)
  rw [← h.size_eq hl] at hmax
  have hmax : (s.inode dp).size ≤ 71680 := hmax
  unfold readDirent
  refine (ends_lower ((leaves_readi_bytes h hl hdev hk.le (by omega)).mono (fun _ _ => id)
    fun _ _ => False.elim)).bind ?_
  rintro r _ ⟨hr, stores, rfl⟩
  generalize hm : min 16 ((s.inode dp).size - 16 * k) = m at hr
  have hint : int m = (m : Int) := if_pos (by omega)
  rw [hint] at hr
  split
  · next hne => exact ⟨rfl, by omega⟩
  next heq =>
  obtain rfl : m = 16 := by omega
  have hread := map_storeBytes s.mem DE (l := s.bytes dp (16 * k) 16) (by
    rw [length_bytes_range]
    decide)
  rw [length_bytes_range] at hread
  rw [ends_get_bind, ends_pure, hread]
  exact ⟨by omega, rfl, _, stores, rfl⟩

/-- The first record from `k` on that meets `p`. -/
def State.findRecord (s : State) (d : Nat) (p : Dirent → Bool) (k : Nat) : Option Nat :=
  (List.range' k ((s.dinode d).size / 16 - k)).find? fun j => p (s.record d j)

theorem findRecord_of_le (h : (s.dinode d).size / 16 ≤ k) : s.findRecord d p k = none := by
  rw [State.findRecord, Nat.sub_eq_zero_of_le h]
  rfl

theorem findRecord_of_lt (h : k < (s.dinode d).size / 16) :
    s.findRecord d p k = if p (s.record d k) then some k else s.findRecord d p (k + 1) := by
  have hlen : (s.dinode d).size / 16 - k = (s.dinode d).size / 16 - (k + 1) + 1 := by omega
  unfold State.findRecord
  rw [hlen, List.range'_succ, List.find?_cons]
  cases p (s.record d k) <;> rfl

/-- What is found is a record of the directory. -/
theorem findRecord_some (h : s.findRecord d p k = some j) :
    j < (s.dinode d).size / 16 ∧ p (s.record d j) = true := by
  have hmem := List.mem_range'_1.1 (List.mem_of_find?_eq_some h)
  exact ⟨by omega, List.find?_some (p := fun j => p (s.record d j)) h⟩

/-- The loops over a directory find the first record that they look for. -/
theorem ends_scan {panic : Stop} (h : s.Sound) (hl : s.Locked dp) (hdev : (s.inode dp).type ≠ .dev)
    (hfuel : (s.dinode dp).size / 16 + 1 ≤ k + fuel) : Ends (scan dp p panic fuel (16 * k)) s
      (fun r s' => r = (s.findRecord dp p k).map (fun j => (16 * j, s.record dp j)) ∧
        ∃ mem stores, s' = { s with mem, stores })
      fun e => e = panic ∧ ¬ 16 ∣ (s.dinode dp).size := by
  induction fuel generalizing s k with
  | zero =>
    unfold scan
    rw [ends_pure, findRecord_of_le (by omega)]
    exact ⟨rfl, s.mem, s.stores, rfl⟩
  | succ fuel ih =>
    have hsize := h.size_eq hl
    unfold scan
    rw [ends_get_bind]
    split
    swap
    · next hge =>
      rw [ends_pure, findRecord_of_le (by omega)]
      exact ⟨rfl, s.mem, s.stores, rfl⟩
    next hlt =>
    refine ((ends_readDirent h hl hdev hlt).mono (fun _ _ => id) ?_).bind ?_
    · rintro e ⟨rfl, hcut⟩
      refine ⟨rfl, fun hdvd => ?_⟩
      omega
    rintro de _ ⟨hle, rfl, mem, stores, rfl⟩
    rw [findRecord_of_lt (by omega)]
    split
    · next hp => exact ⟨rfl, mem, stores, rfl⟩
    next hp =>
    refine (ih (s := { s with mem, stores }) (k := k + 1) (h.memory mem s.loads stores)
      ⟨hl.lt, hl.ref, hl.valid⟩ hdev (by change (s.dinode dp).size / 16 + 1 ≤ _; omega)).mono ?_
      fun _ => id
    rintro r _ ⟨rfl, mem', stores', rfl⟩
    exact ⟨rfl, mem', stores', rfl⟩

theorem ends_scanAll {panic : Stop} (h : s.Sound)
    (hl : s.Locked dp) (hdev : (s.inode dp).type ≠ .dev) : Ends (scanAll dp p panic (16 * k)) s
      (fun r s' => r = (s.findRecord dp p k).map (fun j => (16 * j, s.record dp j)) ∧
        ∃ mem stores, s' = { s with mem, stores })
      fun e => e = panic ∧ ¬ 16 ∣ (s.dinode dp).size := by
  unfold scanAll
  rw [ends_get_bind, h.size_eq hl]
  exact ends_scan h hl hdev (Nat.le_add_left ..)

end

end Msboss.Fs
