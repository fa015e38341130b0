import Msboss.Vm.Image
import Msboss.Vm.Ownership
import Msboss.Vm.Supply

/-!
# The table of shared regions

`used` counts the entries of `shm_arr` that are in use, their names differ, and `shm_get` always
finds a free entry when `used` says that there is one. This holds in the runs in which frames keep
their owners. It does not survive an `exec` that writes over the kernel: the loader stores the bytes
of a segment at addresses of the kernel when the sum of its address and size wraps.
-/

namespace Msboss.Vm

open Memory

/-- In every run of careful steps from boot `used` is the number of entries in use, their names
differ, and `shm_get` has an entry for every new name. -/
theorem table_listed {s : State} (h : (system.restrict Careful).Reach s) :
    s.mem.used = (Finset.univ.filter fun i => (s.mem.shm_arr i).Named).card ∧
      0 ≤ s.mem.used ∧ s.mem.used ≤ SHM_MAXNUM ∧
      (∀ i j, (s.mem.shm_arr i).Named → (s.mem.shm_arr j).Named →
        strncmp (s.mem.shm_arr i).name (s.mem.shm_arr j).name 16 = true → i = j) ∧
      ∀ P name length junk, s.mem.sys_shm_get P name length junk ≠ .error .wild := by
  have hl := ledger_of_careful h
  have hused := hl.tidy.used
  have hcard := Finset.card_le_univ (Finset.univ.filter fun i => (s.mem.shm_arr i).Named)
  rw [Fintype.card_fin] at hcard
  refine ⟨hused, ?_, ?_, hl.names, fun P name length junk => ?_⟩
  · rw [hused]
    exact Int.natCast_nonneg _
  · rw [hused]
    exact Int.ofNat_le.2 hcard
  · unfold sys_shm_get
    split
    · nofun
    · exact (tame_shm_get hused name junk).ne_wild

/-- The first process creates a region. -/
theorem table_listed_created : ∃ s, (system.restrict Careful).Reach s ∧ (s.mem.shm_arr 0).Named ∧
    s.mem.used = (Finset.univ.filter fun i => (s.mem.shm_arr i).Named).card := by
  obtain ⟨s, hreach, hnamed⟩ := careful_created
  exact ⟨s, hreach, hnamed, (table_listed hreach).1⟩

/-! ## The fault -/

/-- The address of `used`, on the page before `shm_arr` (`kernel.sym`). -/
def USED : Nat := 0x80115360

/-- A program with one segment, of 868 bytes for the page of `used`; the end of the segment wraps to
4096. -/
def kernelElf : List UInt8 :=
  [0x7f, 0x45, 0x4c, 0x46] ++ List.replicate 24 0 ++ [52, 0, 0, 0] ++ List.replicate 12
    0 ++ [1, 0] ++
    List.replicate 6 0 ++
    ([1, 84, USED / PGSIZE * PGSIZE, 0, 868, 2 ^ 32 - USED / PGSIZE * PGSIZE + PGSIZE, 0, 0] :
      List Nat).flatMap (Bytes.leBytes 4) ++
    List.replicate 864 0 ++ [7, 0, 0, 0]

section
variable {m : Memory} {P : Proc}

/-- Bytes for an address of the kernel are written there. -/
theorem loadLoop_kernel (hva : KERNBASE ≤ (addr + i) % 2 ^ 32)
    (he : d.pte ((addr + i) % 2 ^ 32) = some e)
    (hread : readi file ((offset + i) % 2 ^ 32) (min (sz - i) PGSIZE) = some bytes)
    (hne : bytes ≠ []) : loadLoop d addr file offset sz (n + 1) m i = .error .wild := by
  simp only [loadLoop, he, hread]
  exact if_pos ⟨hva, hne⟩

/-- `exec` of the program writes into the kernel. -/
theorem exec_kernelElf (hlen : 1028 ≤ m.freelist.length) :
    m.exec P (some kernelElf) [] = .error .wild := by
  have htables : KTABLES = 64 := rfl
  obtain ⟨m1, d, hk, hl, h512⟩ := setupkvm_room (m := m) (by omega)
  have hpde := (setupkvm_length hk).2
  obtain ⟨f, fs, hf⟩ := List.exists_cons_of_length_pos (l := m1.freelist) (by omega)
  rw [hf, List.length_cons] at hl
  obtain ⟨g, gs, hg⟩ := List.exists_cons_of_length_pos (l := fs) (by omega)
  rw [hg] at hf
  have hk1 : m1.kalloc = (some f, { m1 with freelist := g :: gs }) := by
    simp only [kalloc, hf]
  obtain ⟨d1, hmap, -⟩ := mappages_first
    (m := fill { m1 with freelist := g :: gs } f 0) true true (f * PGSIZE)
    (h512 0 (by decide)) rfl
  obtain ⟨m2, halloc⟩ : ∃ m2, m1.allocuvm d 0 PGSIZE = .ok (PGSIZE, m2, d1) := by
    unfold allocuvm
    rw [if_neg (by decide), if_neg (by decide)]
    change ∃ m2, allocLoop 0 PGSIZE 1 m1 d 0 = _
    simp only [allocLoop, hk1]
    exact ⟨_, bind_eq_ok.2 ⟨_, hmap, rfl⟩⟩
  have hphdr : ((kernelElf.drop 52).take 32).length = 32 ∧
    ProgHdr.read ((kernelElf.drop 52).take 32) =
      ⟨1, 84, USED / PGSIZE * PGSIZE, 868, 2 ^ 32 - USED / PGSIZE * PGSIZE + PGSIZE⟩ := by
        decide +kernel
  have haddr : USED / PGSIZE * PGSIZE % PGSIZE = 0 ∧ KERNBASE ≤ USED / PGSIZE * PGSIZE ∧
      USED / PGSIZE * PGSIZE < 2 ^ 32 ∧ PDX (USED / PGSIZE * PGSIZE) ∈ kernelTables := by decide
  generalize USED / PGSIZE * PGSIZE = addr at hphdr haddr
  obtain ⟨halign, hkern, hlt, htable⟩ := haddr
  have hsome : (d1.pte addr).isSome = true := by
    refine ((mappages_tables (by decide) (by decide) hmap).2 _).2 (.inl ?_)
    rw [PageDir.pte, Option.isSome_map]
    exact (hpde _).2 htable
  obtain ⟨e, he⟩ := Option.isSome_iff_exists.1 hsome
  have hload : m2.loaduvm d1 addr kernelElf 84 868 = .error .wild := by
    have hread : readi kernelElf 84 868 = some ((kernelElf.drop 84).take 868) :=
      if_neg (by decide +kernel)
    have hne : (kernelElf.drop 84).take 868 ≠ [] := by decide +kernel
    have hva : (addr + 0) % 2 ^ 32 = addr := Nat.mod_eq_of_lt hlt
    unfold loaduvm
    rw [if_neg (not_not.2 halign)]
    exact loadLoop_kernel (n := 0) (by rw [hva]; exact hkern) (by rw [hva]; exact he) hread hne
  have hsegment : execLoad kernelElf 1 m1 d 0 52 = .error .wild := by
    have hread : readi kernelElf 52 32 = some ((kernelElf.drop 52).take 32) :=
      if_neg (by decide +kernel)
    have hend : (addr + (2 ^ 32 - addr + PGSIZE)) % 2 ^ 32 = PGSIZE := by
      have hpage : PGSIZE = 4096 := rfl
      omega
    have hmemsz : ¬ 2 ^ 32 - addr + PGSIZE < 868 := by
      have hpage : PGSIZE = 4096 := rfl
      omega
    simp only [execLoad, hread, hphdr, hend, halloc]
    rw [if_neg (not_not.2 rfl), if_neg (not_not.2 rfl), if_neg hmemsz]
    simp only [bind, Except.bind, hload]
    exact if_neg (by decide)
  have hhdr : ((readi kernelElf 0 52).getD []).length = 52 ∧
      field ((readi kernelElf 0 52).getD []) 0 4 = 0x464C457F ∧
      field ((readi kernelElf 0 52).getD []) 44 2 = 1 ∧
      field ((readi kernelElf 0 52).getD []) 28 4 = 52 := by decide +kernel
  unfold exec
  dsimp only
  generalize (readi kernelElf 0 52).getD [] = hdr at hhdr ⊢
  obtain ⟨hlength, hmagic, hnum, hoff⟩ := hhdr
  have himage : execImage P.pgdir m1 d kernelElf hdr [] = .error .wild := by
    unfold execImage
    rw [hnum, hoff, hsegment]
    rfl
  rw [if_neg (by omega), hk]
  change (execImage P.pgdir m1 d kernelElf hdr [] >>= _) = _
  rw [himage]
  rfl

end

/-- A program that is loaded over the kernel changes `used`. -/
theorem table_overwritten : ∃ s, system.Reach s ∧
    s.mem.used ≠ (Finset.univ.filter fun i => (s.mem.shm_arr i).Named).card := by
  obtain ⟨kp, m, ks, d, hb, hshm, -, hoom, -, -, hlen, -⟩ := exists_booted
  have hwild : (solo kp m (initproc ks d)).outcome (.exec 0 (some kernelElf) []) =
      some (.error .wild) := by
    rw [solo_outcome rfl hoom rfl]
    change some (m.exec (initproc ks d) (some kernelElf) [] >>= _) = _
    rw [exec_kernelElf hlen]
    rfl
  have hreach : system.Reach (solo kp { m with used := 7 } (initproc ks d)) :=
    .step (.init hb) (.wild hwild)
  refine ⟨_, hreach, ?_⟩
  change (7 : Int) ≠ (Finset.univ.filter fun i => (m.shm_arr i).Named).card
  rw [hshm]
  decide +kernel

end Msboss.Vm
