import Msboss.Vm.Ledger

/-!
# The calls that leave the regions alone

`growproc`, `fork`, `exec`, `exit` and `wait` keep the ledger: each is a `Shift` of the counts. The
lemmas of `Msboss.Vm.Moves` and `Msboss.Vm.Access` say what the functions of `vm.c` under them do
to one directory; here this is added up over the process table.
-/

namespace Msboss.Vm

open Function Memory State

section
variable {s : State} {p : Pid} {P P' : Proc} {m' : Memory}

/-- A call that changes the memory and the process that makes it. -/
theorem shift_set (hP : s.proc p = some P) (hk : P'.kstack = P.kstack)
    (total : ∀ f, ¬ s.mem.Region f → m'.freelist.count f + P'.pgdir.tables f + P'.pgdir.user f ≤
        s.mem.freelist.count f + P.pgdir.tables f + P.pgdir.user f) (keep : ∀ f, s.mem.Region f →
      m'.freelist.count f + P'.pgdir.tables f ≤ s.mem.freelist.count f + P.pgdir.tables f)
    (used : m'.used = s.mem.used) (regions : SameRegions s.mem m')
    (unused : ∀ i, (s.mem.shm_arr i).shmPhys = 0 → m'.shm_arr i = s.mem.shm_arr i)
    (access : ∀ {i : Slot} {f : Frame}, 0 < f → (s.mem.shm_arr i).shmPhys = f * PGSIZE →
      (P'.pgdir.user f : Int) + (s.mem.shm_arr i).numAccess ≤
        P.pgdir.user f + (m'.shm_arr i).numAccess)
    (size : P.sz < KERNBASE → P'.sz < KERNBASE) : Shift s (s.set m' p (some P')) := by
  have hkernel (f : Frame) := s.kernel_set m' p (some P') f
  have hmapped (f : Frame) := s.mapped_set m' p (some P') f
  simp only [slot_of_eq hP, slot_some, Proc.own, hk] at hkernel hmapped
  refine ⟨fun f hf => ?_, fun f hf => ?_, used, regions, unused, fun {i f} hf hi => ?_,
    fun hsz q Q hQ => ?_⟩
  · have h1 := hkernel f
    have h2 := hmapped f
    have h3 := total f hf
    omega
  · have h1 := hkernel f
    have h3 := keep f hf
    omega
  · have h1 := hmapped f
    have h2 := access hf hi
    have h3 : (s.set m' p (some P')).mem = m' := rfl
    rw [h3]
    omega
  · rcases eq_or_ne q p with rfl | hq
    · simp only [State.set, update_self] at hQ
      cases hQ
      exact size (hsz hP)
    · simp only [State.set, update_of_ne hq] at hQ
      exact hsz hQ

/-- A call that changes no more than the memory, and only loses frames. -/
theorem shift_mem (s : State) (total : ∀ f, m'.freelist.count f ≤ s.mem.freelist.count f)
    (used : m'.used = s.mem.used) (regions : SameRegions s.mem m')
    (unused : ∀ i, (s.mem.shm_arr i).shmPhys = 0 → m'.shm_arr i = s.mem.shm_arr i)
    (access : ∀ {i : Slot} {f : Frame}, 0 < f → (s.mem.shm_arr i).shmPhys = f * PGSIZE →
      (s.mem.shm_arr i).numAccess ≤ (m'.shm_arr i).numAccess) : Shift s { s with mem := m' } := by
  have hmapped (f : Frame) : ({ s with mem := m' } : State).mapped f = s.mapped f := rfl
  have hkernel (f : Frame) : ({ s with mem := m' } : State).kernel f ≤ s.kernel f := by
    have := total f
    simp only [kernel]
    omega
  refine ⟨fun f _ => ?_, fun f _ => hkernel f, used, regions, unused, fun {i f} hf hi => ?_,
    fun h => h⟩
  · rw [hmapped]
    exact Nat.add_le_add_right (hkernel f) _
  · rw [hmapped]
    exact Int.add_le_add_left (access hf hi) _

/-- A move in the directory of the process that makes the call. -/
theorem Moves.shift (hl : Ledger s) (hP : s.proc p = some P) (hk : P'.kstack = P.kstack)
    (h : Moves s.mem P.pgdir m' P'.pgdir) (hs : m'.shm_arr = s.mem.shm_arr)
    (size : P.sz < KERNBASE → P'.sz < KERNBASE) : Shift s (s.set m' p (some P')) :=
  shift_set hP hk (fun f _ => h.total f) h.keep h.used h.regions (fun i _ => by rw [hs])
    (fun {i f} hf hi => by
      -- a frame of a region is not on the free list, so it cannot be mapped once more
      have h1 := h.total f
      have h2 := hl.own_of_region ⟨hf, i, hi⟩ hP
      simp only [Proc.own] at h2
      rw [hs]
      omega)
    size

/-! ## `growproc` -/

/-- What `growproc` does. -/
theorem growproc_moves (hsz : P.sz < KERNBASE) (h : m.growproc P n = .ok (b, m', P')) :
    Moves m P.pgdir m' P'.pgdir ∧ m'.shm_arr = m.shm_arr ∧ P'.kstack = P.kstack ∧
      P'.sz < KERNBASE := by
  unfold growproc at h
  simp only at h
  split at h
  · obtain ⟨⟨sz, m1, d1⟩, ha, h⟩ := bind_eq_ok.1 h
    obtain ⟨hM, hs, hlt, -⟩ := allocuvm_moves hsz ha
    rcases sz with - | sz
    · cases h
      exact ⟨hM, hs, rfl, hsz⟩
    · cases h
      exact ⟨hM, hs, rfl, hlt⟩
  · split at h
    · obtain ⟨⟨sz, m1, d1⟩, ha, h⟩ := bind_eq_ok.1 h
      obtain ⟨hM, -, hs, hle⟩ := deallocuvm_moves hsz.le ha
      rcases sz with - | sz
      · cases h
        exact ⟨hM, hs, rfl, hsz⟩
      · cases h
        exact ⟨hM, hs, rfl, hle.trans_lt hsz⟩
    · cases h
      exact ⟨.refl _ _, rfl, rfl, hsz⟩

/-! ## `fork` -/

/-- What a `fork` that succeeds has done. -/
theorem fork_true (h : s.fork p P = .ok (true, s')) :
    ∃ q ks m1 d m2 vir, s.proc q = none ∧ s.mem.kalloc = (some ks, m1) ∧
      m1.copyuvm P.pgdir P.sz = .ok (some d, m2) ∧
      m2.inherit P d (List.finRange SHM_MAXNUM) (fun _ => 0) = .ok vir ∧
      s' = s.set m2 q (some (P.child p ks d vir)) := by
  unfold fork at h
  split at h
  · cases h
  next q hq =>
  have hq : s.proc q = none := by simpa using List.find?_some hq
  split at h
  · cases h
  next ks m1 hk =>
  obtain ⟨⟨r, m2⟩, hc, h⟩ := bind_eq_ok.1 h
  cases r with
  | none =>
    obtain ⟨m3, -, h⟩ := bind_eq_ok.1 h
    cases h
  | some d =>
    obtain ⟨vir, hv, h⟩ := bind_eq_ok.1 h
    cases h
    exact ⟨q, ks, m1, d, m2, vir, hq, hk, hc, hv, rfl⟩

/-- What a `fork` that fails has done. -/
theorem fork_false (h : s.fork p P = .ok (false, s')) :
    s' = s ∨ s' = { s with mem := { s.mem with oom := true } } ∨
      ∃ ks m1 m2 m3, s.mem.kalloc = (some ks, m1) ∧
        m1.copyuvm P.pgdir P.sz = .ok (none, m2) ∧ m2.kfree (ks * PGSIZE) = .ok m3 ∧
        s' = { s with mem := m3 } := by
  unfold fork at h
  split at h
  · cases h
    exact .inl rfl
  split at h
  · next m1 hk =>
    cases h
    obtain ⟨-, rfl⟩ := kalloc_none hk
    exact .inr (.inl rfl)
  next ks m1 hk =>
  obtain ⟨⟨r, m2⟩, hc, h⟩ := bind_eq_ok.1 h
  cases r with
  | none =>
    obtain ⟨m3, hf, h⟩ := bind_eq_ok.1 h
    cases h
    exact .inr (.inr ⟨ks, m1, m2, m3, hk, hc, hf, rfl⟩)
  | some d =>
    obtain ⟨vir, -, h⟩ := bind_eq_ok.1 h
    cases h

/-- The frame that `kalloc` takes leaves the free list. -/
theorem kalloc_count {m m1 : Memory} (h : m.kalloc = (some ks, m1)) (f : Frame) :
    m.freelist.count f = m1.freelist.count f + if ks = f then 1 else 0 := by
  rw [(kalloc_some h).1, List.count_cons]
  simp only [beq_iff_eq]

/-- A `fork` that fails keeps the ledger. -/
theorem shift_fork_false {s' : State} (hl : Ledger s) (hP : s.proc p = some P)
    (h : s.fork p P = .ok (false, s')) : Shift s s' := by
  rcases fork_false h with rfl | rfl | ⟨ks, m1, m2, m3, hk, hc, hfree, rfl⟩
  · exact shift_mem _ (fun _ => le_rfl) rfl (.refl _) (fun _ _ => rfl) fun _ _ => le_rfl
  · exact shift_mem s (fun _ => le_rfl) rfl (.refl _) (fun _ _ => rfl) fun _ _ => le_rfl
  have hm := (kalloc_some hk).2
  have hs1 : m1.shm_arr = s.mem.shm_arr := by rw [hm]
  have hu1 : m1.used = s.mem.used := by rw [hm]
  have hR1 : SameRegions s.mem m1 := .of_eq hs1
  obtain ⟨hf, hu, hR, hun, hacc⟩ := copyuvm_none (hl.entry_pos hP) (hl.size hP).le hc
  obtain ⟨hf3, hs3, hu3, -⟩ := kfree_ok hfree
  have hfr : ks * PGSIZE / PGSIZE = ks := Nat.mul_div_cancel _ (by decide)
  refine shift_mem s (fun f => ?_) (by rw [hu3, hu, hu1])
    (hR1.trans (hR.trans (.of_eq hs3))) (fun i hi => ?_) fun {i f} hpos hi => ?_
  · have h1 := hf f
    have h2 := kalloc_count hk f
    rw [hf3, hfr, List.count_cons]
    simp only [beq_iff_eq]
    omega
  · rw [hs3, hun i (by rw [hs1]; exact hi), hs1]
  · have := hacc (hR1.distinct hl.tidy.distinct) hpos (by rw [hs1]; exact hi)
    rwa [hs3, ← hs1]

/-- A `fork` that succeeds keeps the ledger. The accesses it counts are the pages of the child. -/
theorem shift_fork_true {s' : State} (hl : Ledger s) (hP : s.proc p = some P)
    (h : s.fork p P = .ok (true, s')) :
    Shift s s' ∧ ∀ {i : Slot} {f : Frame}, 0 < f → (s.mem.shm_arr i).shmPhys = f * PGSIZE →
      (s.mapped f : Int) + (s'.mem.shm_arr i).numAccess =
        s'.mapped f + (s.mem.shm_arr i).numAccess := by
  obtain ⟨q, ks, m1, d, m2, vir, hq, hk, hc, -, rfl⟩ := fork_true h
  have hm := (kalloc_some hk).2
  have hs1 : m1.shm_arr = s.mem.shm_arr := by rw [hm]
  have hu1 : m1.used = s.mem.used := by rw [hm]
  have hR1 : SameRegions s.mem m1 := .of_eq hs1
  obtain ⟨g, hg⟩ := copyuvm_some (hl.entry_pos hP) (hl.size hP).le hc
  have hkernel (f : Frame) := s.kernel_set m2 q (some (P.child p ks d vir)) f
  have hmapped (f : Frame) := s.mapped_set m2 q (some (P.child p ks d vir)) f
  simp only [hq, slot_none, slot_some, Proc.own, Proc.child, Nat.add_zero] at hkernel hmapped
  have hacc {i : Slot} {f : Frame} (hf : 0 < f) (hi : (s.mem.shm_arr i).shmPhys = f * PGSIZE) :
      (s.mapped f : Int) + ((s.set m2 q (some (P.child p ks d vir))).mem.shm_arr i).numAccess =
        (s.set m2 q (some (P.child p ks d vir))).mapped f + (s.mem.shm_arr i).numAccess := by
    have h1 := hmapped f
    have h2 := hg.access (hR1.distinct hl.tidy.distinct) hf (by rw [hs1]; exact hi)
    have h3 : (s.set m2 q (some (P.child p ks d vir))).mem = m2 := rfl
    -- what the child maps of a region was granted to it: the free list has none of it
    have h4 := hg.total f
    have h5 := hg.held f (hR1.region.2 ⟨hf, i, hi⟩)
    have h6 := hl.free_of_region ⟨hf, i, hi⟩
    have h7 := kalloc_count hk f
    rw [h3, h2, hs1]
    simp only [Proc.child] at h1 ⊢
    omega
  refine ⟨⟨fun f hf => ?_, fun f hf => ?_, hg.used.trans hu1, hR1.trans hg.regions,
    fun i hi => ?_, fun hf hi => by rw [hacc hf hi], fun hsize r R hRr => ?_⟩, hacc⟩
  · have h1 := hkernel f
    have h2 := hmapped f
    have h3 := hg.total f
    have h4 := kalloc_count hk f
    have h5 := hg.off f (mt hR1.region.1 hf)
    simp only [Proc.child] at h1 h2 ⊢
    omega
  · have h1 := hkernel f
    have h3 := hg.keep f (hR1.region.2 hf)
    have h4 := kalloc_count hk f
    simp only [Proc.child] at h1 ⊢
    omega
  · exact (hg.unused i (by rw [hs1]; exact hi)).trans (by rw [hs1])
  · rcases eq_or_ne r q with rfl | hr
    · simp only [State.set, update_self] at hRr
      cases hRr
      exact show P.sz < KERNBASE from hsize hP
    · simp only [State.set, update_of_ne hr] at hRr
      exact hsize hRr

/-! ## `exit` and `wait` -/

/-- What `exit` changes does not count. -/
theorem slot_exited (F : Proc → Nat) (hF : ∀ P z o, F { P with zombie := z, parent := o } = F P)
    (q : Pid) (o : Option Proc) : slot F (o.map (exited p q)) = slot F o := by
  cases o with
  | none => rfl
  | some Q =>
    simp only [Option.map_some, slot_some, exited]
    split
    · exact hF Q true Q.parent
    · split
      · exact hF Q Q.zombie (some 0)
      · rfl

/-- `exit` changes no count. -/
theorem shift_exit (h : s.exit p = .ok (b, s')) :
    Shift s s' ∧ s'.mapped = s.mapped ∧ s'.mem = s.mem := by
  unfold exit at h
  split at h
  · cases h
  cases h
  have hkernel : kernel { s with proc := fun q => (s.proc q).map (exited p q) } =
      s.kernel := by
    funext f
    simp only [kernel, slot_exited (·.own f) fun _ _ _ => rfl]
  have hmapped : mapped { s with proc := fun q => (s.proc q).map (exited p q) } =
      s.mapped := by
    funext f
    simp only [mapped, slot_exited (·.pgdir.user f) fun _ _ _ => rfl]
  refine ⟨⟨fun f _ => by rw [hkernel, hmapped], fun f _ => by rw [hkernel], rfl, .refl _,
    fun _ _ => rfl, fun _ _ => by rw [hmapped], fun hsz q Q hQ => ?_⟩, hmapped, rfl⟩
  simp only [Option.map_eq_some_iff] at hQ
  obtain ⟨R, hR, rfl⟩ := hQ
  have : (exited p q R).sz = R.sz := by
    simp only [exited]
    split
    · rfl
    · split <;> rfl
  rw [this]
  exact hsz hR

/-- `wait` reaps a child, or there is none. -/
theorem wait_cases (h : s.wait p = some (.ok (b, s'))) :
    b = false ∧ s' = s ∨ ∃ q Q m1 m2, s.proc q = some Q ∧
      s.mem.kfree (Q.kstack * PGSIZE) = .ok m1 ∧ m1.freevm Q.pgdir (-1) = .ok m2 ∧
      s' = s.set m2 q none ∧ b = true := by
  unfold wait at h
  simp only at h
  split at h
  · next q hq =>
    split at h
    · cases h
    next Q hQ =>
    obtain ⟨m1, h1, h⟩ := bind_eq_ok.1 (Option.some.inj h)
    obtain ⟨m2, h2, h⟩ := bind_eq_ok.1 h
    cases h
    exact .inr ⟨q, Q, m1, m2, hQ, h1, h2, rfl, rfl⟩
  · split at h
    · cases h
    · cases h
      exact .inl ⟨rfl, rfl⟩

/-- `wait` keeps the ledger. The accesses of the child are taken back, all of them. -/
theorem shift_wait (hl : Ledger s) (h : s.wait p = some (.ok (b, s'))) :
    Shift s s' ∧ ∀ {i : Slot} {f : Frame}, 0 < f → (s.mem.shm_arr i).shmPhys = f * PGSIZE →
      (s.mapped f : Int) + (s'.mem.shm_arr i).numAccess =
        s'.mapped f + (s.mem.shm_arr i).numAccess := by
  rcases wait_cases h with ⟨-, rfl⟩ | ⟨q, Q, m1, m2, hQ, hk, hfree, rfl, -⟩
  · exact ⟨shift_mem _ (fun _ => le_rfl) rfl (.refl _) (fun _ _ => rfl) fun _ _ => le_rfl,
      fun _ _ => rfl⟩
  obtain ⟨hf1, hs1, hu1, -⟩ := kfree_ok hk
  have hF := freevm_spec hfree
  have hR1 : SameRegions s.mem m1 := .of_eq hs1
  have hd1 := hR1.distinct hl.tidy.distinct
  have hfr : Q.kstack * PGSIZE / PGSIZE = Q.kstack := Nat.mul_div_cancel _ (by decide)
  have hcount (f : Frame) : m1.freelist.count f =
      s.mem.freelist.count f + if Q.kstack = f then 1 else 0 := by
    rw [hf1, hfr, List.count_cons]; simp only [beq_iff_eq]
  have hkernel (f : Frame) := s.kernel_set m2 q none f
  have hmapped (f : Frame) := s.mapped_set m2 q none f
  simp only [slot_of_eq hQ, slot_none, Proc.own, Nat.add_zero] at hkernel hmapped
  have hmem : (s.set m2 q none).mem = m2 := rfl
  have hacc {i : Slot} {f : Frame} (hf : 0 < f) (hi : (s.mem.shm_arr i).shmPhys = f * PGSIZE) :
      (m2.shm_arr i).numAccess = (s.mem.shm_arr i).numAccess + -1 * (Q.pgdir.user f : ℕ) := by
    rw [hF.access hd1 hf (by rw [hs1]; exact hi), hs1]
  refine ⟨⟨fun f hf => ?_, fun f hf => ?_, hF.used.trans hu1, hR1.trans hF.regions,
    fun i hi => ?_, fun {i f} hf hi => ?_, fun hsize r R hRr => ?_⟩, fun {i f} hf hi => ?_⟩
  · have h1 := hkernel f
    have h2 := hmapped f
    have h3 := hF.total f
    have h4 := hcount f
    omega
  · have h1 := hkernel f
    have h3 := hF.keep f (hR1.region.2 hf)
    have h4 := hcount f
    omega
  · exact (hF.unused i (by rw [hs1]; exact hi)).trans (by rw [hs1])
  · have h1 := hmapped f
    rw [hmem, hacc hf hi]
    omega
  · rcases eq_or_ne r q with rfl | hr
    · simp only [State.set, update_self] at hRr
      cases hRr
    · simp only [State.set, update_of_ne hr] at hRr
      exact hsize hRr
  · have h1 := hmapped f
    rw [hmem, hacc hf hi]
    omega

end

/-! ## `exec` -/

section
variable {m m' : Memory} {d d' cur : PageDir} {b : Bool} {file : List UInt8}

/-- What is written to user pages moves no frame. -/
theorem moves_page (d : PageDir) (h : m' = { m with page := m'.page }) :
    Moves m d m' d ∧ m'.shm_arr = m.shm_arr := by
  rw [h]
  exact ⟨⟨fun _ => le_rfl, fun _ _ => le_rfl, fun _ _ => le_rfl, rfl, .refl _⟩, rfl⟩

/-- The loop of `loaduvm` writes to frames only. -/
theorem loadLoop_page : ∀ {n : Nat} {m m' : Memory} {i : Nat},
    loadLoop d addr file offset sz n m i = .ok (b, m') → m' = { m with page := m'.page }
  | 0, m, m', i, h => by cases h; rfl
  | n + 1, m, m', i, h => by
    simp only [loadLoop] at h
    split at h
    · cases h
    split at h
    · cases h; rfl
    split at h
    · cases h
    · split at h
      · rw [loadLoop_page h]; rfl
      · cases h; rfl

/-- `loaduvm` writes to frames only. -/
theorem loaduvm_page (h : m.loaduvm d addr file offset sz = .ok (b, m')) :
    m' = { m with page := m'.page } := by
  unfold loaduvm at h
  split at h
  · cases h
  · exact loadLoop_page h

/-- The loop of `copyout` writes to frames only. -/
theorem copyLoopOut_page : ∀ {n : Nat} {m m' : Memory} {va : Nat} {buf : List UInt8},
    copyLoopOut cur d n m va buf = .ok (b, m') → m' = { m with page := m'.page }
  | 0, m, m', va, buf, h => by cases h; rfl
  | n + 1, m, m', va, buf, h => by
    simp only [copyLoopOut] at h
    split at h
    · cases h; rfl
    obtain ⟨o, -, h⟩ := bind_eq_ok.1 h
    cases o with
    | none => cases h; rfl
    | some f =>
      simp only at h
      split at h
      · cases h
      · rw [copyLoopOut_page h]; rfl

/-- So does the loop over the arguments. -/
theorem execArgs_page : ∀ {args : List (List UInt8)} {m m' : Memory} {sp : Nat} {us : List Nat}
    {r : Option (Nat × List Nat)},
    execArgs cur d args m sp us = .ok (r, m') → m' = { m with page := m'.page }
  | [], m, m', sp, us, r, h => by cases h; rfl
  | arg :: args, m, m', sp, us, r, h => by
    simp only [execArgs] at h
    split at h
    · cases h; rfl
    obtain ⟨⟨ok, m1⟩, hc, h⟩ := bind_eq_ok.1 h
    have h₁ := copyLoopOut_page hc
    cases ok with
    | false => cases h; exact h₁
    | true => rw [execArgs_page h, h₁]

/-- Clearing `PTE_U` moves no frame. -/
theorem clearpteu_moves (m : Memory) (h : clearpteu d uva = .ok d') : Moves m d m d' := by
  unfold clearpteu at h
  split at h
  · cases h
  next e he =>
  cases h
  have hu : (d.setPte uva { e with u := false }).user = d.user :=
    PageDir.user_setPte_same he rfl
  have ht := PageDir.tables_setPte d uva { e with u := false }
  exact ⟨fun f => by rw [hu, ht], fun f _ => by rw [ht], fun f _ => by rw [hu], rfl, .refl _⟩

/-- The segments are loaded into pages taken from the free list. -/
theorem execLoad_moves : ∀ {n : Nat} {m m' : Memory} {d d' : PageDir} {sz off : Nat}
    {r : Option Nat}, sz < KERNBASE → execLoad file n m d sz off = .ok (r, m', d') →
    Moves m d m' d' ∧ m'.shm_arr = m.shm_arr ∧ ∀ sz' ∈ r, sz' < KERNBASE
  | 0, m, m', d, d', sz, off, r, hsz, h => by
    cases h
    exact ⟨.refl _ _, rfl, fun _ h => by cases h; exact hsz⟩
  | n + 1, m, m', d, d', sz, off, r, hsz, h => by
    simp only [execLoad] at h
    split at h
    · cases h; exact ⟨.refl _ _, rfl, nofun⟩
    split at h
    · cases h; exact ⟨.refl _ _, rfl, nofun⟩
    split at h
    · exact execLoad_moves hsz h
    split at h
    · cases h; exact ⟨.refl _ _, rfl, nofun⟩
    obtain ⟨⟨sz1, m1, d1⟩, ha, h⟩ := bind_eq_ok.1 h
    obtain ⟨hM, hs, hsz1, -⟩ := allocuvm_moves hsz ha
    simp only at h
    split at h
    · cases h; exact ⟨hM, hs, nofun⟩
    obtain ⟨⟨ok, m2⟩, hld, h⟩ := bind_eq_ok.1 h
    obtain ⟨hM2, hs2⟩ := moves_page d1 (loaduvm_page hld)
    simp only at h
    split at h
    · obtain ⟨hM3, hs3, hsz3⟩ := execLoad_moves hsz1 h
      exact ⟨hM.trans (hM2.trans hM3), hs3.trans (hs2.trans hs), hsz3⟩
    · cases h
      exact ⟨hM.trans hM2, hs2.trans hs, nofun⟩

theorem PGROUNDUP_le (h : sz < KERNBASE) : PGROUNDUP sz ≤ KERNBASE := by
  simp only [PGROUNDUP, KERNBASE, PGSIZE] at *; omega

/-- The stack comes from the free list too. -/
theorem execStack_moves {r : Option Nat}
    (hsz : sz < KERNBASE) (h : execStack cur m d sz argv = .ok (r, m', d')) :
    Moves m d m' d' ∧ m'.shm_arr = m.shm_arr ∧ ∀ sz' ∈ r, sz' < KERNBASE := by
  unfold execStack at h
  simp only at h
  obtain ⟨⟨sz1, m1, d1⟩, ha, h⟩ := bind_eq_ok.1 h
  have hround := PGROUNDUP_le hsz
  rcases hround.lt_or_eq with hlt | heq
  · obtain ⟨hM, hs, hsz1, -⟩ := allocuvm_moves hlt ha
    simp only at h
    split at h
    · cases h; exact ⟨hM, hs, nofun⟩
    obtain ⟨d2, hc, h⟩ := bind_eq_ok.1 h
    have hM2 := hM.trans (clearpteu_moves m1 hc)
    obtain ⟨⟨o, m2⟩, hargs, h⟩ := bind_eq_ok.1 h
    obtain ⟨hM3, hs3⟩ := moves_page d2 (execArgs_page hargs)
    cases o with
    | none => cases h; exact ⟨hM2.trans hM3, hs3.trans hs, nofun⟩
    | some x =>
      obtain ⟨⟨ok, m3⟩, hout, h⟩ := bind_eq_ok.1 h
      obtain ⟨hM4, hs4⟩ := moves_page d2 (copyLoopOut_page hout)
      cases h
      refine ⟨hM2.trans (hM3.trans hM4), hs4.trans (hs3.trans hs), fun sz' hsz' => ?_⟩
      cases ok <;> cases hsz'
      exact hsz1
  · -- no room for a stack below `KERNBASE`
    rw [heq, allocuvm, if_pos (by decide)] at ha
    cases ha
    cases h
    exact ⟨.refl _ _, rfl, nofun⟩

/-- What `exec` does before it commits. -/
theorem execImage_moves {r : Option Nat} (h : execImage cur m d file hdr argv = .ok (r, m', d')) :
    Moves m d m' d' ∧ m'.shm_arr = m.shm_arr ∧ ∀ sz' ∈ r, sz' < KERNBASE := by
  unfold execImage at h
  obtain ⟨⟨o, m1, d1⟩, hld, h⟩ := bind_eq_ok.1 h
  obtain ⟨hM, hs, hsz⟩ := execLoad_moves (by decide) hld
  cases o with
  | none => cases h; exact ⟨hM, hs, nofun⟩
  | some sz =>
    obtain ⟨hM2, hs2, hsz2⟩ := execStack_moves (hsz sz rfl) h
    exact ⟨hM.trans hM2, hs2.trans hs, hsz2⟩

/-- What `exec` does: it loses some frames, or it puts a new directory in the place of the old. -/
theorem exec_cases {file : Option (List UInt8)} (h : m.exec P file argv = .ok (b, m', P')) :
    b = false ∧ P' = P ∧ m'.shm_arr = m.shm_arr ∧ m'.used = m.used ∧
        (∀ f, m'.freelist.count f ≤ m.freelist.count f) ∨
      b = true ∧ ∃ (m1 : Memory) (d : PageDir) (sz : Nat),
        (∀ f, m1.freelist.count f + d.tables f + d.user f ≤ m.freelist.count f) ∧
        m1.shm_arr = m.shm_arr ∧ m1.used = m.used ∧ sz < KERNBASE ∧
        m1.freevm P.pgdir 0 = .ok m' ∧ P' = { P with pgdir := d, sz } := by
  unfold exec at h
  split at h
  · cases h
    exact .inl ⟨rfl, rfl, rfl, rfl, fun _ => le_rfl⟩
  next file =>
  simp only at h
  split at h
  · cases h
    exact .inl ⟨rfl, rfl, rfl, rfl, fun _ => le_rfl⟩
  obtain ⟨⟨o, m1⟩, hk, h⟩ := bind_eq_ok.1 h
  cases o with
  | none =>
    cases h
    obtain ⟨hs, hu, -, hf⟩ := setupkvm_none hk
    exact .inl ⟨rfl, rfl, hs, hu, hf⟩
  | some d0 =>
    obtain ⟨hs, hu, -, -, ht, hz⟩ := setupkvm_some hk
    obtain ⟨⟨r, m2, d⟩, himg, h⟩ := bind_eq_ok.1 h
    obtain ⟨hM, hs2, hsz⟩ := execImage_moves himg
    have htotal (f : Frame) :
        m2.freelist.count f + d.tables f + d.user f ≤ m.freelist.count f := by
      have h1 := hM.total f
      have h2 := ht f
      have h3 := user_eq_zero hz f
      omega
    cases r with
    | none =>
      obtain ⟨m3, hfree, h⟩ := bind_eq_ok.1 h
      cases h
      have hF := freevm_spec hfree
      exact .inl ⟨rfl, rfl, (hF.same rfl).trans (hs2.trans hs), hF.used.trans (hM.used.trans hu),
        fun f => (hF.total f).trans (htotal f)⟩
    | some sz =>
      obtain ⟨m3, hfree, h⟩ := bind_eq_ok.1 h
      cases h
      exact .inr ⟨rfl, m2, d, sz, htotal, hs2.trans hs, hM.used.trans hu, hsz sz rfl, hfree, rfl⟩

/-- `exec` keeps the ledger. -/
theorem shift_exec {file : Option (List UInt8)} (hl : Ledger s) (hP : s.proc p = some P)
    (h : s.mem.exec P file argv = .ok (b, m', P')) : Shift s (s.set m' p (some P')) := by
  rcases exec_cases h with ⟨-, rfl, hs, hu, hf⟩ | ⟨-, m1, d, sz, htotal, hs1, hu1, hsz, hfree, rfl⟩
  · refine shift_set hP rfl (fun f _ => ?_) (fun f _ => ?_) hu (.of_eq hs) (fun i _ => by rw [hs])
      (fun _ _ => by rw [hs]) id
    · have := hf f
      omega
    · have := hf f
      omega
  have hF := freevm_spec hfree
  have hR1 : SameRegions s.mem m1 := .of_eq hs1
  have hs : m'.shm_arr = s.mem.shm_arr := (hF.same rfl).trans hs1
  refine shift_set hP rfl (fun f hf => ?_) (fun f hf => ?_) (hF.used.trans hu1) (.of_eq hs)
    (fun i _ => by rw [hs]) (fun {i f} hf hi => ?_) fun _ => hsz
  · have h1 := hF.total f
    have h2 := htotal f
    simp only
    omega
  · have h1 := hF.keep f (hR1.region.2 hf)
    have h2 := htotal f
    simp only
    omega
  · -- the new image maps no region
    have h1 := hl.free_of_region ⟨hf, i, hi⟩
    have h2 := htotal f
    rw [hs]
    simp only
    omega

end

end Msboss.Vm
