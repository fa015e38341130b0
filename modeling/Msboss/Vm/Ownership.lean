import Msboss.Vm.Start
import Msboss.Vm.Tame

/-!
# Ownership of physical frames

`Owned`: the free list holds no frame twice and none that is in use, and a frame that two user pages
map is that of a shared region. It follows from the ledger, and the ledger holds after boot and is
kept by every call that meets `Careful`.

What `Careful` asks of `shm_rem` is that the page it is about to clear be one of the region's and,
while others still use the region, the last page of the process: otherwise the pages above it are
mapped a second time. `shm_get` has the same fault where it clears up after a failed `kalloc`. What
it asks of `exec` is about the file and the arguments alone: that no segment wraps around the
address space, that the stack does not begin a page table, and that the arguments fit on two pages.
-/

namespace Msboss.Vm

open Function PageDir Finset

/-! ## The property -/

/-- The directory maps the user page `vp` to the frame. -/
def PageDir.MapsPage (d : PageDir) (vp : Nat) (f : Frame) : Prop :=
  vp < UPAGES ∧ (d.entry vp).p = true ∧ (d.entry vp).frame = f

/-- The frame is the directory or one of its page tables. -/
def PageDir.Holds (d : PageDir) (f : Frame) : Prop :=
  d.frame = f ∨ ∃ i t, d.pde i = some t ∧ t.frame = f

/-- The frame is a page table, a page directory, a kernel stack or a user page. -/
def State.InUse (s : State) (f : Frame) : Prop :=
  s.kpgdir.Holds f ∨ ∃ p P, s.proc p = some P ∧
    (P.kstack = f ∨ P.pgdir.Holds f ∨ ∃ vp, P.pgdir.MapsPage vp f)

/-- Who may use a frame. -/
structure Owned (s : State) : Prop where
  nodup : s.mem.freelist.Nodup
  free : ∀ f ∈ s.mem.freelist, ¬ s.InUse f
  shared : ∀ {p q : Pid} {P Q : Proc} {vp vq : Nat} {f : Frame}, s.proc p = some P →
    s.proc q = some Q → P.pgdir.MapsPage vp f → Q.pgdir.MapsPage vq f → (p, vp) ≠ (q, vq) →
    ∃ i, (s.mem.shm_arr i).Named ∧ (s.mem.shm_arr i).shmPhys = f * PGSIZE

section
variable {s : State} {d : PageDir} {f : Frame}

/-- A page that maps the frame counts it. -/
theorem count_of_mapsPage (h : d.MapsPage vp f) : (d.entry vp).count f = 1 :=
  if_pos ⟨h.2.1, h.2.2⟩

theorem user_of_mapsPage (h : d.MapsPage vp f) : 1 ≤ d.user f := by
  rw [← count_of_mapsPage h]
  exact single_le_sum (f := fun vp => (d.entry vp).count f) (fun _ _ => Nat.zero_le _)
    (mem_range.2 h.1)

theorem user_of_mapsPage₂ (h : d.MapsPage vp f) (h' : d.MapsPage vq f)
    (hne : vp ≠ vq) : 2 ≤ d.user f := by
  have := two_le_sum (g := fun vp => (d.entry vp).count f) (mem_range.2 h.1)
    (mem_range.2 h'.1) hne (count_of_mapsPage h).ge (count_of_mapsPage h').ge
  exact this

/-- A page table is counted. -/
theorem tables_of_holds (h : d.Holds f) : 1 ≤ d.tables f := by
  rw [tables]
  rcases h with h | ⟨i, t, ht, hf⟩
  · rw [if_pos h]
    exact Nat.le_add_right _ _
  have := single_le_sum (s := univ)
    (f := fun i => (d.pde i).elim 0 fun t => if t.frame = f then 1 else 0)
    (fun _ _ => Nat.zero_le _) (mem_univ i)
  simp only [ht, Option.elim_some, if_pos hf] at this
  omega

/-- A frame that is in use counts, besides the free list. -/
theorem counted_of_inUse (h : s.InUse f) :
    s.mem.freelist.count f + 1 ≤ s.kernel f + s.mapped f := by
  rcases h with h | ⟨p, P, hP, h⟩
  · have := tables_of_holds h
    simp only [State.kernel]
    omega
  have hown := s.own_le_kernel hP f
  simp only [Proc.own] at hown
  rcases h with h | h | ⟨vp, h⟩
  · rw [if_pos h] at hown
    omega
  · have := tables_of_holds h
    omega
  · have h1 := user_of_mapsPage h
    have h2 := s.user_le_mapped hP f
    omega

/-- A frame that two pages map counts twice. -/
theorem mapped_of_mapsPage₂ (hP : s.proc p = some P)
    (hQ : s.proc q = some Q) (h : P.pgdir.MapsPage vp f) (h' : Q.pgdir.MapsPage vq f)
    (hne : (p, vp) ≠ (q, vq)) : 2 ≤ s.mapped f := by
  rcases eq_or_ne p q with rfl | hpq
  · obtain rfl : P = Q := Option.some.inj (hP.symm.trans hQ)
    have hv : vp ≠ vq := fun hv => hne (by rw [hv])
    exact (user_of_mapsPage₂ h h' hv).trans (s.user_le_mapped hP f)
  have h1 := user_of_mapsPage h
  have h2 := user_of_mapsPage h'
  have := two_le_sum (g := fun r => slot (·.pgdir.user f) (s.proc r)) (mem_univ p)
    (mem_univ q) hpq (by rw [slot_of_eq hP]; exact h1) (by rw [slot_of_eq hQ]; exact h2)
  exact this

/-- The ledger is stronger. -/
theorem Ledger.owned (hl : Ledger s) : Owned s := by
  have hcount (f : Frame) : s.mem.freelist.count f ≤ s.kernel f := by
    simp only [State.kernel]
    omega
  refine ⟨List.nodup_iff_count_le_one.2 fun f => ?_, fun f hf hu => ?_,
    fun {p q P Q vp vq f} hP hQ h h' hne => ?_⟩
  · by_cases hr : s.mem.Region f
    · have h1 := hl.free_of_region hr
      omega
    · have h1 := hl.once f hr
      have h2 := hcount f
      omega
  · have h1 := List.count_pos_iff.2 hf
    have h2 := counted_of_inUse hu
    have h3 := hcount f
    by_cases hr : s.mem.Region f
    · have h4 := hl.free_of_region hr
      omega
    · have h4 := hl.once f hr
      omega
  · have h2 := mapped_of_mapsPage₂ hP hQ h h' hne
    by_cases hr : s.mem.Region f
    · obtain ⟨hf, i, hi⟩ := hr
      exact ⟨i, hl.tidy.named_of_region hf hi, hi⟩
    · have h4 := hl.once f hr
      omega

end

/-! ## Boot -/

/-- Without regions no frame is one of a region. -/
theorem not_region_of_init {m : Memory} (h : m.shm_arr = shm_init) (f : Frame) : ¬ m.Region f := by
  rintro ⟨hf, i, hi⟩
  rw [h] at hi
  exact (Nat.mul_pos hf (by decide)).ne' hi.symm

/-- The table of regions is tidy at first. -/
theorem tidy_init {m : Memory} (h : m.shm_arr = shm_init) (hu : m.used = 0) : m.Tidy := by
  refine ⟨fun i _ => by rw [h]; exact ⟨rfl, rfl⟩, fun i hi => ?_, fun i j _ h0 => ?_, ?_⟩
  · rw [h] at hi
    exact absurd rfl hi
  · rw [h] at h0
    exact absurd rfl h0
  · rw [hu, h]
    rfl

/-- What `boot` has done when it succeeds. -/
theorem boot_ok (h : boot fl page initcode = .ok s) :
    ∃ kpgdir ks d m, s = solo kpgdir m (initproc ks d) ∧ m.shm_arr = shm_init ∧ m.used = 0 ∧
      (∀ vp < UPAGES, vp ≠ 0 → d.entry vp = .zero) ∧
      ∀ f, m.freelist.count f + kpgdir.tables f + (if ks = f then 1 else 0) + d.tables f +
        d.user f ≤ fl.count f := by
  unfold boot at h
  obtain ⟨⟨r, m1⟩, hk, h⟩ := bind_eq_ok.1 h
  cases r with
  | none => cases h
  | some kpgdir =>
  obtain ⟨hs1, hu1, -, -, ht1, -⟩ := setupkvm_some hk
  simp only at h
  split at h
  · cases h
  next ks m2 hks =>
  have hm2 := (kalloc_some hks).2
  obtain ⟨⟨r, m3⟩, hd, h⟩ := bind_eq_ok.1 h
  cases r with
  | none => cases h
  | some d =>
  obtain ⟨hs3, hu3, -, -, ht3, hz3⟩ := setupkvm_some hd
  obtain ⟨⟨m4, d4⟩, hi, h⟩ := bind_eq_ok.1 h
  cases h
  obtain ⟨hM, hs4, hent⟩ : Moves m3 d m4 d4 ∧ m4.shm_arr = m3.shm_arr ∧
      ∀ vp < UPAGES, vp ≠ 0 → d4.entry vp = .zero := by
    unfold Memory.inituvm at hi
    split at hi
    · cases hi
    split at hi
    · cases hi
    next f m5 hf =>
    obtain ⟨⟨b, m6, d6⟩, hmap, hi⟩ := bind_eq_ok.1 hi
    cases hi
    obtain ⟨hM, hs⟩ := moves_alloc (n := m5.fill f 0) (by decide) (by decide) hf rfl rfl rfl hmap
    refine ⟨⟨hM.total, hM.keep, hM.held, hM.used, hM.regions⟩, hs, fun vp hvp hne => ?_⟩
    rw [mappages_other (by decide) (by decide) hmap hvp hne]
    exact hz3 vp hvp
  refine ⟨kpgdir, ks, d4, m4, rfl, by rw [hs4, hs3, hm2, hs1], by rw [hM.used, hu3, hm2, hu1], hent,
    fun f => ?_⟩
  have h1 := hM.total f
  have h2 := ht3 f
  have h3 := kalloc_count hks f
  have h4 := ht1 f
  have h5 := user_eq_zero hz3 f
  simp only at h4
  omega

/-- Boot leaves it empty. -/
theorem boot_shm_arr (h : boot fl page initcode = .ok s) : s.mem.shm_arr = shm_init := by
  obtain ⟨kpgdir, ks, d, m, rfl, hs, -⟩ := boot_ok h
  exact hs

/-- The uses of a frame when only the first process runs. -/
theorem solo_counts (kp : PageDir) (m : Memory) (P : Proc) (f : Frame) :
    (solo kp m P).kernel f = m.freelist.count f + kp.tables f + P.own f ∧
      (solo kp m P).mapped f = P.pgdir.user f := by
  let s0 : State := { mem := m, kpgdir := kp, proc := fun _ => none }
  have hk0 : s0.kernel f = m.freelist.count f + kp.tables f := by simp [State.kernel, s0]
  have hm0 : s0.mapped f = 0 := by simp [State.mapped, s0]
  have hkernel := s0.kernel_set m 0 (some P) f
  have hmapped := s0.mapped_set m 0 (some P) f
  simp only [show s0.proc 0 = none from rfl, slot_none, slot_some,
    show s0.mem.freelist = m.freelist from rfl] at hkernel hmapped
  have hset : s0.set m 0 (some P) = solo kp m P := rfl
  rw [hset] at hkernel hmapped
  omega

/-- The ledger holds after boot. -/
theorem Booted.ledger (h : Booted s) : Ledger s := by
  obtain ⟨fl, page, initcode, hnd, husable, hb⟩ := h
  obtain ⟨kp, ks, d, m, rfl, hs, hu, -, hcount⟩ := boot_ok hb
  have htotal (f : Frame) : (solo kp m (initproc ks d)).kernel f +
      (solo kp m (initproc ks d)).mapped f ≤ fl.count f := by
    obtain ⟨h1, h2⟩ := solo_counts kp m (initproc ks d) f
    have h3 := hcount f
    simp only [Proc.own, show (initproc ks d).kstack = ks from rfl,
      show (initproc ks d).pgdir = d from rfl] at h1 h2
    omega
  have hnr (f : Frame) := not_region_of_init hs f
  refine ⟨tidy_init hs hu, fun i _ hi => by
      rw [show (solo kp m (initproc ks d)).mem.shm_arr = shm_init from hs] at hi
      exact absurd rfl hi, fun f _ => (htotal f).trans (List.nodup_iff_count_le_one.1 hnd f),
    fun f hf => absurd hf (hnr f), ?_, fun {i f} hf hi => absurd ⟨hf, i, hi⟩ (hnr f),
    fun {p Q} hQ => ?_⟩
  · have h0 : fl.count 0 = 0 := List.count_eq_zero.2 fun h => not_usable_zero (husable 0 h)
    have h1 := htotal 0
    rw [h0] at h1
    exact Nat.le_zero.1 h1
  · rcases eq_or_ne p 0 with rfl | hp
    · simp only [solo, update_self] at hQ
      cases hQ
      exact show PGSIZE < KERNBASE by decide
    · simp only [solo, update_of_ne hp] at hQ
      cases hQ

/-! ## Runs -/

/-- The condition under which frames keep their owners. -/
def Careful (s : State) : Act → Prop
  | .shm_rem p name _ => ∀ P ∈ s.proc p, ∀ i ∈ s.mem.shm_find name,
      ∀ ref ∈ P.procSHM_nameFind name, P.pgdir.Maps (P.shm_vir ref) (s.mem.shm_arr i).shmPhys ∧
        ((s.mem.shm_arr i).numAccess > 1 → P.LastPage ref)
  | .shm_get p name _ _ => ∀ P ∈ s.proc p, s.mem.shm_find name = none → s.mem.freelist = [] →
      P.LastPage 0
  | .exec _ file argv => (∀ bytes ∈ file, Loadable bytes) ∧ argBytes argv ≤ 2 * PGSIZE
  | _ => True

section
variable {s s' : State} {a : Act} {p : Pid} {P : Proc} {b : Bool}

/-- A step is a call of a process that runs, with `oom` cleared. -/
theorem outcome_eq_some (h : s.outcome a = some r) : ∃ P, s.proc a.pid = some P ∧
      State.call { s with mem := { s.mem with oom := false } } P a = some r := by
  unfold State.outcome at h
  split at h
  · next P hP =>
    split at h
    · cases h
    · exact ⟨P, hP, h⟩
  · cases h

/-- A call keeps the ledger. -/
theorem Ledger.call (hl : Ledger s) (hP : s.proc a.pid = some P) (hc : Careful s a)
    (h : s.call P a = some (.ok (b, s'))) : Ledger s' := by
  cases a with
  | growproc p n =>
    obtain ⟨⟨ok, m', P'⟩, hg, h⟩ := bind_eq_ok.1 (Option.some.inj h)
    cases h
    obtain ⟨hM, hs, hk, hsz⟩ := growproc_moves (hl.size hP) hg
    exact hl.shift (hM.shift hl hP hk hs fun _ => hsz)
  | fork p =>
    have h : s.fork p P = .ok (b, s') := Option.some.inj h
    cases b with
    | false => exact hl.shift (shift_fork_false hl hP h)
    | true => exact hl.shift (shift_fork_true hl hP h).1
  | exec p file argv =>
    obtain ⟨⟨ok, m', P'⟩, he, h⟩ := bind_eq_ok.1 (Option.some.inj h)
    cases h
    exact hl.shift (shift_exec hl hP he)
  | exit p => exact hl.shift (shift_exit (Option.some.inj h)).1
  | wait p => exact hl.shift (shift_wait hl h).1
  | shm_get p name length junk =>
    obtain ⟨⟨va, m', P'⟩, hg, h⟩ := bind_eq_ok.1 (Option.some.inj h)
    cases h
    unfold Memory.sys_shm_get at hg
    split at hg
    · cases hg
      exact hl.shift (shift_set hP rfl (fun _ _ => le_rfl) (fun _ _ => le_rfl) rfl (.refl _)
        (fun _ _ => rfl) (fun _ _ => le_rfl) id)
    · next hr =>
      have hr : refused name length = false := by simpa using hr
      exact hl.got hP hr (hc P hP) (shm_get_cases (hl.size hP) (hl.found_ne_zero hr) hg)
  | shm_rem p name length =>
    obtain ⟨⟨r, m', P'⟩, hg, h⟩ := bind_eq_ok.1 (Option.some.inj h)
    cases h
    unfold Memory.sys_shm_rem at hg
    split at hg
    · cases hg
      exact hl.shift (shift_set hP rfl (fun _ _ => le_rfl) (fun _ _ => le_rfl) rfl (.refl _)
        (fun _ _ => rfl) (fun _ _ => le_rfl) id)
    next hr =>
    have hr : refused name length = false := by simpa using hr
    exact hl.gave hP hr (fun i ref hi href => (hc P hP i hi ref href).1)
      (shm_rem_cases (hl.size hP) (hl.found_ne_zero hr)
        (fun i ref hi href => (hc P hP i hi ref href).2) hg)
  | store p va x =>
    simp only [State.call] at h
    split at h
    · split at h
      · cases h
        exact hl.page _ _
      · cases h
    · cases h

/-- A careful step keeps the ledger. -/
theorem Ledger.step (hl : Ledger s) (hc : Careful s a) (h : Step s a s') : Ledger s' := by
  have hl' := hl.page s.mem.page false
  cases h with
  | ok h =>
    obtain ⟨P, hP, h⟩ := outcome_eq_some h
    refine hl'.call (a := a) hP ?_ h
    cases a <;> exact hc
  | wild h =>
    obtain ⟨P, hP, hcall⟩ := outcome_eq_some h
    refine absurd hcall (call_ne_wild hl'.tidy.used fun p file argv he => ?_)
    rw [he] at hc
    exact hc

end

/-- The first process creates a region. -/
theorem careful_created : ∃ s, (system.restrict Careful).Reach s ∧ (s.mem.shm_arr 0).Named := by
  obtain ⟨kp, m0, P0, m, P, f, fs, hb, hfl, hout, hc, -⟩ :=
    exists_created (show refused [97] 1 = false by decide) (by decide)
  have hcareful : Careful (solo kp m0 P0) (.shm_get 0 [97] 1 0) := fun _ _ _ hnil => by
    rw [show (solo kp m0 P0).mem = m0 from rfl, hfl] at hnil
    cases hnil
  have hreach : (system.restrict Careful).Reach (solo kp m P) :=
    .step (.init hb) ⟨hcareful, .ok hout⟩
  refine ⟨_, hreach, ?_⟩
  show (m.shm_arr 0).Named
  rw [hc.shm_arr, update_self]
  exact show strncpy [97] 16 ≠ DNE by decide

/-- Careful runs keep the ledger. -/
theorem ledger_of_careful (h : (system.restrict Careful).Reach s) : Ledger s := by
  refine h.invariant (fun s hb => ?_) fun s a s' hl hst => ?_
  · exact Booted.ledger hb
  · exact hl.step hst.1 hst.2

/-- **Ownership of frames.** In every run of careful steps from boot, frames have the owners they
should have. -/
theorem owned_of_careful {s : State} (h : (system.restrict Careful).Reach s) : Owned s :=
  (ledger_of_careful h).owned

/-- A run with a region in use. -/
theorem owned_created : ∃ s, (system.restrict Careful).Reach s ∧ (s.mem.shm_arr 0).Named ∧
    Owned s := by
  obtain ⟨s, hreach, hnamed⟩ := careful_created
  exact ⟨s, hreach, hnamed, owned_of_careful hreach⟩

/-! ## The fault -/

/-- The loop of `deallocshm` that has one page to move. -/
theorem remapLoop_one (hn : n ≠ 0) (hlt : a < sz) (he : d.pte a = some e)
    (hmap : m.mappages d ((a + (2 ^ 32 - PGSIZE)) % 2 ^ 32) PGSIZE e.addr true true =
      .ok (b, m', d')) (hend : ¬ (a + PGSIZE) % 2 ^ 32 < sz) :
    Memory.remapLoop sz n m d a = .ok (m', d') := by
  obtain ⟨n, rfl⟩ := Nat.exists_eq_succ_of_ne_zero hn
  rw [Memory.remapLoop, if_pos hlt]
  simp only [he]
  exact bind_eq_ok.2 ⟨_, rfl, bind_eq_ok.2 ⟨_, hmap, remapLoop_done hend n m' d'⟩⟩

/-- `shm_rem` of a region that is not the last page of the process: the page above it is mapped in
its place, and stays mapped where it was. -/
theorem shm_rem_moves {m : Memory} {P : Proc} {f g : Frame} (hshm : m.shm_arr = update shm_init 0
      { name := longName, numAccess := 2, shmPhys := f * PGSIZE }) (hsz : P.sz = 4 * PGSIZE)
    (hname : P.shm_name = update (update (fun _ => DNE) 0 (safestrcpy longName 16)) 1 longName)
    (hvir : P.shm_vir = update (update (fun _ => 0) 0 (1 * PGSIZE)) 1 (2 * PGSIZE))
    (h2 : P.pgdir.pte (2 * PGSIZE) = some { frame := f, p := true, w := true, u := true })
    (h3 : P.pgdir.pte (3 * PGSIZE) = some { frame := g, p := true, w := true, u := true }) :
    ∃ P', m.shm_rem P longName = .ok (1, m.addAccess 0 (-1), P') ∧
      P'.pgdir.MapsPage 2 g ∧ P'.pgdir.MapsPage 3 g := by
  have hv : P.shm_vir 1 = 2 * PGSIZE := by rw [hvir]; rfl
  set cleared := P.pgdir.setPte (2 * PGSIZE) .zero
  set e : Pte := { frame := g, p := true, w := true, u := true }
  have hc2 : cleared.pte (2 * PGSIZE) = some .zero := pte_setPte_self h2
  have hc3 : cleared.pte (3 * PGSIZE) = some e :=
    (pte_setPte_ne (by decide) (by decide) (by decide) _).trans h3
  have hmap : m.mappages cleared ((3 * PGSIZE + (2 ^ 32 - PGSIZE)) % 2 ^ 32) PGSIZE e.addr true
      true = .ok (true, m, cleared.setPte (2 * PGSIZE) e) := by
    rw [show (3 * PGSIZE + (2 ^ 32 - PGSIZE)) % 2 ^ 32 = 2 * PGSIZE by decide,
      mappages_empty (by decide) (by decide) hc2, Pte.addr, Nat.mul_div_cancel _ (by decide)]
  have hloop : Memory.remapLoop (4 * PGSIZE) (2 ^ 20) m cleared (3 * PGSIZE) =
      .ok (m, cleared.setPte (2 * PGSIZE) e) :=
    remapLoop_one (by decide) (by decide) hc3 hmap (by decide)
  have hfind : m.shm_find longName = some 0 := by
    rw [Memory.shm_find, hshm]
    simp only [update_apply, apply_ite Shm.name]
    decide +kernel
  have hslot : P.procSHM_nameFind longName = some 1 := by
    rw [Proc.procSHM_nameFind, hname]
    decide +kernel
  have hacc : (m.shm_arr 0).numAccess > 1 := by
    rw [hshm, update_self]
    exact show (2 : Int) > 1 by decide
  refine ⟨{ P.dropSlot 1 with pgdir := cleared.setPte (2 * PGSIZE) e, sz := 3 * PGSIZE }, ?_, ?_,
    ?_⟩
  · have hdealloc : m.deallocshm P (4 * PGSIZE) (3 * PGSIZE) 1 0 = .ok (some (3 * PGSIZE), m,
        { P.dropSlot 1 with pgdir := cleared.setPte (2 * PGSIZE) e, sz := 3 * PGSIZE }) := by
      have hless : P.szLess = 3 * PGSIZE := by rw [Proc.szLess, hsz]; decide
      have hva : (2 * PGSIZE + PGSIZE) % 2 ^ 32 = 3 * PGSIZE := by decide
      unfold Memory.deallocshm
      rw [if_neg (by decide), hv, h2]
      simp only [Option.isNone_some, Bool.false_eq_true, if_false, if_true, hless, hsz, hva]
      rw [if_neg (by decide)]
      exact bind_eq_ok.2 ⟨_, hloop, rfl⟩
    have halloc : m.shm_alloc P (-4096) 1 0 0 = .ok (true, m,
        { P.dropSlot 1 with pgdir := cleared.setPte (2 * PGSIZE) e, sz := 3 * PGSIZE }) := by
      unfold Memory.shm_alloc
      rw [hsz]
      simp only [show ¬ (-4096 : Int) > 0 by decide, if_false, show (-4096 : Int) < 0 by decide,
        if_true, show ((((4 * PGSIZE : Nat) : Int) + -4096) % 2 ^ 32).toNat = 3 * PGSIZE by decide]
      exact bind_eq_ok.2 ⟨_, hdealloc, rfl⟩
    unfold Memory.shm_rem
    rw [hfind, hslot]
    simp only [hacc, if_true]
    exact bind_eq_ok.2 ⟨_, halloc, rfl⟩
  · have : (cleared.setPte (2 * PGSIZE) e).pte (2 * PGSIZE) = some e := pte_setPte_self hc2
    exact ⟨by decide, by rw [entry, this]; rfl, by rw [entry, this]; rfl⟩
  · have : (cleared.setPte (2 * PGSIZE) e).pte (3 * PGSIZE) = some e :=
      (pte_setPte_ne (by decide) (by decide) (by decide) _).trans hc3
    exact ⟨by decide, by rw [entry, this]; rfl, by rw [entry, this]; rfl⟩

/-- The first process creates a region with a name of sixteen bytes, attaches to it, grows by a page
and gives the region up. Its last two pages are then one private frame. -/
theorem not_owned : ∃ s, system.Reach s ∧ ¬ Owned s := by
  obtain ⟨kp, m0, P0, m1, P1, f, fs, hb, -, hout1, hc, hfs, hnd, hf, hlen⟩ :=
    exists_created (show refused longName 16 = false by decide) (by decide)
  obtain ⟨m2, P2, hout2, ha, hfs2⟩ := hc.again kp hf
  obtain ⟨g, gs, hg⟩ := List.exists_cons_of_length_pos (l := fs) (by omega)
  have hfg : f ≠ g := by
    rw [hg] at hnd
    exact List.ne_of_not_mem_cons (List.nodup_cons.1 hnd).1
  have hfl : m2.freelist = g :: gs := by rw [hfs2, hfs, hg]
  have hgrow := growproc_page (growable hfl ha.sz (by decide) ha.empty)
  obtain ⟨h3, hother, -⟩ := mapNext_pte ha.sz (by decide) ha.empty g
  set m3 := Memory.fill { m2 with freelist := gs } g 0 with hm3
  obtain ⟨P4, hrem, hmap2, hmap3⟩ := shm_rem_moves (m := m3)
    (P := { P2 with pgdir := P2.mapNext g, sz := P2.sz + PGSIZE }) (g := g) ha.shm_arr
    (by rw [ha.sz]; rfl)
      ha.shm_name ha.shm_vir ((hother 2 (by decide) (by decide)).trans ha.page) h3
  have hreach : system.Reach (solo kp (m3.addAccess 0 (-1)) P4) :=
    .step (.step (.step (.step (.init hb) (.ok hout1)) (.ok hout2))
      (.ok (solo_growproc ha.oom ha.zombie hgrow)))
      (.ok (solo_shm_rem ha.oom ha.zombie (show refused longName 16 = false by decide) hrem))
  refine ⟨_, hreach, fun ho => ?_⟩
  have hP : (solo kp (m3.addAccess 0 (-1)) P4).proc 0 =
      some P4 := by simp [solo]
  obtain ⟨i, hi, hphys⟩ := ho.shared hP hP hmap2 hmap3 (by decide)
  have hentry : (m3.addAccess 0 (-1)).shm_arr i =
      if i = 0 then { name := longName, numAccess := 1, shmPhys := f * PGSIZE }
      else { name := DNE, numAccess := 0, shmPhys := 0 } := by
    rw [addAccess_apply]
    show (if i = 0 then { m2.shm_arr i with
      numAccess := (m2.shm_arr i).numAccess + -1 } else m2.shm_arr i) = _
    rw [ha.shm_arr]
    rcases eq_or_ne i 0 with rfl | hi
    · simp only [if_true, update_self]
      rfl
    · simp only [if_neg hi, update_of_ne hi]
      rfl
  rw [show (solo kp (m3.addAccess 0 (-1)) P4).mem =
    m3.addAccess 0 (-1) from rfl, hentry] at hi hphys
  split at hi
  · next h0 =>
    rw [if_pos h0] at hphys
    exact hfg (mul_PGSIZE_inj hphys)
  · exact hi rfl

end Msboss.Vm
