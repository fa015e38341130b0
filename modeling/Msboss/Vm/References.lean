import Msboss.Vm.Ownership

/-!
# Reference counts of shared regions

`numAccess` of a region in use is the number of user pages that map its frame, over all processes
not yet reaped (`Counted`), in every run of successful `shm_get`, `fork`, `exit`, `wait` and
`growproc` calls in which `kalloc` does not fail. The ledger has one half of this, since pages are
never mapped without being counted; the other half is that on such runs no access is counted whose
page is not mapped.
-/

namespace Msboss.Vm

/-- How many pages of the user half are mapped to the address. -/
def PageDir.refs (d : PageDir) (pa : Nat) : Nat :=
  ((Finset.range UPAGES).filter fun vp => (d.entry vp).p = true ∧ (d.entry vp).addr = pa).card

/-- How many pages of all processes not yet reaped are mapped to the address. -/
def State.refs (s : State) (pa : Nat) : Nat := ∑ p, slot (·.pgdir.refs pa) (s.proc p)

/-- The count of every region in use is right. -/
def Counted (s : State) : Prop :=
  ∀ i, (s.mem.shm_arr i).Named →
    (s.mem.shm_arr i).numAccess = s.refs (s.mem.shm_arr i).shmPhys

/-- One of the calls in question, or a store by a user program. -/
def Act.Counting : Act → Prop
  | .shm_get .. | .fork _ | .exit _ | .wait _ | .growproc .. | .store .. => True
  | .exec .. | .shm_rem .. => False

/-- The step is such a call, succeeds, and finds memory. -/
def Smooth (s : State) (a : Act) : Prop :=
  a.Counting ∧ ∃ s', s.outcome a = some (.ok (true, s')) ∧ s'.mem.oom = false

section
variable {s s' : State} {p : Pid} {P P' : Proc} {m' : Memory}

/-- The references of a directory are its count. -/
theorem refs_eq_user (d : PageDir) (f : Frame) : d.refs (f * PGSIZE) = d.user f := by
  rw [PageDir.refs, Finset.card_filter]
  refine Finset.sum_congr rfl fun vp _ => ?_
  have : (d.entry vp).addr = f * PGSIZE ↔ (d.entry vp).frame = f :=
    ⟨mul_PGSIZE_inj, fun h => by rw [Pte.addr, h]⟩
  simp only [Pte.count, this]

/-- The references of all are the count of all. -/
theorem refs_eq_mapped (s : State) (f : Frame) : s.refs (f * PGSIZE) = s.mapped f := by
  simp only [State.refs, State.mapped, refs_eq_user]

/-- The ledger, with exact counts. -/
structure Exact (s : State) : Prop where
  ledger : Ledger s
  access : ∀ {i : Slot} {f : Frame}, 0 < f → (s.mem.shm_arr i).shmPhys = f * PGSIZE →
    (s.mem.shm_arr i).numAccess = s.mapped f

/-- The invariant says what the counts are. -/
theorem Exact.counted (h : Exact s) : Counted s := fun i hi => by
  obtain ⟨f, hf, hphys⟩ := h.ledger.tidy.placed i hi
  rw [hphys, refs_eq_mapped]
  exact h.access hf hphys

/-- A shift of the counts that counts what it maps. -/
theorem Exact.shift (h : Exact s) (hS : Shift s s')
    (heq : ∀ {i : Slot} {f : Frame}, 0 < f → (s.mem.shm_arr i).shmPhys = f * PGSIZE →
      (s.mapped f : Int) + (s'.mem.shm_arr i).numAccess =
        s'.mapped f + (s.mem.shm_arr i).numAccess) : Exact s' := by
  refine ⟨h.ledger.shift hS, fun {i f} hf hi => ?_⟩
  rw [(hS.regions i).2] at hi
  have h1 := h.access hf hi
  have h2 := heq hf hi
  omega

/-- `growproc` maps and unmaps private pages only. -/
theorem Exact.grow (h : Exact s) (hP : s.proc p = some P)
    (hg : s.mem.growproc P n = .ok (b, m', P')) : Exact (s.set m' p (some P')) := by
  obtain ⟨hM, hs, hk, hsz⟩ := growproc_moves (h.ledger.size hP) hg
  have hS := hM.shift h.ledger hP hk hs fun _ => hsz
  refine h.shift hS fun {i f} hf hi => ?_
  have h1 := hS.access hf hi
  have h2 := hM.held f ⟨hf, i, hi⟩
  have h3 := s.mapped_set m' p (some P') f
  rw [slot_of_eq hP, slot_some] at h3
  have h4 : (s.set m' p (some P')).mem = m' := rfl
  rw [h4, hs] at h1 ⊢
  omega

/-- `shm_get` that creates a region, and maps it. -/
theorem Exact.create (h : Exact s) (hP : s.proc p = some P) (hr : refused name length = false)
    (hname : P.procSHM_nameFind name = none) (href : P.procSHM_findFree = some ref)
    (hfind : s.mem.shm_find name = none)
    (hlt : P.sz + PGSIZE < KERNBASE) (hk : s.mem.kalloc = (some f, m1))
    (hmap : (m1.fill f 0).mappages P.pgdir (PGROUNDUP P.sz) PGSIZE (f * PGSIZE) true true =
      .ok (true, m2, d)) (hi : m2.shm_findFree = some i) :
    Exact (s.set (m2.enrol i (strncpy name 16) (f * PGSIZE)) p
      (some ((P.within ref d (f * PGSIZE)).setName ref (safestrcpy name 16)))) := by
  have hfl := (kalloc_some hk).1
  have hl := h.ledger.got hP hr (fun _ hn => by rw [hfl] at hn; cases hn)
    (Got.created hname href hfind hlt hk hmap hi : Got s.mem P name 0 _ _ _)
  refine ⟨hl, fun {j g} hg hj => ?_⟩
  have ha := PGROUNDUP_mod P.sz
  have halt := (PGROUNDUP_lt hlt).trans hlt
  obtain ⟨d1, hW, -, -⟩ := mappages_page ha (halt.trans (by decide)) hmap
  have hs : m2.shm_arr = s.mem.shm_arr := hW.shm_arr.trans (by rw [(kalloc_some hk).2]; rfl)
  have huser := (mappages_user ha halt hmap g).2
  rw [Nat.mul_div_cancel f (by decide)] at huser
  have hset := s.mapped_set (m2.enrol i (strncpy name 16) (f * PGSIZE)) p
    (some ((P.within ref d (f * PGSIZE)).setName ref (safestrcpy name 16))) g
  rw [slot_of_eq hP, slot_some, show ((P.within ref d (f * PGSIZE)).setName ref
    (safestrcpy name 16)).pgdir = d from rfl] at hset
  have hmem : ∀ P', (s.set (m2.enrol i (strncpy name 16) (f * PGSIZE)) p P').mem =
    m2.enrol i (strncpy name 16) (f * PGSIZE) := fun _ => rfl
  rw [hmem] at hj ⊢
  rw [enrol_apply] at hj ⊢
  have hfree : 1 ≤ s.mem.freelist.count f := by rw [hfl]; simp
  have hnr : ¬ s.mem.Region f := fun hr => by
    have := h.ledger.free_of_region hr
    omega
  by_cases hji : j = i
  · rw [if_pos hji] at hj ⊢
    have hgf : f = g := mul_PGSIZE_inj hj
    subst hgf
    have h0 : (m2.shm_arr i).numAccess = 0 := by
      have := not_named_of_findFree hi
      rw [hs] at this ⊢
      exact (h.ledger.tidy.unused i this).2
    have h1 := h.ledger.once f hnr
    have h2 := s.own_le_kernel hP f
    rw [if_pos ⟨rfl, rfl⟩] at huser
    simp only [h0]
    omega
  · rw [if_neg hji] at hj ⊢
    rw [hs] at hj ⊢
    have hgf : f ≠ g := by
      rintro rfl
      exact hnr ⟨hg, j, hj⟩
    rw [if_neg fun h => hgf h.2] at huser
    have h1 := h.access hg hj
    omega

/-- `shm_get` that attaches to a region, and maps it. -/
theorem Exact.attach (h : Exact s) (hP : s.proc p = some P)
    (hr : refused name length = false) (hfind : s.mem.shm_find name = some i)
    (hlt : P.sz + PGSIZE < KERNBASE)
    (hmap : s.mem.mappages P.pgdir (PGROUNDUP P.sz) PGSIZE (s.mem.shm_arr i).shmPhys true true =
      .ok (true, m2, d)) : Exact (s.set (m2.addAccess i 1) p
      (some ((P.within ref d junk).setName ref (strncpy name 16)))) := by
  obtain ⟨f, hf, hphys⟩ := h.ledger.found hr hfind
  rw [hphys] at hmap
  have ha := PGROUNDUP_mod P.sz
  have halt := (PGROUNDUP_lt hlt).trans hlt
  obtain ⟨d1, hW, -, -⟩ := mappages_page ha (halt.trans (by decide)) hmap
  have hS : Shift s (s.set (m2.addAccess i 1) p
      (some ((P.within ref d junk).setName ref (strncpy name 16)))) :=
    shift_attach hP (by rfl) h.ledger.tidy hf hphys ha halt hmap hlt
  refine h.shift hS fun {j g} hg hj => ?_
  have huser := (mappages_user ha halt hmap g).2
  rw [Nat.mul_div_cancel f (by decide)] at huser
  have hset := s.mapped_set (m2.addAccess i 1) p
    (some ((P.within ref d junk).setName ref (strncpy name 16))) g
  rw [slot_of_eq hP, slot_some,
    show ((P.within ref d junk).setName ref (strncpy name 16)).pgdir = d from rfl] at hset
  have hmem : ∀ P', (s.set (m2.addAccess i 1) p P').mem = m2.addAccess i 1 := fun _ => rfl
  have hR : SameRegions s.mem m2 := .of_eq hW.shm_arr
  rw [hmem, (hR.distinct h.ledger.tidy.distinct).numAccess_addAccess
    (by rw [hW.shm_arr]; exact hphys) (by rw [hW.shm_arr]; exact hj) hg, hW.shm_arr]
  by_cases hfg : f = g
  · rw [if_pos ⟨rfl, hfg⟩] at huser
    rw [if_pos hfg]
    omega
  · rw [if_neg fun h => hfg h.2] at huser
    rw [if_neg hfg]
    omega

/-- A successful `shm_get` that finds memory. -/
theorem Exact.got (h : Exact s) (hP : s.proc p = some P)
    (hr : refused name length = false) (hva : va ≠ 0) (hoom : m'.oom = false)
    (hg : Got s.mem P name junk va m' P') : Exact (s.set m' p (some P')) := by
  cases hg with
  | known _ =>
    have hS : Shift s (s.set s.mem p (some P)) := shift_set hP rfl (fun _ _ => le_rfl)
      (fun _ _ => le_rfl) rfl (.refl _) (fun _ _ => rfl) (fun _ _ => le_rfl) id
    refine h.shift hS fun {i f} _ _ => ?_
    have hset := s.mapped_set s.mem p (some P) f
    rw [slot_of_eq hP, slot_some] at hset
    have hmem : (s.set s.mem p (some P)).mem = s.mem := rfl
    rw [hmem]
    omega
  | failed => exact absurd rfl hva
  | starved => exact absurd rfl hva
  | @created ref i f m1 m2 c d hname href hfind hlt hk hmap hi =>
    cases c with
    | true => exact h.create hP hr hname href hfind hlt hk hmap hi
    | false =>
      -- `mappages` fails for want of memory only
      obtain ⟨d1, -, -, hf⟩ := mappages_page (PGROUNDUP_mod _)
        (((PGROUNDUP_lt hlt).trans hlt).trans (by decide)) hmap
      have : m2.oom = false := hoom
      rw [(hf rfl).2.1] at this
      cases this
  | @attached ref i m2 c d hname href hfind hlt hmap =>
    cases c with
    | true => exact h.attach hP hr hfind hlt hmap
    | false =>
      obtain ⟨d1, -, -, hf⟩ := mappages_page (PGROUNDUP_mod _)
        (((PGROUNDUP_lt hlt).trans hlt).trans (by decide)) hmap
      have : m2.oom = false := hoom
      rw [(hf rfl).2.1] at this
      cases this

/-- A smooth call keeps the counts exact. -/
theorem Exact.call (h : Exact s) (hP : s.proc a.pid = some P) (hc : a.Counting)
    (hoom : s'.mem.oom = false) (hcall : s.call P a = some (.ok (true, s'))) : Exact s' := by
  cases a with
  | growproc p n =>
    obtain ⟨⟨ok, m', P'⟩, hg, hcall⟩ := bind_eq_ok.1 (Option.some.inj hcall)
    cases hcall
    exact h.grow hP hg
  | fork p =>
    obtain ⟨hS, heq⟩ := shift_fork_true h.ledger hP (Option.some.inj hcall)
    exact h.shift hS heq
  | exec => exact absurd hc id
  | exit p =>
    obtain ⟨hS, hm, hmem⟩ := shift_exit (Option.some.inj hcall)
    exact h.shift hS fun _ _ => by rw [hm, hmem]
  | wait p =>
    obtain ⟨hS, heq⟩ := shift_wait h.ledger hcall
    exact h.shift hS heq
  | shm_get p name length junk =>
    obtain ⟨⟨va, m', P'⟩, hg, hcall⟩ := bind_eq_ok.1 (Option.some.inj hcall)
    simp only [Except.ok.injEq, Prod.mk.injEq, decide_eq_true_eq] at hcall
    obtain ⟨hva, rfl⟩ := hcall
    unfold Memory.sys_shm_get at hg
    split at hg
    · cases hg
      exact absurd rfl hva
    · next hr =>
      have hr : refused name length = false := by simpa using hr
      exact h.got hP hr hva hoom
        (shm_get_cases (h.ledger.size hP) (h.ledger.found_ne_zero hr) hg)
  | shm_rem => exact absurd hc id
  | store p va x =>
    simp only [State.call] at hcall
    split at hcall
    · split at hcall
      · cases hcall
        exact ⟨h.ledger.page _ _, h.access⟩
      · cases hcall
    · cases hcall

/-- A step keeps the invariant. -/
theorem Exact.step (h : Exact s) (hs : Smooth s a) (hst : Step s a s') : Exact s' := by
  obtain ⟨hc, s1, hout, hoom⟩ := hs
  have he : Exact { s with mem := { s.mem with oom := false } } :=
    ⟨h.ledger.page _ _, h.access⟩
  obtain ⟨P, hP, hcall⟩ := outcome_eq_some hout
  cases hst with
  | ok hok =>
    rw [hout] at hok
    cases hok
    exact he.call (a := a) hP hc hoom hcall
  | wild hw =>
    rw [hout] at hw
    cases hw

/-- After boot there is no region. -/
theorem Booted.exact (hb : Booted s) : Exact s := by
  refine ⟨hb.ledger, fun {i f} hf hi => ?_⟩
  obtain ⟨fl, page, initcode, -, -, hb⟩ := hb
  have hs : s.mem.shm_arr = shm_init := boot_shm_arr hb
  exact absurd ⟨hf, i, hi⟩ (not_region_of_init hs f)

end

/-- **Reference counts.** In every run of successful calls from boot, with memory enough, every
region's count is the number of pages that map it. -/
theorem counted_of_smooth {s : State} (h : (system.restrict Smooth).Reach s) : Counted s := by
  refine Exact.counted (h.invariant (fun s hb => ?_) fun s a s' he hst => ?_)
  · exact Booted.exact hb
  · exact he.step hst.1 hst.2

/-- The first process creates a region. -/
theorem counted_created : ∃ s, (system.restrict Smooth).Reach s ∧ (s.mem.shm_arr 0).Named ∧
    Counted s := by
  obtain ⟨kp, m0, P0, m, P, f, fs, hb, -, hout, hc, -⟩ :=
    exists_created (show refused [97] 1 = false by decide) (by decide)
  have hsmooth : Smooth (solo kp m0 P0) (.shm_get 0 [97] 1 0) := ⟨trivial, _, hout, hc.oom⟩
  have hreach : (system.restrict Smooth).Reach (solo kp m P) :=
    .step (.init hb) ⟨hsmooth, .ok hout⟩
  refine ⟨_, hreach, ?_, counted_of_smooth hreach⟩
  show (m.shm_arr 0).Named
  rw [hc.shm_arr, Function.update_self]
  exact show strncpy [97] 16 ≠ DNE by decide

end Msboss.Vm
