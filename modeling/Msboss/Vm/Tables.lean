import Msboss.Vm.Ownership

/-!
# The region tables of a process

Each slot of a process that has a name should name a region of `shm_arr`, hold that region's
address, and say where the process has it mapped (`Agrees`). Three calls fill slots: `shm_get` when
it creates a region, `shm_get` when it attaches to one, and `fork`, which looks the parent's
addresses up again in the child's page table.

What stands in the way is in `shm_get` alone (`Recorded`): the address it stores when it attaches is
an uninitialised variable, the names it compares have sixteen bytes while those it and `fork` store
have fifteen, and it does not look whether `mappages` has mapped the page.
-/

namespace Msboss.Vm

open Function Memory PageDir

/-! ## The property -/

/-- Slot `i` of the process is about a region, with its address, mapped where it says. -/
def Proc.SlotAgrees (m : Memory) (P : Proc) (i : Slot) : Prop :=
  ∃ j, strncmp (m.shm_arr j).name (P.shm_name i) 16 = true ∧
    P.shm_phys i = (m.shm_arr j).shmPhys ∧ P.pgdir.Maps (P.shm_vir i) (m.shm_arr j).shmPhys

/-- Every named slot of every process. -/
def Agrees (s : State) : Prop :=
  ∀ {p : Pid} {P : Proc}, s.proc p = some P → ∀ i, P.shm_name i ≠ DNE → P.SlotAgrees s.mem i

/-- `shm_get`, `fork`, or a store by a user program. -/
def Act.Filing : Act → Prop
  | .shm_get .. | .fork _ | .store .. => True
  | _ => False

/-- The step is such a call and succeeds. -/
def Sharing (s : State) (a : Act) : Prop := a.Filing ∧ ∃ s', s.outcome a = some (.ok (true, s'))

/-- The page that the process would grow by has a page table, or there is a frame for one besides
`n` others. -/
def Proc.Room (P : Proc) (m : Memory) (n : Nat) : Prop :=
  (P.pgdir.pte (PGROUNDUP P.sz)).isSome = true ∨ n < m.freelist.length

/-- The condition under which the tables stay right: `shm_get` is given a name of at most fifteen
bytes, has memory for a page table if it needs one, and, if it attaches, the uninitialised variable
happens to hold the address of the region. -/
def Recorded (s : State) : Act → Prop
  | .shm_get p name _ junk => name.length < 16 ∧
      ∀ P ∈ s.proc p, P.procSHM_nameFind name = none →
        (s.mem.shm_find name = none → P.Room s.mem 1) ∧
          ∀ i ∈ s.mem.shm_find name, P.Room s.mem 0 ∧ junk = (s.mem.shm_arr i).shmPhys
  | _ => True

/-! ## Pages -/

section
variable {m m' : Memory} {d d' : PageDir} {va vb pa pb : Nat} {w u : Bool}

/-- What the directory maps, by its entries. -/
theorem PageDir.maps_iff : d.Maps va pa ↔
      va < KERNBASE ∧ (d.entry (va / PGSIZE)).p = true ∧ (d.entry (va / PGSIZE)).addr = pa := by
  rw [entry_div]
  refine and_congr_right fun _ => ⟨fun ⟨e, he, h⟩ => by rw [he]; exact h, fun h => ?_⟩
  cases he : d.pte va with
  | none => rw [he] at h; exact absurd h.1 (by decide)
  | some e => rw [he] at h; exact ⟨e, rfl, h⟩

/-- `mappages` maps the page. -/
theorem maps_mappages (hva : va % PGSIZE = 0) (hlt : va < KERNBASE) (hpa : pa % PGSIZE = 0)
    (h : m.mappages d va PGSIZE pa w u = .ok (true, m', d')) : d'.Maps va pa := by
  rw [maps_iff, mappages_entry hva hlt h (div_lt_UPAGES hlt), if_pos rfl]
  exact ⟨hlt, rfl, Nat.div_mul_cancel (Nat.dvd_of_mod_eq_zero hpa)⟩

/-- `mappages` leaves the other pages. -/
theorem PageDir.Maps.mappages (hva : va % PGSIZE = 0) (hlt : va < KERNBASE)
    (h : m.mappages d va PGSIZE pa w u = .ok (true, m', d')) (hb : d.Maps vb pb)
    (hne : vb / PGSIZE ≠ va / PGSIZE) : d'.Maps vb pb := by
  rw [maps_iff] at hb ⊢
  rwa [mappages_entry hva hlt h (div_lt_UPAGES hb.1), if_neg hne]

end

/-! ## `copyuvm` -/

/-- From `d` to `d'` the `n` pages from page `k` on have been mapped, to the frames that `pgdir` has
there where those are regions, and the pages before left alone. -/
structure Shares (m : Memory) (pgdir d d' : PageDir) (k n : Nat) : Prop where
  old : ∀ vp < k, d'.entry vp = d.entry vp
  present : ∀ vp, k ≤ vp → vp < k + n → (d'.entry vp).p = true
  frame : ∀ vp, k ≤ vp → vp < k + n → m.Region (pgdir.entry vp).frame →
    (d'.entry vp).frame = (pgdir.entry vp).frame

section
variable {m m1 m2 m' : Memory} {pgdir d d2 d' : PageDir} {k n : Nat}

/-- One page is mapped, and then the rest. -/
theorem Shares.cons (hk : k + (n + 1) ≤ UPAGES) (hR : SameRegions m m1)
    (hmap : m1.mappages d (k * PGSIZE) PGSIZE pa w u = .ok (true, m2, d2))
    (hpa : m.Region (pgdir.entry k).frame → pa / PGSIZE = (pgdir.entry k).frame)
    (h : Shares m2 pgdir d2 d' (k + 1) n) : Shares m pgdir d d' k (n + 1) := by
  have hlt : k * PGSIZE < KERNBASE := by simp only [UPAGES, KERNBASE, PGSIZE] at *; omega
  have hmod : k * PGSIZE % PGSIZE = 0 := Nat.mul_mod_left ..
  have hent {vp : Nat} (hvp : vp < UPAGES) := mappages_entry hmod hlt hmap hvp
  rw [Nat.mul_div_cancel k (by decide)] at hent
  obtain ⟨d1, hW, -, -⟩ := mappages_page hmod (hlt.trans (by decide)) hmap
  have hR2 : SameRegions m m2 := hR.trans (.of_eq hW.shm_arr)
  have hself : d'.entry k = { frame := pa / PGSIZE, p := true, w, u } := by
    rw [h.old k (by omega), hent (by omega), if_pos rfl]
  refine ⟨fun vp hvp => ?_, fun vp hle hvp => ?_, fun vp hle hvp hreg => ?_⟩
  · rw [h.old vp (by omega), hent (by omega), if_neg (by omega)]
  · rcases Nat.eq_or_lt_of_le hle with rfl | hlt'
    · rw [hself]
    · exact h.present vp hlt' (by omega)
  · rcases Nat.eq_or_lt_of_le hle with rfl | hlt'
    · rw [hself]
      exact hpa hreg
    · exact h.frame vp hlt' (by omega) (hR2.region.2 hreg)

/-- The entry of page `k`. -/
theorem entry_of_page (h : d.pte (k * PGSIZE) = some e) : d.entry k = e := by
  rw [← entry_of_pte h, Nat.mul_div_cancel k (by decide)]

/-- The loop of `copyuvm` shares the pages of regions. -/
theorem copyLoop_shares (hk : k + n ≤ UPAGES)
    (h : copyLoop pgdir n m d (k * PGSIZE) = .ok (true, m', d')) : Shares m pgdir d d' k n := by
  induction n generalizing m d k with
  | zero =>
    cases h
    exact ⟨fun _ _ => rfl, fun vp h1 h2 => absurd h2 (by omega),
      fun vp h1 h2 => absurd h2 (by omega)⟩
  | succ n ih =>
    obtain ⟨e, he, -, ⟨-, -, hb, -⟩ | ⟨m1, pa, c, m2, d2, hpage, hmap, hloop⟩⟩ := copyLoop_succ h
    · cases hb
    have hentry := entry_of_page he
    cases c with
    | false => cases hloop
    | true =>
      rw [← Nat.succ_mul] at hloop
      cases hpage with
      | @share i =>
        refine .cons hk (sameRegions_addAccess m i 1) hmap (fun _ => ?_) (ih (by omega) hloop)
        rw [hentry]
        exact Nat.mul_div_cancel _ (by decide)
      | @copy f m1 hno hka =>
        have hs : (m1.copyFrame f e.frame).shm_arr = m.shm_arr := by rw [(kalloc_some hka).2]; rfl
        refine .cons hk (.of_eq hs) hmap (fun ⟨_, i, hi⟩ => ?_) (ih (by omega) hloop)
        rw [hentry] at hi
        exact absurd hi (hno i)

/-- A copy of a process shares the pages of regions with it. -/
theorem copyuvm_shares (hsz : sz < KERNBASE) (h : m.copyuvm pgdir sz = .ok (some d', m')) :
    ∃ d, Shares m pgdir d d' 0 ((sz + (PGSIZE - 1)) / PGSIZE) := by
  obtain ⟨m1, d, hkvm, hl⟩ := copyuvm_eq_some h
  have hR : SameRegions m m1 := .of_eq (setupkvm_some hkvm).1
  have hn : 0 + (sz + (PGSIZE - 1)) / PGSIZE ≤ UPAGES := by
    simp only [UPAGES, KERNBASE, PGSIZE] at *; omega
  have hS := copyLoop_shares (k := 0) hn (by rw [Nat.zero_mul]; exact hl)
  exact ⟨d, hS.old, hS.present, fun vp h1 h2 hreg => hS.frame vp h1 h2 (hR.region.2 hreg)⟩

end

/-! ## `shm_assign` -/

section
variable {m : Memory} {cur d : PageDir} {physLoc : Nat}

/-- `shm_assign` finds a page with the address if there is one. -/
theorem assignLoop_found (hp : ∀ vp, k ≤ vp → vp < k + n → (d.entry vp).p = true)
    (hex : ∃ vp, k ≤ vp ∧ vp < k + n ∧ (d.entry vp).addr = physLoc)
    (h : m.assignLoop cur d physLoc n (k * PGSIZE) = .ok v) :
    ∃ vp, k ≤ vp ∧ vp < k + n ∧ v = vp * PGSIZE ∧ (d.entry vp).addr = physLoc := by
  induction n generalizing k with
  | zero =>
    obtain ⟨vp, h1, h2, -⟩ := hex
    omega
  | succ n ih =>
    have hk := hp k le_rfl (by omega)
    obtain ⟨e, hpte, hentry⟩ : ∃ e, d.pte (k * PGSIZE) = some e ∧ d.entry k = e := by
      cases hpte : d.pte (k * PGSIZE) with
      | none => rw [entry, hpte] at hk; exact absurd hk (by decide)
      | some e => exact ⟨e, rfl, by rw [entry, hpte]; rfl⟩
    simp only [assignLoop, hpte, ← Nat.succ_mul] at h
    change (if e.addr = physLoc then _ else _) = _ at h
    split at h
    · next haddr =>
      cases h
      exact ⟨k, le_rfl, by omega, rfl, by rw [hentry]; exact haddr⟩
    next haddr =>
    obtain ⟨vp, h1, h2, h3⟩ := hex
    have hne : vp ≠ k := by
      rintro rfl
      rw [hentry] at h3
      exact haddr h3
    obtain ⟨vq, h4, h5, h6⟩ := ih (k := k + 1) (fun vp h1 h2 => hp vp (by omega) (by omega))
      ⟨vp, by omega, by omega, h3⟩ h
    exact ⟨vq, by omega, by omega, h6⟩

/-- The loop of `fork` stores what `shm_assign` finds. -/
theorem inherit_apply (hnd : is.Nodup) (h : m.inherit P d is vir = .ok vir') :
    (∀ i ∉ is, vir' i = vir i) ∧
      ∀ i ∈ is, m.shm_assign P.pgdir d P.sz (P.shm_phys i) = .ok (vir' i) := by
  induction is generalizing vir with
  | nil =>
    cases h
    exact ⟨fun _ _ => rfl, nofun⟩
  | cons j is ih =>
    obtain ⟨v, hv, h⟩ := bind_eq_ok.1 h
    obtain ⟨hj, hnd⟩ := List.nodup_cons.1 hnd
    obtain ⟨hout, hin⟩ := ih hnd h
    refine ⟨fun i hi => ?_, fun i hi => ?_⟩
    · rw [List.mem_cons, not_or] at hi
      rw [hout i hi.2, update_of_ne hi.1]
    · rcases List.mem_cons.1 hi with rfl | hi
      · rw [hout i hj, update_self]
        exact hv
      · exact hin i hi

end

/-! ## The invariant -/

/-- Slot `i` of the process records the region `j`, at a page below its size. -/
structure Proc.Files (P : Proc) (m : Memory) (i j : Slot) : Prop where
  name : (m.shm_arr j).name = P.shm_name i
  short : (P.shm_name i).length < 16
  phys : P.shm_phys i = (m.shm_arr j).shmPhys
  below : P.shm_vir i < P.sz
  maps : P.pgdir.Maps (P.shm_vir i) (m.shm_arr j).shmPhys

/-- The ledger, with every named slot filed. -/
structure Filed (s : State) : Prop where
  ledger : Ledger s
  files : ∀ {p : Pid} {P : Proc}, s.proc p = some P → ∀ i, P.shm_name i ≠ DNE →
    ∃ j, P.Files s.mem i j

section
variable {s s' : State} {p : Pid} {P P' : Proc} {m m' m2 : Memory} {d : PageDir} {i j ref : Slot}
  {name : List UInt8}

/-- On fewer than sixteen bytes `strncmp` is equality. -/
theorem eq_of_take (hn : name.length < 16) (h : l.take 16 = name.take 16) : l = name := by
  rw [List.take_of_length_le hn.le] at h
  have hlen := congrArg List.length h
  rw [List.length_take] at hlen
  rw [← h, List.take_of_length_le (by omega)]

/-- The invariant implies the agreement. -/
theorem Filed.agrees (h : Filed s) : Agrees s := fun hP i hi => by
  obtain ⟨j, hj⟩ := h.files hP i hi
  refine ⟨j, ?_, hj.phys, hj.maps⟩
  rw [hj.name]
  exact beq_self_eq_true _

/-- The entry of the region is the same. -/
theorem Proc.Files.same (h : P.Files m i j) (hR : (m'.shm_arr j).name = (m.shm_arr j).name ∧
    (m'.shm_arr j).shmPhys = (m.shm_arr j).shmPhys) : P.Files m' i j where
  name := hR.1.trans h.name
  short := h.short
  phys := h.phys.trans hR.2.symm
  below := h.below
  maps := hR.2.symm ▸ h.maps

/-- The region of a named slot is in use. -/
theorem Proc.Files.named (h : P.Files m i j) (hi : P.shm_name i ≠ DNE) : (m.shm_arr j).Named :=
  fun hn => hi (h.name.symm.trans hn)

/-- A new page, mapped at the end of the process and filed in another slot. -/
theorem Proc.Files.within {phys : Nat} (h : P.Files m i j) (hne : i ≠ ref)
    (hlt : P.sz + PGSIZE < KERNBASE)
    (hmap : m2.mappages P.pgdir (PGROUNDUP P.sz) PGSIZE pa true true = .ok (true, m', d)) :
    ((P.within ref d phys).setName ref name).Files m i j := by
  have hvir : ((P.within ref d phys).setName ref name).shm_vir i = P.shm_vir i :=
    update_of_ne hne ..
  have hname : ((P.within ref d phys).setName ref name).shm_name i = P.shm_name i :=
    update_of_ne hne ..
  have hphys : ((P.within ref d phys).setName ref name).shm_phys i = P.shm_phys i :=
    update_of_ne hne ..
  have hpage : P.shm_vir i / PGSIZE ≠ PGROUNDUP P.sz / PGSIZE := by
    have := h.below
    simp only [PGROUNDUP, KERNBASE, PGSIZE] at *
    omega
  refine ⟨hname ▸ h.name, hname ▸ h.short, hphys ▸ h.phys, hvir ▸ ?_, hvir ▸ ?_⟩
  · exact h.below.trans_le (Nat.le_add_right _ _)
  · exact h.maps.mappages (PGROUNDUP_mod _) ((PGROUNDUP_lt hlt).trans hlt) hmap hpage

/-- The slot of the new page. -/
theorem Proc.files_within (hlt : P.sz + PGSIZE < KERNBASE) (hpa : pa % PGSIZE = 0)
    (hmap : m2.mappages P.pgdir (PGROUNDUP P.sz) PGSIZE pa true true = .ok (true, m', d))
    (hname : (m.shm_arr j).name = name) (hshort : name.length < 16)
    (hphys : (m.shm_arr j).shmPhys = pa) :
    ((P.within ref d pa).setName ref name).Files m ref j := by
  have hvir' : ((P.within ref d pa).setName ref name).shm_vir ref = PGROUNDUP P.sz :=
    update_self ..
  have hname' : ((P.within ref d pa).setName ref name).shm_name ref = name :=
    update_self ..
  have hphys' : ((P.within ref d pa).setName ref name).shm_phys ref = pa :=
    update_self ..
  refine ⟨hname'.symm ▸ hname, hname'.symm ▸ hshort, hphys'.trans hphys.symm, hvir'.symm ▸ ?_, ?_⟩
  · exact PGROUNDUP_lt hlt
  · rw [hvir', hphys]
    exact maps_mappages (PGROUNDUP_mod _) ((PGROUNDUP_lt hlt).trans hlt) hpa hmap

/-- A step of one process, over a change of the regions that the filed ones survive. -/
theorem Filed.set (h : Filed s) (hl : Ledger (s.set m' p (some P')))
    (hkeep : ∀ {Q : Proc} {i j}, Q.Files s.mem i j → Q.shm_name i ≠ DNE → Q.Files m' i j)
    (hP' : ∀ i, P'.shm_name i ≠ DNE → ∃ j, P'.Files m' i j) : Filed (s.set m' p (some P')) := by
  refine ⟨hl, fun {q Q} hQ i hi => ?_⟩
  rcases eq_or_ne q p with rfl | hq
  · simp only [State.set, update_self, Option.some.injEq] at hQ
    subst hQ
    exact hP' i hi
  · simp only [State.set, update_of_ne hq] at hQ
    obtain ⟨j, hj⟩ := h.files hQ i hi
    exact ⟨j, hkeep hj hi⟩

/-- The process that has grown by a page and filed it. -/
theorem Filed.grown (h : Filed s) (hP : s.proc p = some P)
    (hl : Ledger (s.set m' p (some ((P.within ref d pa).setName ref name))))
    (hkeep : ∀ {Q : Proc} {i j}, Q.Files s.mem i j → Q.shm_name i ≠ DNE → Q.Files m' i j)
    (hlt : P.sz + PGSIZE < KERNBASE) (hpa : pa % PGSIZE = 0)
    (hmap : m.mappages P.pgdir (PGROUNDUP P.sz) PGSIZE pa true true = .ok (true, m2, d))
    (hname : (m'.shm_arr j).name = name) (hshort : name.length < 16)
    (hphys : (m'.shm_arr j).shmPhys = pa) :
    Filed (s.set m' p (some ((P.within ref d pa).setName ref name))) := by
  refine h.set hl hkeep fun i hi => ?_
  rcases eq_or_ne i ref with rfl | hne
  · exact ⟨j, Proc.files_within hlt hpa hmap hname hshort hphys⟩
  · have hi' : P.shm_name i ≠ DNE := fun hn => hi ((update_of_ne hne ..).trans hn)
    obtain ⟨k, hk⟩ := h.files hP i hi'
    exact ⟨k, hkeep (hk.within hne hlt hmap) hi⟩

/-- A `shm_get` that succeeds, with what `Recorded` asks. -/
theorem Filed.got (h : Filed s) (hP : s.proc p = some P)
    (hr : refused name length = false) (hva : va ≠ 0) (hshort : name.length < 16)
    (hnew : P.procSHM_nameFind name = none → s.mem.shm_find name = none → P.Room s.mem 1)
    (hold : P.procSHM_nameFind name = none → ∀ i ∈ s.mem.shm_find name,
      P.Room s.mem 0 ∧ junk = (s.mem.shm_arr i).shmPhys)
    (hg : Got s.mem P name junk va m' P') : Filed (s.set m' p (some P')) := by
  have h16 : strncpy name 16 = name := List.take_of_length_le hshort.le
  have h15 : safestrcpy name 16 = name := List.take_of_length_le (Nat.le_of_lt_succ hshort)
  cases hg with
  | known _ =>
    have hS : Shift s (s.set s.mem p (some P)) := shift_set hP rfl (fun _ _ => le_rfl)
      (fun _ _ => le_rfl) rfl (.refl _) (fun _ _ => rfl) (fun _ _ => le_rfl) id
    exact h.set (h.ledger.shift hS) (fun hf _ => hf) (h.files hP)
  | failed => exact absurd rfl hva
  | starved => exact absurd rfl hva
  | @created ref i f m1 m2 c d hname href hfind hlt hk hmap hi =>
    have halt := (PGROUNDUP_lt hlt).trans hlt
    have hfl := (kalloc_some hk).1
    have hl := h.ledger.got hP hr (fun _ hn => by rw [hfl] at hn; cases hn)
      (Got.created hname href hfind hlt hk hmap hi : Got s.mem P name junk _ _ _)
    cases c with
    | false =>
      obtain ⟨hfree, hnone⟩ := mappages_false (PGROUNDUP_mod _) (halt.trans (by decide)) hmap
      have hfree : m1.freelist = [] := hfree
      rcases hnew hname hfind with hsome | hlen
      · rw [hnone] at hsome
        cases hsome
      · rw [hfl, hfree] at hlen
        exact absurd hlen (lt_irrefl 1)
    | true =>
      obtain ⟨d1, hW, -, -⟩ := mappages_page (PGROUNDUP_mod _) (halt.trans (by decide)) hmap
      have hs : m2.shm_arr = s.mem.shm_arr := hW.shm_arr.trans (by rw [(kalloc_some hk).2]; rfl)
      have hi' := not_named_of_findFree hi
      rw [hs] at hi'
      rw [h16, h15] at hl ⊢
      refine h.grown (j := i) hP hl (fun {Q k j} hf hq => hf.same ?_) hlt
        (Nat.mul_mod_left ..) hmap ?_ hshort ?_
      · have hne : j ≠ i := by
          rintro rfl
          exact hi' (hf.named hq)
        rw [enrol_apply, if_neg hne, hs]
        exact ⟨rfl, rfl⟩
      · rw [enrol_apply, if_pos rfl]
      · rw [enrol_apply, if_pos rfl]
  | @attached ref i m2 c d hname href hfind hlt hmap =>
    have halt := (PGROUNDUP_lt hlt).trans hlt
    have hl := h.ledger.got hP hr (fun hn => by rw [hfind] at hn; cases hn)
      (Got.attached hname href hfind hlt hmap : Got s.mem P name junk _ _ _)
    obtain ⟨hroom, rfl⟩ := hold hname i hfind
    cases c with
    | false =>
      obtain ⟨hfree, hnone⟩ := mappages_false (PGROUNDUP_mod _) (halt.trans (by decide)) hmap
      rcases hroom with hsome | hlen
      · rw [hnone] at hsome
        cases hsome
      · rw [hfree] at hlen
        exact absurd hlen (lt_irrefl 0)
    | true =>
      obtain ⟨f, -, hphys⟩ := h.ledger.found hr hfind
      obtain ⟨d1, hW, -, -⟩ := mappages_page (PGROUNDUP_mod _) (halt.trans (by decide)) hmap
      have hR : SameRegions s.mem (m2.addAccess i 1) :=
        SameRegions.trans (.of_eq hW.shm_arr) (sameRegions_addAccess m2 i 1)
      have hmod : (s.mem.shm_arr i).shmPhys % PGSIZE = 0 := by rw [hphys]; exact Nat.mul_mod_left ..
      rw [h16] at hl ⊢
      refine h.grown (j := i) hP hl (fun hf _ => hf.same (hR _)) hlt hmod hmap ?_ hshort (hR i).2
      exact (hR i).1.trans (eq_of_take hshort (shm_find_some hfind))

/-- The child of a `fork` has the parent's regions. -/
theorem Proc.Files.child {k f : Frame} {vir : Slot → Nat} (h : P.Files m i j) (hf : 0 < f)
    (hphys : (m.shm_arr j).shmPhys = f * PGSIZE) (hsz : P.sz < KERNBASE)
    (hc : m.copyuvm P.pgdir P.sz = .ok (some d, m'))
    (hv : m'.inherit P d (List.finRange SHM_MAXNUM) (fun _ => 0) = .ok vir) :
    (P.child p k d vir).Files m i j := by
  obtain ⟨d0, hS⟩ := copyuvm_shares hsz hc
  have hassign := (inherit_apply (List.nodup_finRange _) hv).2 i (List.mem_finRange i)
  have hlt : P.shm_vir i / PGSIZE < 0 + (P.sz + (PGSIZE - 1)) / PGSIZE := by
    have := h.below
    simp only [PGSIZE] at *
    omega
  obtain ⟨-, -, haddr⟩ := maps_iff.1 h.maps
  -- the parent's page is shared, so the search ends, there or earlier
  have hreg : m.Region (P.pgdir.entry (P.shm_vir i / PGSIZE)).frame := by
    rw [show (P.pgdir.entry _).frame = f from mul_PGSIZE_inj (haddr.trans hphys)]
    exact ⟨hf, j, hphys⟩
  have hshared : (d.entry (P.shm_vir i / PGSIZE)).addr = P.shm_phys i := by
    rw [h.phys, ← haddr, Pte.addr, hS.frame _ (Nat.zero_le _) hlt hreg, Pte.addr]
  obtain ⟨vp, -, hvp, hvir, hfound⟩ := assignLoop_found (k := 0) hS.present
    ⟨_, Nat.zero_le _, hlt, hshared⟩ (by rw [Nat.zero_mul]; exact hassign)
  have hname : safestrcpy (P.shm_name i) 16 = P.shm_name i :=
    List.take_of_length_le (Nat.le_of_lt_succ h.short)
  have hbelow : vir i < P.sz := by
    rw [hvir]
    simp only [PGSIZE] at *
    omega
  refine ⟨h.name.trans hname.symm, (congrArg List.length hname).trans_lt h.short, h.phys, hbelow,
    ?_⟩
  show d.Maps (vir i) _
  rw [maps_iff, hvir, Nat.mul_div_cancel _ (by decide), ← h.phys]
  exact ⟨hvir ▸ hbelow.trans hsz, hS.present vp (Nat.zero_le _) hvp, hfound⟩

/-- `fork` keeps the invariant. -/
theorem Filed.fork (h : Filed s) (hP : s.proc p = some P) (hf : s.fork p P = .ok (true, s')) :
    Filed s' := by
  have hl := h.ledger.shift (shift_fork_true h.ledger hP hf).1
  obtain ⟨q, ks, m1, d, m2, vir, hq, hk, hc, hv, rfl⟩ := fork_true hf
  have hsz := h.ledger.size hP
  have hs1 : m1.shm_arr = s.mem.shm_arr := by rw [(kalloc_some hk).2]
  have hR1 : SameRegions s.mem m1 := .of_eq hs1
  obtain ⟨g, hg⟩ := copyuvm_some (h.ledger.entry_pos hP) hsz.le hc
  refine h.set hl (fun hf _ => (hf.same (hR1 _)).same (hg.regions _)) fun i hi => ?_
  have hi' : P.shm_name i ≠ DNE := by
    intro hn
    exact hi (show safestrcpy (P.shm_name i) 16 = DNE by rw [hn]; rfl)
  obtain ⟨j, hj⟩ := h.files hP i hi'
  obtain ⟨f, hf, hphys⟩ := h.ledger.tidy.placed j (hj.named hi')
  have hchild := (hj.same (hR1 j)).child (p := p) (k := ks) hf ((hR1 j).2.trans hphys) hsz hc hv
  exact ⟨j, hchild.same (hg.regions j)⟩

/-- The contents of frames do not matter. -/
theorem Filed.page (h : Filed s) (page : Frame → Nat → UInt8) (oom : Bool) :
    Filed { s with mem := { s.mem with page, oom } } :=
  ⟨h.ledger.page page oom, fun hP i hi =>
    let ⟨j, hj⟩ := h.files hP i hi
    ⟨j, hj.name, hj.short, hj.phys, hj.below, hj.maps⟩⟩

/-- A successful call keeps the tables. -/
theorem Filed.call (h : Filed s) (hP : s.proc a.pid = some P) (hf : a.Filing)
    (hrec : Recorded s a) (hcall : s.call P a = some (.ok (true, s'))) : Filed s' := by
  cases a with
  | fork p => exact h.fork hP (Option.some.inj hcall)
  | shm_get p name length junk =>
    obtain ⟨⟨va, m', P'⟩, hg, hcall⟩ := bind_eq_ok.1 (Option.some.inj hcall)
    simp only [Except.ok.injEq, Prod.mk.injEq, decide_eq_true_eq] at hcall
    obtain ⟨hva, rfl⟩ := hcall
    obtain ⟨hshort, hrec⟩ := hrec
    unfold sys_shm_get at hg
    split at hg
    · cases hg
      exact absurd rfl hva
    · next hr =>
      have hr : refused name length = false := by simpa using hr
      exact h.got hP hr hva hshort (fun hn => (hrec P hP hn).1) (fun hn => (hrec P hP hn).2)
        (shm_get_cases (h.ledger.size hP) (h.ledger.found_ne_zero hr) hg)
  | store p va x =>
    simp only [State.call] at hcall
    split at hcall
    · split at hcall
      · cases hcall
        exact h.page _ _
      · cases hcall
    · cases hcall
  | growproc | exec | exit | wait | shm_rem => exact absurd hf id

/-- A step keeps the invariant. -/
theorem Filed.step (h : Filed s) (hs : Sharing s a) (hrec : Recorded s a)
    (hst : Step s a s') : Filed s' := by
  obtain ⟨hf, s1, hout⟩ := hs
  obtain ⟨P, hP, hcall⟩ := outcome_eq_some hout
  cases hst with
  | ok hok =>
    rw [hout] at hok
    cases hok
    exact (h.page _ false).call (a := a) hP hf (by cases a <;> exact hrec) hcall
  | wild hw =>
    rw [hout] at hw
    cases hw

/-- After boot no slot is in use. -/
theorem Booted.filed (hb : Booted s) : Filed s := by
  refine ⟨hb.ledger, fun {p P} hP i hi => ?_⟩
  obtain ⟨fl, page, initcode, -, -, hb⟩ := hb
  obtain ⟨kp, ks, d, m, rfl, -⟩ := boot_ok hb
  rcases eq_or_ne p 0 with rfl | hp
  · simp only [solo, update_self, Option.some.injEq] at hP
    subst hP
    exact absurd rfl hi
  · simp only [solo, update_of_ne hp] at hP
    cases hP

end

/-! ## Runs -/

/-- **The tables.** In every run of successful `shm_get` and `fork` calls from boot that meet
`Recorded`, every named slot of every process agrees with `shm_arr` and with the page table. -/
theorem agrees_of_recorded {s : State}
    (h : (system.restrict fun s a => Sharing s a ∧ Recorded s a).Reach s) : Agrees s := by
  refine Filed.agrees (h.invariant (fun s hb => ?_) fun s a s' hi hst => ?_)
  · exact Booted.filed hb
  · exact hi.step hst.1.1 hst.1.2 hst.2

/-- The first process creates a region. -/
theorem agrees_created : ∃ s, (system.restrict fun s a => Sharing s a ∧ Recorded s a).Reach s ∧
    (s.mem.shm_arr 0).Named ∧ Agrees s := by
  obtain ⟨kp, m0, P0, m, P, f, fs, hb, hfl, hout, hc, -, -, -, hlen⟩ :=
    exists_created (show refused [97] 1 = false by decide) (by decide)
  have hnone : m0.shm_find [97] = none := by
    obtain ⟨fl, page, initcode, -, -, hb⟩ := id hb
    rw [shm_find, show m0.shm_arr = shm_init from boot_shm_arr hb]
    decide +kernel
  have hrec : Recorded (solo kp m0 P0) (.shm_get 0 [97] 1 0) := by
    refine ⟨by decide, fun Q _ _ => ⟨fun _ => .inr ?_, fun i hi => ?_⟩⟩
    · rw [show (solo kp m0 P0).mem = m0 from rfl, hfl, List.length_cons]
      omega
    · rw [show (solo kp m0 P0).mem = m0 from rfl, hnone] at hi
      cases hi
  have hsharing : Sharing (solo kp m0 P0) (.shm_get 0 [97] 1 0) := ⟨trivial, _, hout⟩
  have hreach : (system.restrict fun s a => Sharing s a ∧ Recorded s a).Reach (solo kp m P) :=
    .step (.init hb) ⟨⟨hsharing, hrec⟩, .ok hout⟩
  refine ⟨_, hreach, ?_, agrees_of_recorded hreach⟩
  show (m.shm_arr 0).Named
  rw [hc.shm_arr, update_self]
  exact show strncpy [97] 16 ≠ DNE by decide

/-- The first process creates a region with a name of sixteen bytes and asks for it again. It has
filed fifteen of them, so it attaches to its own region, in a second slot, whose address is the
uninitialised variable. -/
theorem not_agrees_sharing : ∃ s, (system.restrict Sharing).Reach s ∧ ¬ Agrees s := by
  obtain ⟨kp, m0, P0, m1, P1, f, fs, hb, -, hout1, hc, -, -, hf, -⟩ :=
    exists_created (show refused longName 16 = false by decide) (by decide)
  obtain ⟨m2, P2, hout2, ha, -⟩ := hc.again kp hf
  have hs1 : Sharing (solo kp m0 P0) (.shm_get 0 longName 16 0) := ⟨trivial, _, hout1⟩
  have hs2 : Sharing (solo kp m1 P1) (.shm_get 0 longName 16 0) := ⟨trivial, _, hout2⟩
  have hreach : (system.restrict Sharing).Reach (solo kp m2 P2) :=
    .step (.step (.init hb) ⟨hs1, .ok hout1⟩) ⟨hs2, .ok hout2⟩
  refine ⟨_, hreach, fun hag => ?_⟩
  have hslot := hag (p := 0) (P := P2) rfl 1
  rw [ha.shm_name, update_self] at hslot
  obtain ⟨j, hcmp, hphys, -⟩ := hslot (by decide)
  rw [ha.shm_phys, update_self] at hphys
  rw [ha.shm_name, update_self] at hcmp
  change strncmp (m2.shm_arr j).name longName 16 = true at hcmp
  change 0 = (m2.shm_arr j).shmPhys at hphys
  rw [ha.shm_arr] at hcmp hphys
  rcases eq_or_ne j 0 with rfl | hj
  · rw [update_self] at hphys
    exact (Nat.mul_pos hf (by decide)).ne hphys
  · rw [update_of_ne hj] at hcmp
    exact absurd hcmp (show ¬ strncmp (safestrcpy DNE 16) longName 16 = true by decide)

end Msboss.Vm
