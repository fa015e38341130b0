import Msboss.Vm.Account

/-!
# How frames move

One lemma for each function of `vm.c` on how it moves frames between the free list, the page tables
and the user pages of a page directory. `Moves` is what they have in common: no frame gets more uses
than it had, and a frame that belongs to a shared region does not get on the free list or into a
page table. Frames may get lost.
-/

namespace Msboss.Vm

open Memory PageDir

/-- The frame belongs to a shared region. An entry of `shm_arr` out of use has the address 0. -/
def Memory.Region (m : Memory) (f : Frame) : Prop :=
  0 < f ∧ ∃ i, (m.shm_arr i).shmPhys = f * PGSIZE

/-- The regions are where they were. -/
def SameRegions (m m' : Memory) : Prop :=
  ∀ i, (m'.shm_arr i).name = (m.shm_arr i).name ∧
    (m'.shm_arr i).shmPhys = (m.shm_arr i).shmPhys

/-- No frame gets more uses; those of regions stay off the free list and the page tables, and stay
mapped. -/
structure Moves (m : Memory) (d : PageDir) (m' : Memory) (d' : PageDir) : Prop where
  total : ∀ f, m'.freelist.count f + d'.tables f + d'.user f ≤
    m.freelist.count f + d.tables f + d.user f
  keep : ∀ f, m.Region f → m'.freelist.count f + d'.tables f ≤ m.freelist.count f + d.tables f
  held : ∀ f, m.Region f → d.user f ≤ d'.user f
  used : m'.used = m.used
  regions : SameRegions m m'

section
variable {m m' m'' : Memory} {d d' d'' : PageDir}

theorem SameRegions.refl (m : Memory) : SameRegions m m := fun _ => ⟨rfl, rfl⟩

theorem SameRegions.of_eq (h : m'.shm_arr = m.shm_arr) : SameRegions m m' := fun i => by
  rw [h]; exact ⟨rfl, rfl⟩

theorem SameRegions.trans (h : SameRegions m m') (h' : SameRegions m' m'') : SameRegions m m'' :=
  fun i => ⟨(h' i).1.trans (h i).1, (h' i).2.trans (h i).2⟩

/-- The frames of regions stay the same. -/
theorem SameRegions.region (h : SameRegions m m') : m'.Region f ↔ m.Region f := by
  simp only [Memory.Region, (h _).2]

theorem Moves.refl (m : Memory) (d : PageDir) : Moves m d m d :=
  ⟨fun _ => le_rfl, fun _ _ => le_rfl, fun _ _ => le_rfl, rfl, .refl m⟩

theorem Moves.trans (h : Moves m d m' d') (h' : Moves m' d' m'' d'') : Moves m d m'' d'' where
  total f := (h'.total f).trans (h.total f)
  keep f hf := (h'.keep f (h.regions.region.2 hf)).trans (h.keep f hf)
  held f hf := (h.held f hf).trans (h'.held f (h.regions.region.2 hf))
  used := h'.used.trans h.used
  regions := h.regions.trans h'.regions

end

/-! ## `mappages` -/

section
variable {m m' : Memory} {d d' : PageDir} {w u b : Bool} {va pa : Nat}

/-- The number of turns `mappages` makes. -/
def mapTurns (va size : Nat) : Nat :=
  (PGROUNDDOWN ((va + size + (2 ^ 32 - 1)) % 2 ^ 32) + (2 ^ 32 - PGROUNDDOWN va)) % 2 ^ 32 /
    PGSIZE + 1

/-- `mappages` is its loop. -/
theorem mappages_eq (m : Memory) (d : PageDir) (va size pa : Nat) (w u : Bool) :
    m.mappages d va size pa w u = mapLoop w u (mapTurns va size) m d (PGROUNDDOWN va) pa := rfl

/-- One page is one turn. -/
theorem mappages_one (hva : va % PGSIZE = 0) (hlt : va < 2 ^ 32) :
    m.mappages d va PGSIZE pa w u = mapLoop w u 1 m d va pa := by
  have hn : mapTurns va PGSIZE = 1 := by simp only [mapTurns, PGROUNDDOWN, PGSIZE] at *; omega
  have hr : PGROUNDDOWN va = va := by simp only [PGROUNDDOWN, PGSIZE] at *; omega
  rw [mappages_eq, hn, hr]

/-- `mappages` on one page. -/
theorem mappages_page (hva : va % PGSIZE = 0) (hlt : va < 2 ^ 32)
    (h : m.mappages d va PGSIZE pa w u = .ok (b, m', d')) : ∃ d1, Walked m d m' d1 ∧
      (b = true → d' = d1.setPte va { frame := pa / PGSIZE, p := true, w, u } ∧
        (d1.pte va).isSome = true ∧ (d.entry (va / PGSIZE)).p = false ∧ m'.oom = m.oom) ∧
      (b = false → d' = d1 ∧ m'.oom = true ∧ m'.freelist = []) := by
  rw [mappages_one hva hlt] at h
  simp only [mapLoop] at h
  split at h
  · next m1 d1 hw =>
    cases h
    obtain ⟨hW, -, hf⟩ := walkpgdir_spec hw
    exact ⟨_, hW, nofun, fun _ => ⟨rfl, (hf rfl).2.1, (hf rfl).2.2.1⟩⟩
  next m1 d1 hw =>
  split at h
  · cases h
  next hp =>
  cases h
  obtain ⟨hW, ht, -⟩ := walkpgdir_spec hw
  refine ⟨_, hW, fun _ => ⟨rfl, (ht rfl).1, ?_, (ht rfl).2⟩, nofun⟩
  rw [← hW.entry, entry_div]
  cases he : d1.pte va with
  | none => rfl
  | some e => simpa [he] using hp

/-- `mappages` fails only if there is neither a page table nor memory for one. -/
theorem mappages_false (hva : va % PGSIZE = 0) (hlt : va < 2 ^ 32)
    (h : m.mappages d va PGSIZE pa w u = .ok (false, m', d')) :
    m.freelist = [] ∧ d.pte va = none := by
  rw [mappages_one hva hlt] at h
  simp only [mapLoop] at h
  split at h
  · next m1 d1 hw =>
    refine ⟨((walkpgdir_spec hw).2.2 rfl).1, ?_⟩
    unfold walkpgdir at hw
    split at hw
    · cases hw
    · next hn => rw [pte, hn]; rfl
  · split at h <;> cases h

/-- The entries after `mappages` on one user page. -/
theorem mappages_entry (hva : va % PGSIZE = 0) (hlt : va < KERNBASE)
    (h : m.mappages d va PGSIZE pa w u = .ok (true, m', d')) (hvp : vp < UPAGES) : d'.entry vp =
      if vp = va / PGSIZE then { frame := pa / PGSIZE, p := true, w, u } else d.entry vp := by
  have hlt' : va < 2 ^ 32 := hlt.trans (by decide)
  obtain ⟨d1, hW, ht, -⟩ := mappages_page hva hlt' h
  obtain ⟨rfl, hs, -, -⟩ := ht rfl
  rw [entry_setPte hlt' (hvp.trans (by decide)) hs, hW.entry]

theorem div_lt_UPAGES (h : va < KERNBASE) : va / PGSIZE < UPAGES := by
  simp only [UPAGES, KERNBASE, PGSIZE] at *; omega

/-- `mappages` takes frames from the free list, and puts none there. -/
theorem mappages_free (hva : va % PGSIZE = 0) (hlt : va < 2 ^ 32)
    (h : m.mappages d va PGSIZE pa w u = .ok (b, m', d')) : m'.freelist ⊆ m.freelist := by
  have hwalk {c : Bool} {m1 : Memory} {d1 : PageDir} (hw : m.walkpgdir d va = (c, m1, d1)) :
      m1.freelist ⊆ m.freelist := by
    unfold walkpgdir at hw
    split at hw
    · cases hw
      exact fun _ => id
    split at hw
    · next hk =>
      cases hw
      obtain ⟨-, rfl⟩ := kalloc_none hk
      exact fun _ => id
    · next hk =>
      cases hw
      rw [(kalloc_some hk).1]
      exact List.subset_cons_self ..
  rw [mappages_one hva hlt] at h
  simp only [mapLoop] at h
  split at h
  · next hw =>
    cases h
    exact hwalk hw
  next hw =>
  split at h
  · cases h
  · cases h
    exact hwalk hw

/-- `mappages` on one page leaves the others. -/
theorem mappages_other (hva : va % PGSIZE = 0) (hlt : va < KERNBASE)
    (h : m.mappages d va PGSIZE pa w u = .ok (b, m', d')) (hvp : vp < UPAGES)
    (hne : vp ≠ va / PGSIZE) : d'.entry vp = d.entry vp := by
  cases b with
  | true => rw [mappages_entry hva hlt h hvp, if_neg hne]
  | false =>
    obtain ⟨d1, hW, -, hf⟩ := mappages_page hva (hlt.trans (by decide)) h
    rw [(hf rfl).1, hW.entry]

/-- `mappages` on one user page: what it adds to the counts. -/
theorem mappages_user (hva : va % PGSIZE = 0) (hlt : va < KERNBASE)
    (h : m.mappages d va PGSIZE pa w u = .ok (b, m', d')) (f : Frame) :
    m'.freelist.count f + d'.tables f = m.freelist.count f + d.tables f ∧
      d'.user f = d.user f + if b = true ∧ pa / PGSIZE = f then 1 else 0 := by
  obtain ⟨d1, hW, ht, hf⟩ := mappages_page hva (hlt.trans (by decide)) h
  cases b with
  | false =>
    obtain ⟨rfl, -⟩ := hf rfl
    exact ⟨hW.tables f, by simp [hW.user]⟩
  | true =>
    obtain ⟨rfl, hs, hp, -⟩ := ht rfl
    rw [tables_setPte]
    refine ⟨hW.tables f, ?_⟩
    have := user_setPte (e := { frame := pa / PGSIZE, p := true, w, u }) hlt hs f
    rw [hW.entry, Pte.count_of_not_present hp, hW.user] at this
    simpa [Pte.count] using this

/-- What a run of `mappages` in the kernel half keeps. -/
structure KernelMapped (m : Memory) (d : PageDir) (m' : Memory) (d' : PageDir) : Prop where
  shm_arr : m'.shm_arr = m.shm_arr
  used : m'.used = m.used
  page : m'.page = m.page
  tables : ∀ f, m'.freelist.count f + d'.tables f = m.freelist.count f + d.tables f
  entry : ∀ vp < UPAGES, d'.entry vp = d.entry vp

theorem KernelMapped.trans (h : KernelMapped m d m' d')
    (h' : KernelMapped m' d' m'' d'') : KernelMapped m d m'' d'' :=
  ⟨h'.shm_arr.trans h.shm_arr, h'.used.trans h.used, h'.page.trans h.page,
    fun f => (h'.tables f).trans (h.tables f),
    fun vp hvp => (h'.entry vp hvp).trans (h.entry vp hvp)⟩

/-- The loop of `mappages` over kernel addresses. -/
theorem mapLoop_kernel : ∀ {n : Nat} {m m' : Memory} {d d' : PageDir} {a pa : Nat},
    KERNBASE ≤ a → a + n * PGSIZE ≤ 2 ^ 32 → mapLoop w u n m d a pa = .ok (b, m', d') →
    KernelMapped m d m' d' ∧ (b = true → m'.oom = m.oom) ∧ (b = false → m'.oom = true)
  | 0, m, m', d, d', a, pa, _, _, h => by
    simp only [mapLoop] at h
    cases h
    exact ⟨⟨rfl, rfl, rfl, fun _ => rfl, fun _ _ => rfl⟩, fun _ => rfl, nofun⟩
  | n + 1, m, m', d, d', a, pa, hlo, hhi, h => by
    simp only [mapLoop] at h
    split at h
    · next m1 d1 hw =>
      cases h
      obtain ⟨hW, -, hf⟩ := walkpgdir_spec hw
      exact ⟨⟨hW.shm_arr, hW.used, hW.page, hW.tables, fun _ _ => by rw [hW.entry]⟩, nofun,
        fun _ => (hf rfl).2.1⟩
    next m1 d1 hw =>
    split at h
    · cases h
    obtain ⟨hW, ht, -⟩ := walkpgdir_spec hw
    obtain ⟨hs, hoom⟩ := ht rfl
    have hlt : a < 2 ^ 32 := by simp only [PGSIZE] at hhi; omega
    have hstep : KernelMapped m d m1 (d1.setPte a { frame := pa / PGSIZE, p := true, w, u }) := by
      refine ⟨hW.shm_arr, hW.used, hW.page, fun f => ?_, fun vp hvp => ?_⟩
      · rw [tables_setPte]; exact hW.tables f
      · have hvp' : vp < 2 ^ 20 := lt_of_lt_of_le hvp (by decide)
        have hne : vp ≠ a / PGSIZE := by
          simp only [UPAGES, KERNBASE, PGSIZE] at hlo hvp ⊢; omega
        rw [entry_setPte hlt hvp' hs, if_neg hne, hW.entry]
    rcases Nat.eq_zero_or_pos n with rfl | hn
    · simp only [mapLoop] at h
      cases h
      exact ⟨hstep, fun _ => hoom, nofun⟩
    have hmod : (a + PGSIZE) % 2 ^ 32 = a + PGSIZE := by
      have : PGSIZE ≤ n * PGSIZE := Nat.le_mul_of_pos_left _ hn
      simp only [PGSIZE] at *; omega
    rw [hmod] at h
    obtain ⟨hK, h1, h2⟩ := mapLoop_kernel (by simp only [PGSIZE]; omega)
      (by rw [Nat.succ_mul] at hhi; omega) h
    exact ⟨hstep.trans hK, fun hb => (h1 hb).trans hoom, h2⟩

end

/-! ## `setupkvm` -/

/-- The bytes of a mapping. -/
def Kmap.size (k : Kmap) : Nat := (k.phys_end + (2 ^ 32 - k.phys_start)) % 2 ^ 32

/-- The pages of a mapping are kernel pages. -/
def Kmap.Kernel (k : Kmap) : Prop :=
  KERNBASE ≤ PGROUNDDOWN k.virt ∧
    PGROUNDDOWN k.virt + mapTurns k.virt k.size * PGSIZE ≤ 2 ^ 32

instance (k : Kmap) : Decidable k.Kernel := inferInstanceAs (Decidable (_ ∧ _))

/-- `kmap` is above `KERNBASE`. -/
theorem kmap_kernel : ∀ k ∈ kmap, k.Kernel := by decide +kernel

/-- The loop of `setupkvm`. -/
theorem kmapLoop_spec : ∀ {ks : List Kmap} {m m' : Memory} {d : PageDir} {r : Option PageDir},
    (∀ k ∈ ks, k.Kernel) → kmapLoop ks m d = .ok (r, m') →
    (∃ d', KernelMapped m d m' d' ∧ (∀ d1, r = some d1 → d1 = d' ∧ m'.oom = m.oom)) ∧
      (r = none → m'.oom = true)
  | [], m, m', d, r, _, h => by
    simp only [kmapLoop] at h
    cases h
    exact ⟨⟨d, ⟨rfl, rfl, rfl, fun _ => rfl, fun _ _ => rfl⟩,
      fun _ h => by cases h; exact ⟨rfl, rfl⟩⟩,
      nofun⟩
  | k :: ks, m, m', d, r, hks, h => by
    simp only [kmapLoop, bind_eq_ok] at h
    obtain ⟨⟨b, m1, d1⟩, hmap, h⟩ := h
    obtain ⟨hlo, hhi⟩ := hks k (.head _)
    obtain ⟨hK, ht, hf⟩ := mapLoop_kernel hlo hhi hmap
    cases b with
    | false =>
      cases h
      exact ⟨⟨d1, hK, nofun⟩, fun _ => hf rfl⟩
    | true =>
      obtain ⟨⟨d', hK', h1⟩, h2⟩ := kmapLoop_spec (fun k hk => hks k (.tail _ hk)) h
      exact ⟨⟨d', hK.trans hK', fun d2 h => ⟨(h1 d2 h).1, (h1 d2 h).2.trans (ht rfl)⟩⟩, h2⟩

/-- What `setupkvm` makes: a directory with an empty user half, from free frames. -/
theorem setupkvm_some {m m' : Memory} (h : m.setupkvm = .ok (some d, m')) :
    m'.shm_arr = m.shm_arr ∧ m'.used = m.used ∧ m'.page = m.page ∧ m'.oom = m.oom ∧
      (∀ f, m'.freelist.count f + d.tables f = m.freelist.count f) ∧
      ∀ vp < UPAGES, d.entry vp = .zero := by
  unfold setupkvm at h
  split at h
  · cases h
  next f m1 hk =>
  split at h
  · cases h
  obtain ⟨hf, hm⟩ := kalloc_some hk
  obtain ⟨⟨d', hK, hd⟩, -⟩ := kmapLoop_spec kmap_kernel h
  obtain ⟨rfl, hoom⟩ := hd d rfl
  have hs : m1.shm_arr = m.shm_arr ∧ m1.used = m.used ∧ m1.page = m.page ∧ m1.oom = m.oom := by
    rw [hm]; exact ⟨rfl, rfl, rfl, rfl⟩
  refine ⟨hK.shm_arr.trans hs.1, hK.used.trans hs.2.1, hK.page.trans hs.2.2.1,
    hoom.trans hs.2.2.2, fun g => ?_, fun vp hvp => ?_⟩
  · rw [hK.tables g, hf, List.count_cons]
    simp [tables]
  · rw [hK.entry vp hvp]; rfl

/-- A failed `setupkvm` loses frames. -/
theorem setupkvm_none {m m' : Memory} (h : m.setupkvm = .ok (none, m')) :
    m'.shm_arr = m.shm_arr ∧ m'.used = m.used ∧ m'.oom = true ∧
      ∀ f, m'.freelist.count f ≤ m.freelist.count f := by
  unfold setupkvm at h
  split at h
  · next m1 hk =>
    cases h
    obtain ⟨-, rfl⟩ := kalloc_none hk
    exact ⟨rfl, rfl, rfl, fun _ => le_rfl⟩
  next f m1 hk =>
  split at h
  · cases h
  obtain ⟨hf, hm⟩ := kalloc_some hk
  obtain ⟨⟨d', hK, -⟩, hoom⟩ := kmapLoop_spec kmap_kernel h
  refine ⟨hK.shm_arr.trans (by rw [hm]), hK.used.trans (by rw [hm]), hoom rfl, fun g => ?_⟩
  have := hK.tables g
  rw [hf, List.count_cons]
  simp only [tables, Option.elim_none, Finset.sum_const_zero, beq_iff_eq] at this ⊢
  omega

/-! ## `deallocuvm` -/

/-- A run of the loop of `deallocuvm` from the address `a` to its end. -/
inductive Deallocs (oldsz : Nat) (acc : Int) (m' : Memory) (d' : PageDir) :
    Nat → Memory → PageDir → Nat → Prop
  | last : Deallocs oldsz acc m' d' 0 m' d' a
  | past : oldsz ≤ a → Deallocs oldsz acc m' d' n m' d' a
  | skip : a < oldsz → d.pte a = none →
      Deallocs oldsz acc m' d' n m d (a + NPTENTRIES * PGSIZE) →
      Deallocs oldsz acc m' d' (n + 1) m d a
  | absent : a < oldsz → d.pte a = some e → e.p = false →
      Deallocs oldsz acc m' d' n m d (a + PGSIZE) → Deallocs oldsz acc m' d' (n + 1) m d a
  | shared : a < oldsz → d.pte a = some e → e.p = true → e.addr ≠ 0 →
      (m.shm_arr i).shmPhys = e.addr →
      Deallocs oldsz acc m' d' n (m.addAccess i acc) d (a + PGSIZE) →
      Deallocs oldsz acc m' d' (n + 1) m d a
  | freed : a < oldsz → d.pte a = some e → e.p = true → e.addr ≠ 0 →
      (∀ i, (m.shm_arr i).shmPhys ≠ e.addr) → m.kfree e.addr = .ok m1 →
      Deallocs oldsz acc m' d' n m1 (d.setPte a .zero) (a + PGSIZE) →
      Deallocs oldsz acc m' d' (n + 1) m d a

section
variable {m m' : Memory} {d d' : PageDir} {acc : Int} {oldsz : Nat}

/-- What `shm_arr_findPA` finds is counted. -/
theorem shm_arr_findPA_some (h : m.shm_arr_findPA pa c = some m') :
    ∃ i, (m.shm_arr i).shmPhys = pa ∧ m' = m.addAccess i c := by
  obtain ⟨i, hi, rfl⟩ := Option.map_eq_some_iff.1 h
  have := List.find?_some hi
  exact ⟨i, (of_decide_eq_true this).symm, rfl⟩

/-- What it does not find has no entry. -/
theorem shm_arr_findPA_none (h : m.shm_arr_findPA pa c = none) (i : Slot) :
    (m.shm_arr i).shmPhys ≠ pa := by
  have := List.find?_eq_none.1 (Option.map_eq_none_iff.1 h) i (List.mem_finRange i)
  exact fun hi => this (decide_eq_true hi.symm)

/-- Counting an access changes no more than the count of its entry. -/
theorem addAccess_apply (m : Memory) (i j : Slot) (c : Int) : (m.addAccess i c).shm_arr j =
      if j = i then { m.shm_arr j with numAccess := (m.shm_arr j).numAccess + c }
      else m.shm_arr j := by
  simp only [addAccess, setShm, Function.update_apply]
  split
  · next h => rw [h]
  · rfl

/-- Counting changes no region. -/
theorem sameRegions_addAccess (m : Memory) (i : Slot) (c : Int) :
    SameRegions m (m.addAccess i c) := fun j => by
  rw [addAccess_apply]; split <;> exact ⟨rfl, rfl⟩

theorem addAccess_zero (m : Memory) (i : Slot) : (m.addAccess i 0).shm_arr = m.shm_arr := by
  funext j
  rw [addAccess_apply]
  split <;> simp

/-- Counting moves no frame. -/
theorem moves_addAccess (m : Memory) (d : PageDir) (i : Slot) (c : Int) :
    Moves m d (m.addAccess i c) d :=
  ⟨fun _ => le_rfl, fun _ _ => le_rfl, fun _ _ => le_rfl, rfl, sameRegions_addAccess m i c⟩

/-- Clearing the entry of a page that is present. -/
theorem PageDir.user_clear (ha : a < KERNBASE) (he : d.pte a = some e)
    (hp : e.p = true) (f : Frame) :
    (d.setPte a .zero).user f + (if e.frame = f then 1 else 0) = d.user f := by
  have := user_setPte (e := .zero) ha (by rw [he]; rfl) f
  rw [entry_of_pte he] at this
  simpa [Pte.count, hp, Pte.zero] using this

/-- Freeing a private page. -/
theorem moves_kfree (ha : a < KERNBASE) (he : d.pte a = some e)
    (hp : e.p = true) (hr : ¬ m.Region e.frame) (h : m.kfree e.addr = .ok m') :
    Moves m d m' (d.setPte a .zero) := by
  obtain ⟨hfl, hshm, hused, -⟩ := kfree_ok h
  have hfr : e.addr / PGSIZE = e.frame := Nat.mul_div_cancel _ (by decide)
  have hcount (f : Frame) := user_clear ha he hp f
  refine ⟨fun f => ?_, fun f hf => ?_, fun f hf => ?_, hused, .of_eq hshm⟩
  · rw [hfl, hfr, List.count_cons, tables_setPte]
    have := hcount f
    simp only [beq_iff_eq]
    omega
  · have hne : e.frame ≠ f := fun h => hr (h ▸ hf)
    rw [hfl, hfr, tables_setPte, List.count_cons_of_ne hne]
  · have hne : e.frame ≠ f := fun h => hr (h ▸ hf)
    have := hcount f
    rw [if_neg hne] at this
    omega

/-- The loop of `deallocuvm`, where it returns, has such a run. -/
theorem deallocs_of_ok (h : deallocLoop oldsz acc n m d a = .ok (m', d')) :
    Deallocs oldsz acc m' d' n m d a := by
  induction n generalizing m d a with
  | zero =>
    cases h
    exact .last
  | succ n ih =>
    simp only [deallocLoop] at h
    split at h
    swap
    · next hge =>
      cases h
      exact .past (Nat.le_of_not_lt hge)
    next hlt =>
    split at h
    · next hnone => exact .skip hlt hnone (ih h)
    next e he =>
    split at h
    swap
    · next hp => exact .absent hlt he (Bool.eq_false_iff.2 hp) (ih h)
    next hp =>
    split at h
    · cases h
    next h0 =>
    split at h
    · next hfind =>
      obtain ⟨i, hi, rfl⟩ := shm_arr_findPA_some hfind
      exact .shared hlt he hp h0 hi (ih h)
    · next hfind =>
      obtain ⟨m1, hk, h⟩ := bind_eq_ok.1 h
      exact .freed hlt he hp h0 (shm_arr_findPA_none hfind) hk (ih h)

/-- What the loop of `deallocuvm` does. -/
theorem deallocLoop_moves (hsz : oldsz ≤ KERNBASE)
    (h : deallocLoop oldsz acc n m d a = .ok (m', d')) :
    Moves m d m' d' ∧ m'.oom = m.oom ∧ (acc = 0 → m'.shm_arr = m.shm_arr) ∧
      ∀ i, (m.shm_arr i).shmPhys = 0 → m'.shm_arr i = m.shm_arr i := by
  replace h := deallocs_of_ok h
  induction h with
  | last | past => exact ⟨.refl _ _, rfl, fun _ => rfl, fun _ _ => rfl⟩
  | skip _ _ _ ih | absent _ _ _ _ ih => exact ih
  | shared _ _ _ haddr hi _ ih =>
    obtain ⟨hM, ho, hz, hu⟩ := ih
    refine ⟨(moves_addAccess ..).trans hM, ho, fun h0 => ?_, fun j hj => ?_⟩
    · subst h0
      rw [hz rfl, addAccess_zero]
    · rw [hu j ((sameRegions_addAccess _ _ _ j).2.trans hj), addAccess_apply, if_neg]
      rintro rfl
      exact haddr (hi.symm.trans hj)
  | freed ha he hp _ hnone hk _ ih =>
    obtain ⟨hM, ho, hz, hu⟩ := ih
    obtain ⟨-, hshm, -, hoom⟩ := kfree_ok hk
    have hm := moves_kfree (ha.trans_le hsz) he hp (fun hr => hr.2.elim hnone) hk
    rw [hshm] at hz hu
    exact ⟨hm.trans hM, ho.trans hoom, hz, hu⟩

/-- `deallocuvm` with no change of the access counts. -/
theorem deallocuvm_moves (hsz : oldsz ≤ KERNBASE)
    (h : m.deallocuvm d oldsz newsz 0 = .ok (sz, m', d')) :
    Moves m d m' d' ∧ m'.oom = m.oom ∧ m'.shm_arr = m.shm_arr ∧ sz ≤ oldsz := by
  unfold deallocuvm at h
  split at h
  · cases h
    exact ⟨.refl _ _, rfl, rfl, le_rfl⟩
  next hlt =>
  obtain ⟨⟨m1, d1⟩, hl, h⟩ := bind_eq_ok.1 h
  cases h
  obtain ⟨hM, ho, hz, -⟩ := deallocLoop_moves hsz hl
  exact ⟨hM, ho, hz rfl, by omega⟩

end

/-! ## `allocuvm` -/

section
variable {m m' : Memory} {d d' : PageDir} {oldsz newsz sz : Nat}

/-- A frame from the free list is mapped, or lost. -/
theorem moves_alloc {m1 n : Memory}
    (ha : a % PGSIZE = 0) (hlt : a < KERNBASE) (hk : m.kalloc = (some f, m1))
    (hfl : n.freelist = m1.freelist) (hshm : n.shm_arr = m1.shm_arr) (hused : n.used = m1.used)
    (h : n.mappages d a PGSIZE (f * PGSIZE) w u = .ok (b, m', d')) :
    Moves m d m' d' ∧ m'.shm_arr = m.shm_arr := by
  obtain ⟨hf, hm⟩ := kalloc_some hk
  obtain ⟨d1, hW, -, -⟩ := mappages_page ha (hlt.trans (by decide)) h
  have hcount (g : Frame) := mappages_user ha hlt h g
  have hs : m'.shm_arr = m.shm_arr := by rw [hW.shm_arr, hshm, hm]
  have hfr : f * PGSIZE / PGSIZE = f := Nat.mul_div_cancel _ (by decide)
  rw [hfl, hfr] at hcount
  refine ⟨⟨fun g => ?_, fun g _ => ?_, fun g _ => ?_, ?_, .of_eq hs⟩, hs⟩
  · obtain ⟨h1, h2⟩ := hcount g
    rw [hf, List.count_cons]
    simp only [beq_iff_eq]
    split at h2
    · next h => rw [if_pos h.2]; omega
    · omega
  · rw [(hcount g).1, hf, List.count_cons]; omega
  · rw [(hcount g).2]; omega
  · rw [hW.used, hused, hm]

/-- What the loop of `allocuvm` does. -/
theorem allocLoop_moves (hnew : newsz < KERNBASE) :
    ∀ {n : Nat} {m m' : Memory} {d d' : PageDir} {a : Nat}, a % PGSIZE = 0 →
      (n = 0 ∨ a + (n - 1) * PGSIZE < newsz) → allocLoop oldsz newsz n m d a = .ok (sz, m', d') →
      Moves m d m' d' ∧ m'.shm_arr = m.shm_arr ∧ sz ≤ newsz
  | 0, m, m', d, d', a, _, _, h => by
    cases h
    exact ⟨.refl _ _, rfl, le_rfl⟩
  | n + 1, m, m', d, d', a, ha, hn, h => by
    simp only [allocLoop] at h
    split at h
    · next m1 hk =>
      obtain ⟨⟨sz', m2, d2⟩, hd, h⟩ := bind_eq_ok.1 h
      cases h
      obtain ⟨-, rfl⟩ := kalloc_none hk
      obtain ⟨hM, -, hs, -⟩ := deallocuvm_moves hnew.le hd
      exact ⟨⟨hM.total, hM.keep, hM.held, hM.used, hM.regions⟩, hs, Nat.zero_le _⟩
    next f m1 hk =>
    obtain ⟨⟨b, m2, d2⟩, hmap, h⟩ := bind_eq_ok.1 h
    have hlt : a < KERNBASE := by
      rcases hn with hn | hn
      · omega
      · exact lt_of_le_of_lt (Nat.le_add_right _ _) (hn.trans hnew)
    obtain ⟨hM, hs⟩ := moves_alloc (n := m1.fill f 0) ha hlt hk rfl rfl rfl hmap
    have hn' : n = 0 ∨ a + PGSIZE + (n - 1) * PGSIZE < newsz := by
      rcases n with - | n
      · exact .inl rfl
      · simp only [PGSIZE] at hn ⊢; omega
    have ha' : (a + PGSIZE) % PGSIZE = 0 := by simp [ha]
    obtain ⟨hM', hs', hsz⟩ := allocLoop_moves hnew ha' hn' h
    exact ⟨hM.trans hM', hs'.trans hs, hsz⟩

theorem PGROUNDUP_mod (a : Nat) : PGROUNDUP a % PGSIZE = 0 := Nat.mul_mod_left _ _

/-- The loop of `allocuvm` from the address `a` makes its last turn below `newsz`. -/
theorem turns_bound (newsz a : Nat) : (newsz - a + (PGSIZE - 1)) / PGSIZE = 0 ∨
    a + ((newsz - a + (PGSIZE - 1)) / PGSIZE - 1) * PGSIZE < newsz := by
  simp only [PGSIZE]
  omega

/-- What `allocuvm` does. -/
theorem allocuvm_moves (hold : oldsz < KERNBASE) (h : m.allocuvm d oldsz newsz = .ok (sz, m', d')) :
    Moves m d m' d' ∧ m'.shm_arr = m.shm_arr ∧ sz < KERNBASE ∧ (sz ≠ 0 → newsz < KERNBASE) := by
  unfold allocuvm at h
  split at h
  · cases h
    exact ⟨.refl _ _, rfl, by decide, fun h => absurd rfl h⟩
  next hnew =>
  have hnew : newsz < KERNBASE := Nat.lt_of_not_le hnew
  split at h
  · cases h
    exact ⟨.refl _ _, rfl, hold, fun _ => hnew⟩
  · obtain ⟨hM, hs, hsz⟩ := allocLoop_moves hnew (PGROUNDUP_mod _) (turns_bound ..) h
    exact ⟨hM, hs, hsz.trans_lt hnew, fun _ => hnew⟩

end

end Msboss.Vm
