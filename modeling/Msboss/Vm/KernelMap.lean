import Msboss.Vm.Moves

/-!
# The kernel's page tables

`Takes` is the account for page tables: they come from the free list, one for each entry of the
directory that was empty, and a failure means that the list is empty while one is missing. The
kernel's mappings do not overlap, so `setupkvm` returns (`setupkvm_returns`), and they need
`KTABLES` page tables (`setupkvm_length`, `setupkvm_short`).
-/

namespace Msboss.Vm

open Memory PageDir Finset

/-- The number of page tables of a directory. -/
def PageDir.present (d : PageDir) : Nat := (univ.filter fun i => (d.pde i).isSome).card

/-- A new page table is one more. -/
theorem PageDir.present_update {d : PageDir} (h : d.pde i = none) (t : PageTable) :
    present { d with pde := Function.update d.pde i (some t) } = d.present + 1 := by
  have hset : (univ.filter fun j => (Function.update d.pde i (some t) j).isSome) =
      insert i (univ.filter fun j => (d.pde j).isSome) := by
    ext j
    rcases eq_or_ne j i with rfl | hj <;> simp [*]
  rw [present, hset, card_insert_of_notMem (by simp [h])]
  rfl

theorem PageDir.present_setPte (d : PageDir) (a : Nat) (e : Pte) :
    (d.setPte a e).present = d.present := by
  refine congrArg card (filter_congr fun i _ => ?_)
  unfold setPte
  split
  · rfl
  · next t ht =>
    rcases eq_or_ne i (PDX a) with rfl | hi
    · simp [ht]
    · simp [hi]

/-! ## Page tables -/

/-- From `m` and `d` on, page tables were made for the entries in `R`, all of them if `b`. -/
structure Takes (m : Memory) (d : PageDir) (m' : Memory) (d' : PageDir) (R : Set (Fin 1024))
    (b : Bool) : Prop where
  length : m'.freelist.length + d'.present = m.freelist.length + d.present
  old : ∀ i, (d.pde i).isSome = true → (d'.pde i).isSome = true
  new : ∀ i, (d'.pde i).isSome = true → (d.pde i).isSome = true ∨ i ∈ R
  all : b = true → ∀ i ∈ R, (d'.pde i).isSome = true
  short : b = false → m'.freelist = [] ∧ ∃ i ∈ R, d'.pde i = none

section
variable {m m1 m' : Memory} {d d1 d' : PageDir} {R R' : Set (Fin 1024)} {b : Bool}

theorem Takes.refl (m : Memory) (d : PageDir) : Takes m d m d ∅ true :=
  ⟨rfl, fun _ h => h, fun _ h => .inl h, fun _ _ h => absurd h (Set.notMem_empty _), nofun⟩

theorem Takes.trans (h : Takes m d m1 d1 R true) (h' : Takes m1 d1 m' d' R' b) :
    Takes m d m' d' (R ∪ R') b where
  length := h'.length.trans h.length
  old i hi := h'.old i (h.old i hi)
  new i hi := by
    rcases h'.new i hi with hi | hi
    · exact (h.new i hi).imp_right .inl
    · exact .inr (.inr hi)
  all hb i hi := by
    rcases hi with hi | hi
    · exact h'.old i (h.all rfl i hi)
    · exact h'.all hb i hi
  short hb := by
    obtain ⟨hnil, i, hi, hn⟩ := h'.short hb
    exact ⟨hnil, i, .inr hi, hn⟩

/-- A failure does not get better by what was not tried any more. -/
theorem Takes.weaken (h : Takes m d m' d' R false) : Takes m d m' d' (R ∪ R') false where
  length := h.length
  old := h.old
  new i hi := (h.new i hi).imp_right .inl
  all := nofun
  short hb := by
    obtain ⟨hnil, i, hi, hn⟩ := h.short hb
    exact ⟨hnil, i, .inl hi, hn⟩

theorem setPte_pde_isSome (d : PageDir) (a : Nat) (e : Pte) (i : Fin 1024) :
    ((d.setPte a e).pde i).isSome = (d.pde i).isSome := by
  unfold setPte
  split
  · rfl
  · next t ht =>
    rcases eq_or_ne i (PDX a) with rfl | hi
    · simp [ht]
    · simp [hi]

/-- So an entry may be set after it. -/
theorem Takes.setPte (h : Takes m d m' d' R true) (a : Nat) (e : Pte) :
    Takes m d m' (d'.setPte a e) R true where
  length := by rw [present_setPte]; exact h.length
  old i hi := by rw [setPte_pde_isSome]; exact h.old i hi
  new i hi := by rw [setPte_pde_isSome] at hi; exact h.new i hi
  all hb i hi := by rw [setPte_pde_isSome]; exact h.all hb i hi
  short := nofun

/-- `walkpgdir` takes a frame if there is no table. -/
theorem walkpgdir_takes {a : Nat} (h : m.walkpgdir d a = (b, m', d')) :
    Takes m d m' d' {PDX a} b := by
  unfold walkpgdir at h
  split at h
  · next t ht =>
    cases h
    refine ⟨rfl, fun _ h => h, fun _ h => .inl h, fun _ i hi => ?_, nofun⟩
    rw [Set.mem_singleton_iff.1 hi, ht]
    rfl
  next hn =>
  split at h
  · next hk =>
    cases h
    obtain ⟨hf, rfl⟩ := kalloc_none hk
    exact ⟨rfl, fun _ h => h, fun _ h => .inl h, nofun, fun _ => ⟨hf, PDX a, rfl, hn⟩⟩
  next f m1 hk =>
  cases h
  refine ⟨?_, fun i hi => ?_, fun i hi => ?_, fun _ i hi => ?_, nofun⟩
  · rw [present_update hn, (kalloc_some hk).1, List.length_cons]
    omega
  · rcases eq_or_ne i (PDX a) with rfl | hne
    · simp
    · simpa [hne] using hi
  · rcases eq_or_ne i (PDX a) with rfl | hne
    · exact .inr rfl
    · exact .inl (by simpa [hne] using hi)
  · rw [Set.mem_singleton_iff.1 hi]
    simp

/-- The entries of the directory for `n` pages from the address `a` on. -/
def tablesOf (a n : Nat) : Set (Fin 1024) :=
  { i | ∃ vp, a / PGSIZE ≤ vp ∧ vp < a / PGSIZE + n ∧ PDX (vp * PGSIZE) = i }

theorem tablesOf_zero (a : Nat) : tablesOf a 0 = ∅ :=
  Set.eq_empty_of_forall_notMem fun _ ⟨_, h1, h2, _⟩ => absurd h2 (Nat.not_lt.2 h1)

/-- The first page, and the others. -/
theorem tablesOf_succ (a n : Nat) : tablesOf a (n + 1) = {PDX a} ∪ tablesOf (a + PGSIZE) n := by
  have hnext : (a + PGSIZE) / PGSIZE = a / PGSIZE + 1 := by simp [PGSIZE]
  ext i
  simp only [tablesOf, hnext, Set.mem_ofPred_eq, Set.mem_union, Set.mem_singleton_iff]
  constructor
  · rintro ⟨vp, h1, h2, rfl⟩
    rcases Nat.eq_or_lt_of_le h1 with rfl | h3
    · exact .inl (PageDir.PDX_round a)
    · exact .inr ⟨vp, h3, by omega, rfl⟩
  · rintro (rfl | ⟨vp, h1, h2, rfl⟩)
    · exact ⟨a / PGSIZE, le_rfl, by omega, PageDir.PDX_round a⟩
    · exact ⟨vp, by omega, by omega, rfl⟩

/-- What the loop of `mappages` takes. -/
theorem mapLoop_takes (hhi : a + n * PGSIZE ≤ 2 ^ 32)
    (h : mapLoop w u n m d a pa = .ok (b, m', d')) : Takes m d m' d' (tablesOf a n) b := by
  induction n generalizing m d a pa with
  | zero =>
    cases h
    rw [tablesOf_zero]
    exact .refl ..
  | succ n ih =>
    rw [tablesOf_succ]
    simp only [mapLoop] at h
    split at h
    · next hw =>
      cases h
      exact (walkpgdir_takes hw).weaken
    next hw =>
    split at h
    · cases h
    have hT := (walkpgdir_takes hw).setPte a { frame := pa / PGSIZE, p := true, w, u }
    rcases Nat.eq_zero_or_pos n with rfl | hn
    · cases h
      rw [tablesOf_zero, Set.union_empty]
      exact hT
    · rw [Nat.mod_eq_of_lt (by simp only [PGSIZE] at *; omega)] at h
      exact hT.trans (ih (by simp only [PGSIZE] at *; omega) h)

/-! ## `setupkvm` -/

/-- The page tables for the kernel's mappings. -/
def KTABLES : Nat := 64

/-- The entries of the directory for these. -/
def kernelTables : Set (Fin 1024) := { i | 512 ≤ i.val ∧ i.val < 568 ∨ 1016 ≤ i.val }

instance (i : Fin 1024) : Decidable (i ∈ kernelTables) :=
  inferInstanceAs (Decidable (512 ≤ i.val ∧ i.val < 568 ∨ 1016 ≤ i.val))

/-- The entries of the directory for a list of mappings. -/
def tablesOfAll : List Kmap → Set (Fin 1024)
  | [] => ∅
  | k :: ks => tablesOf (PGROUNDDOWN k.virt) (mapTurns k.virt k.size) ∪ tablesOfAll ks

/-- The page tables of pages in the address space. -/
theorem mem_tablesOf (hhi : a / PGSIZE + n ≤ 2 ^ 20) (i : Fin 1024) :
    i ∈ tablesOf a n ↔ 0 < n ∧ a / PGSIZE < (i.val + 1) * 1024 ∧ i.val * 1024 < a / PGSIZE + n := by
  constructor
  · rintro ⟨vp, h1, h2, rfl⟩
    rw [PageDir.PDX_page, Fin.val_ofNat]
    omega
  · rintro ⟨hn, h1, h2⟩
    refine ⟨max (a / PGSIZE) (i.val * 1024), le_max_left _ _, by omega, ?_⟩
    rw [PageDir.PDX_page, Fin.ext_iff, Fin.val_ofNat]
    have := i.isLt
    omega

/-- The page tables of `kmap`, by their addresses. -/
theorem mem_tablesOfAll (i : Fin 1024)
    (hhi : ∀ k ∈ ks, PGROUNDDOWN k.virt / PGSIZE + mapTurns k.virt k.size ≤ 2 ^ 20) :
    i ∈ tablesOfAll ks ↔ ∃ k ∈ ks, 0 < mapTurns k.virt k.size ∧
      PGROUNDDOWN k.virt / PGSIZE < (i.val + 1) * 1024 ∧
      i.val * 1024 < PGROUNDDOWN k.virt / PGSIZE + mapTurns k.virt k.size := by
  induction ks with
  | nil => simp [tablesOfAll]
  | cons k ks ih =>
    rw [tablesOfAll, Set.mem_union, mem_tablesOf (hhi k (.head _)),
      ih fun l hl => hhi l (.tail _ hl), List.exists_mem_cons_iff]

/-- The kernel's mappings: 224 MB from `KERNBASE` on, and the devices. -/
theorem tablesOfAll_kmap : tablesOfAll kmap = kernelTables := by
  have hhi : ∀ k ∈ kmap, PGROUNDDOWN k.virt / PGSIZE + mapTurns k.virt k.size ≤ 2 ^ 20 := by
    decide +kernel
  have heval : ∀ i : Fin 1024, (∃ k ∈ kmap, 0 < mapTurns k.virt k.size ∧
      PGROUNDDOWN k.virt / PGSIZE < (i.val + 1) * 1024 ∧
      i.val * 1024 < PGROUNDDOWN k.virt / PGSIZE + mapTurns k.virt k.size) ↔ i ∈ kernelTables := by
    decide +kernel
  ext i
  rw [mem_tablesOfAll i hhi, heval i]

/-- What the loop of `setupkvm` takes. -/
theorem kmapLoop_takes {r : Option PageDir} (hker : ∀ k ∈ ks, k.Kernel)
    (h : kmapLoop ks m d = .ok (r, m')) :
    ∃ d', Takes m d m' d' (tablesOfAll ks) r.isSome ∧ ∀ d1 ∈ r, d1 = d' := by
  induction ks generalizing m d with
  | nil =>
    cases h
    exact ⟨d, .refl .., fun d1 h => by cases h; rfl⟩
  | cons k ks ih =>
    simp only [kmapLoop, bind_eq_ok] at h
    obtain ⟨⟨b, m1, d1⟩, hmap, h⟩ := h
    have hT := mapLoop_takes (hker k (.head _)).2 hmap
    cases b with
    | false =>
      cases h
      exact ⟨d1, hT.weaken, fun _ h => by cases h⟩
    | true =>
      obtain ⟨d', hT', hr⟩ := ih (fun l hl => hker l (.tail _ hl)) h
      exact ⟨d', hT.trans hT', hr⟩

/-- The directory that `setupkvm` starts from. -/
theorem present_empty (f : Frame) : present { frame := f, pde := fun _ => none } = 0 := by
  simp [present]

/-- The number of page tables that `setupkvm` needs. -/
theorem kernelTables_card : (univ.filter fun i => i ∈ kernelTables).card = KTABLES := by
  decide +kernel

/-- A successful `setupkvm` takes a frame for the directory and one for each page table. -/
theorem setupkvm_length (h : m.setupkvm = .ok (some d, m')) :
    m.freelist.length = m'.freelist.length + KTABLES + 1 ∧
      ∀ i, (d.pde i).isSome = true ↔ i ∈ kernelTables := by
  unfold setupkvm at h
  split at h
  · cases h
  next f m1 hk =>
  split at h
  · cases h
  obtain ⟨d', hT, hd⟩ := kmapLoop_takes kmap_kernel h
  obtain rfl := hd d rfl
  rw [tablesOfAll_kmap] at hT
  have hpde (i : Fin 1024) : (d.pde i).isSome = true ↔ i ∈ kernelTables :=
    ⟨fun hi => (hT.new i hi).resolve_left nofun, hT.all rfl i⟩
  have hcard : d.present = KTABLES := by
    rw [← kernelTables_card]
    exact congrArg card (filter_congr fun i _ => hpde i)
  have hlen := hT.length
  rw [present_empty, hcard] at hlen
  rw [(kalloc_some hk).1, List.length_cons]
  exact ⟨by omega, hpde⟩

/-- A failed `setupkvm` has used up the free list, which was too short for the page tables. -/
theorem setupkvm_short (h : m.setupkvm = .ok (none, m')) :
    m.freelist.length ≤ KTABLES ∧ m'.freelist = [] := by
  unfold setupkvm at h
  split at h
  · next hk =>
    cases h
    obtain ⟨hf, rfl⟩ := kalloc_none hk
    exact ⟨by rw [hf]; exact Nat.zero_le _, hf⟩
  next f m1 hk =>
  split at h
  · cases h
  obtain ⟨d', hT, -⟩ := kmapLoop_takes kmap_kernel h
  rw [tablesOfAll_kmap] at hT
  obtain ⟨hnil, i, hi, hn⟩ := hT.short rfl
  have hcard : d'.present < KTABLES := by
    rw [← kernelTables_card]
    refine card_lt_card (ssubset_iff_of_subset ?_ |>.2 ⟨i, ?_, ?_⟩)
    · intro j hj
      have hj := (mem_filter.1 hj).2
      exact mem_filter.2 ⟨mem_univ j, (hT.new j hj).resolve_left nofun⟩
    · exact mem_filter.2 ⟨mem_univ i, hi⟩
    · simp [hn]
  have hlen := hT.length
  rw [present_empty, hnil, List.length_nil] at hlen
  rw [(kalloc_some hk).1, List.length_cons]
  exact ⟨by omega, hnil⟩

/-- The first page of a mapping. -/
def Kmap.first (k : Kmap) : Nat := PGROUNDDOWN k.virt / PGSIZE

/-- The page after the last one of a mapping. -/
def Kmap.last (k : Kmap) : Nat := k.first + mapTurns k.virt k.size

/-- The ranges of `kmap` do not overlap. -/
theorem kmap_disjoint : kmap.Pairwise fun k l => k.last ≤ l.first := by decide +kernel

/-- The loop of `mappages` returns for pages that are not mapped, and leaves the others. -/
theorem mapLoop_returns (pa : Nat) (ha : a % PGSIZE = 0) (hhi : a + n * PGSIZE ≤ 2 ^ 32)
    (hfree : ∀ vp, a / PGSIZE ≤ vp → vp < a / PGSIZE + n → (d.entry vp).p = false) :
    ∃ b m' d', mapLoop w u n m d a pa = .ok (b, m', d') ∧
      ∀ vp < 2 ^ 20, vp < a / PGSIZE ∨ a / PGSIZE + n ≤ vp → d'.entry vp = d.entry vp := by
  induction n generalizing m d a pa with
  | zero => exact ⟨true, m, d, rfl, fun _ _ _ => rfl⟩
  | succ n ih =>
    rcases hw : m.walkpgdir d a with ⟨b, m1, d1⟩
    obtain ⟨hW, ht, -⟩ := walkpgdir_spec hw
    cases b with
    | false =>
      refine ⟨false, m1, d1, ?_, fun _ _ _ => by rw [hW.entry]⟩
      simp only [mapLoop, hw]
    | true =>
      obtain ⟨hs, -⟩ := ht rfl
      have hlt : a < 2 ^ 32 := by simp only [PGSIZE] at hhi; omega
      have hnp : ((d1.pte a).any (·.p)) = false := by
        have := hfree (a / PGSIZE) le_rfl (by omega)
        rw [← hW.entry, entry_div] at this
        cases he : d1.pte a with
        | none => rfl
        | some e => simpa [he] using this
      set e : Pte := { frame := pa / PGSIZE, p := true, w, u } with he
      have hdiv : (a + PGSIZE) / PGSIZE = a / PGSIZE + 1 := by simp [PGSIZE]
      have hkeep (vp : Nat) (hvp : vp < 2 ^ 20) (hne : vp ≠ a / PGSIZE) :
          (d1.setPte a e).entry vp = d.entry vp := by
        rw [entry_setPte hlt hvp hs, if_neg hne, hW.entry]
      rcases Nat.eq_zero_or_pos n with rfl | hn
      · refine ⟨true, m1, d1.setPte a e, ?_, fun vp hvp h => hkeep vp hvp (by omega)⟩
        simp only [mapLoop, hw, hnp, Bool.false_eq_true, if_false, he]
      have hmod : (a + PGSIZE) % 2 ^ 32 = a + PGSIZE := by
        have : PGSIZE ≤ n * PGSIZE := Nat.le_mul_of_pos_left _ hn
        simp only [PGSIZE] at *; omega
      obtain ⟨b, m', d', heq, hent⟩ := ih (m := m1) (d := d1.setPte a e) (a := a + PGSIZE)
        (pa + PGSIZE) (by simp only [PGSIZE] at *; omega)
        (by rw [Nat.succ_mul] at hhi; omega) fun vp h1 h2 => by
          rw [hdiv] at h1 h2
          have hvp : vp < 2 ^ 20 := by
            rw [Nat.succ_mul] at hhi
            simp only [PGSIZE] at *
            omega
          rw [hkeep vp hvp (by omega)]
          exact hfree vp (by omega) (by omega)
      refine ⟨b, m', d', ?_, fun vp hvp h => ?_⟩
      · simp only [mapLoop, hw, hnp, Bool.false_eq_true, if_false, hmod]
        exact heq
      · rw [hdiv] at hent
        rw [hent vp hvp (by omega), hkeep vp hvp (by omega)]

/-- So the loop of `setupkvm` does not panic. -/
theorem kmapLoop_returns (hker : ∀ k ∈ ks, k.Kernel)
    (hdis : ks.Pairwise fun k l => k.last ≤ l.first)
    (hfree : ∀ k ∈ ks, ∀ vp, k.first ≤ vp → vp < k.last → (d.entry vp).p = false) :
    ∃ r m', kmapLoop ks m d = .ok (r, m') := by
  induction ks generalizing m d with
  | nil => exact ⟨some d, m, rfl⟩
  | cons k ks ih =>
    obtain ⟨b, m1, d1, heq, hent⟩ := mapLoop_returns (w := k.w) (u := false) (m := m) k.phys_start
      (Nat.mul_mod_left _ _) (hker k (.head _)).2 (hfree k (.head _))
    cases b with
    | false => exact ⟨none, m1, bind_eq_ok.2 ⟨_, heq, rfl⟩⟩
    | true =>
      obtain ⟨r, m', heq'⟩ := ih (m := m1) (d := d1) (fun l hl => hker l (.tail _ hl)) hdis.of_cons
        fun l hl vp h1 h2 => by
          have h3 : k.last ≤ l.first := List.rel_of_pairwise_cons hdis hl
          have h4 : vp < 2 ^ 20 := by
            have := (hker l (.tail _ hl)).2
            simp only [Kmap.last, Kmap.first, PGSIZE] at h2 this
            omega
          rw [hent vp h4 (.inr (h3.trans h1))]
          exact hfree l (.tail _ hl) vp h1 h2
      exact ⟨r, m', bind_eq_ok.2 ⟨_, heq, heq'⟩⟩

/-- `setupkvm` does not panic: the kernel's mappings do not overlap. -/
theorem setupkvm_returns (m : Memory) : ∃ r m', m.setupkvm = .ok (r, m') := by
  unfold setupkvm
  split
  · exact ⟨_, _, rfl⟩
  · rw [if_neg (by decide)]
    exact kmapLoop_returns kmap_kernel kmap_disjoint fun _ _ _ _ _ => rfl

/-- `setupkvm` succeeds with frames for the directory and the kernel's page tables. -/
theorem setupkvm_enough (h : KTABLES < m.freelist.length) :
    ∃ d m', m.setupkvm = .ok (some d, m') := by
  obtain ⟨r, m', hk⟩ := setupkvm_returns m
  cases r with
  | some d => exact ⟨d, m', hk⟩
  | none => exact absurd (setupkvm_short hk).1 (by omega)

/-- What `setupkvm` leaves. -/
theorem setupkvm_room (h : KTABLES < m.freelist.length) : ∃ m' d, m.setupkvm = .ok (some d, m') ∧
      m.freelist.length = m'.freelist.length + KTABLES + 1 ∧
      ∀ i : Fin 1024, i.val < 512 → d.pde i = none := by
  obtain ⟨d, m', hk⟩ := setupkvm_enough h
  obtain ⟨hlen, hpde⟩ := setupkvm_length hk
  refine ⟨m', d, hk, hlen, fun i hi => Option.not_isSome_iff_eq_none.1 fun hs => ?_⟩
  have := (hpde i).1 hs
  simp only [kernelTables, Set.mem_ofPred_eq] at this
  omega

end

end Msboss.Vm
