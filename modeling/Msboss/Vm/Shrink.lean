import Msboss.Vm.Ownership
import Msboss.Vm.Tables

/-!
# Shrinking a process

Above the end of a process no page should be mapped: `growproc` and `shm_get` map pages there, and
`mappages` panics where one is present. `Trimmed` is this invariant, for every process. Growing
keeps it, also when memory runs out on the way, since what has been mapped is unmapped again.
Shrinking need not: `deallocuvm`

* leaves the pages of shared regions mapped, and
* steps over as many pages as a page table has where it finds none, also from the middle of a table.

`shm_get` that finds no memory moves the pages of the process down by one (`deallocshm`), and panics
itself if there are more than two.

`Retracts` is the condition on the calls under which none of this happens; on the runs that meet it
no `growproc` and no `shm_get` reaches the panic (`shrink_unmaps`).
-/

namespace Msboss.Vm

open Function Memory PageDir

/-- No user page from `k` on is present. -/
def PageDir.Clear (d : PageDir) (k : Nat) : Prop :=
  ∀ vp, k ≤ vp → vp < UPAGES → (d.entry vp).p = false

theorem PageDir.Clear.mono {d : PageDir} (h : d.Clear k) (hkl : k ≤ l) : d.Clear l :=
  fun vp hl => h vp (hkl.trans hl)

/-- No page above the end of the process is present. -/
def Proc.Trim (P : Proc) : Prop := P.pgdir.Clear (PGROUNDUP P.sz / PGSIZE)

/-! ## `mappages` -/

section
variable {m m' : Memory} {d d' : PageDir} {va pa : Nat} {w u b : Bool}

/-- `mappages` on a page that is not present does not panic. -/
theorem mappages_ne_remap (hva : va % PGSIZE = 0) (hlt : va < 2 ^ 32)
    (hp : (d.entry (va / PGSIZE)).p = false) :
    m.mappages d va PGSIZE pa w u ≠ .error (.panic .remap) := by
  rw [mappages_one hva hlt]
  simp only [mapLoop]
  split
  · intro h
    cases h
  next m1 d1 hw =>
  have hnp : (d1.pte va).any (·.p) = false := by
    have hent := (walkpgdir_spec hw).1.entry
    rw [← hent, entry_div] at hp
    cases he : d1.pte va with
    | none => rfl
    | some e => simpa [he] using hp
  rw [hnp]
  intro h
  cases h

end

/-! ## `deallocuvm` -/

section
variable {m m' : Memory} {d d' : PageDir} {acc : Int} {oldsz : Nat}

/-- `shm_arr_findPA` finds no private frame. -/
theorem findPA_of_not_region {e : Pte} (h0 : e.addr ≠ 0) (hr : ¬ m.Region e.frame) (c : Int) :
    m.shm_arr_findPA e.addr c = none := by
  rw [shm_arr_findPA, Option.map_eq_none_iff, List.find?_eq_none]
  intro i _ hi
  have hpos : 0 < e.frame := Nat.pos_of_ne_zero fun hz => h0 (by rw [Pte.addr, hz, Nat.zero_mul])
  exact hr ⟨hpos, i, (of_decide_eq_true hi).symm⟩

/-- `d'` is `d` without the pages from `k` up to the address `oldsz`. -/
structure Unmapped (d d' : PageDir) (k oldsz : Nat) : Prop where
  gone : ∀ vp < UPAGES, k ≤ vp → vp * PGSIZE < oldsz → (d'.entry vp).p = false
  kept : ∀ vp < UPAGES, vp < k ∨ oldsz ≤ vp * PGSIZE → d'.entry vp = d.entry vp

/-- Nothing is left above. -/
theorem Unmapped.clear (h : Unmapped d d' k oldsz)
    (hc : ∀ vp < UPAGES, oldsz ≤ vp * PGSIZE → (d.entry vp).p = false) : d'.Clear k := by
  intro vp hk hvp
  rcases Nat.lt_or_ge (vp * PGSIZE) oldsz with hlt | hge
  · exact h.gone vp hvp hk hlt
  · rw [h.kept vp hvp (.inr hge)]
    exact hc vp hvp hge

/-- The page `k`, and those above it. -/
theorem Unmapped.cons {d1 : PageDir} (h : Unmapped d1 d' (k + 1) oldsz)
    (hself : (d1.entry k).p = false) (hk : k * PGSIZE < oldsz)
    (hne : ∀ vp < UPAGES, vp ≠ k → d1.entry vp = d.entry vp) : Unmapped d d' k oldsz := by
  refine ⟨fun vp hv h1 h2 => ?_, fun vp hv hout => ?_⟩
  · rcases Nat.eq_or_lt_of_le h1 with rfl | h3
    · rw [h.kept _ hv (.inl (Nat.lt_succ_self _))]
      exact hself
    · exact h.gone vp hv h3 h2
  · rw [h.kept vp hv (hout.imp_left Nat.lt_succ_of_lt), hne vp hv]
    rintro rfl
    rcases hout with hout | hout <;> omega

/-- The loop of `deallocuvm` unmaps all pages up to `oldsz`, if they are private and it does not
start in the middle of a page table that is missing. -/
theorem deallocLoop_unmapped (hsz : oldsz ≤ KERNBASE) {n a : Nat} (ha : a % PGSIZE = 0)
    (hal : a % (NPTENTRIES * PGSIZE) = 0 ∨ (d.pte a).isSome = true ∨ d.Clear (a / PGSIZE))
    (hn : oldsz ≤ (a / PGSIZE + n) * PGSIZE)
    (hpriv : ∀ vp < UPAGES, a / PGSIZE ≤ vp → vp * PGSIZE < oldsz → (d.entry vp).p = true →
      ¬ m.Region (d.entry vp).frame) (h : deallocLoop oldsz acc n m d a = .ok (m', d')) :
    Unmapped d d' (a / PGSIZE) oldsz := by
  -- the address moves on by a page, or over a page table of which no page is present
  have hnext (a : Nat) : (a + PGSIZE) / PGSIZE = a / PGSIZE + 1 := by simp [PGSIZE]
  have hn' {a n : Nat} (hn : oldsz ≤ (a / PGSIZE + (n + 1)) * PGSIZE) :
      oldsz ≤ ((a + PGSIZE) / PGSIZE + n) * PGSIZE := by
    rw [hnext, Nat.add_right_comm]
    exact hn
  have hal' {a : Nat} {d : PageDir} (ha : a % PGSIZE = 0) (hs : (d.pte a).isSome = true) :
      (a + PGSIZE) % (NPTENTRIES * PGSIZE) = 0 ∨ (d.pte (a + PGSIZE)).isSome = true ∨
        d.Clear ((a + PGSIZE) / PGSIZE) :=
    (or_iff_not_imp_left.2 (pte_isSome_next ha hs)).imp_right .inl
  have hdvd {a : Nat} (ha : a % PGSIZE = 0) : a / PGSIZE * PGSIZE = a :=
    Nat.div_mul_cancel (Nat.dvd_of_mod_eq_zero ha)
  replace h := deallocs_of_ok h
  induction h with
  | last =>
    refine ⟨fun vp _ h1 h2 => ?_, fun _ _ _ => rfl⟩
    have := Nat.mul_le_mul_right PGSIZE h1
    rw [Nat.add_zero] at hn
    omega
  | past hge =>
    refine ⟨fun vp _ h1 h2 => ?_, fun _ _ _ => rfl⟩
    have := Nat.mul_le_mul_right PGSIZE h1
    have := hdvd ha
    omega
  | @skip a n m d hlt hnone _ ih =>
    have hdiv : (a + NPTENTRIES * PGSIZE) / PGSIZE = a / PGSIZE + NPTENTRIES := by
      simp only [NPTENTRIES, PGSIZE]
      omega
    replace hal : a % (NPTENTRIES * PGSIZE) = 0 ∨ d.Clear (a / PGSIZE) := by
      simpa [hnone] using hal
    have hturns : oldsz ≤ ((a + NPTENTRIES * PGSIZE) / PGSIZE + n) * PGSIZE := by
      refine hn.trans (Nat.mul_le_mul_right _ ?_)
      rw [hdiv]
      simp only [NPTENTRIES]
      omega
    have hU := ih (by simp [ha]) (hal.imp (by simp [·])
      fun hc => .inr (hc.mono (by rw [hdiv]; exact Nat.le_add_right ..))) hturns
      fun vp hvp h1 => hpriv vp hvp (by rw [hdiv] at h1; omega)
    rw [hdiv] at hU
    refine ⟨fun vp hvp h1 h2 => ?_, fun vp hvp hout => hU.kept vp hvp (hout.imp_left (by omega))⟩
    rcases Nat.lt_or_ge vp (a / PGSIZE + NPTENTRIES) with h3 | h3
    · rw [hU.kept vp hvp (.inl h3)]
      rcases hal with hal | hal
      · rw [entry_of_missing hal hnone h1 h3]
        rfl
      · exact hal vp h1 hvp
    · exact hU.gone vp hvp h3 h2
  | absent hlt he hp _ ih =>
    have hU := ih (by simp [ha]) (hal' ha (by rw [he]; rfl)) (hn' hn)
      fun vp hv h1 => hpriv vp hv (by rw [hnext] at h1; omega)
    rw [hnext] at hU
    exact hU.cons (by rwa [entry_of_pte he]) (by rwa [hdvd ha]) fun _ _ _ => rfl
  | shared hlt he hp h0 hi =>
    have hr := hpriv _ (div_lt_UPAGES (hlt.trans_le hsz)) le_rfl (by rwa [hdvd ha])
    rw [entry_of_pte he] at hr
    exact absurd ⟨Nat.pos_of_mul_pos_right (Nat.pos_of_ne_zero h0), _, hi⟩ (hr hp)
  | freed hlt he hp _ _ hk _ ih =>
    have hsome := Option.isSome_of_eq_some he
    have hent (vp : Nat) (hv : vp < UPAGES) := entry_setPte (e := .zero)
      ((hlt.trans_le hsz).trans (by decide)) (hv.trans_le (by decide)) hsome
    have hU := ih (by simp [ha]) (hal' ha (by rw [pte_setPte_isSome]; exact hsome)) (hn' hn)
      fun vp hv h1 h2 h3 => by
        rw [hnext] at h1
        rw [hent vp hv, if_neg (by omega)] at h3 ⊢
        rw [(SameRegions.of_eq (kfree_ok hk).2.1).region]
        exact hpriv vp hv (by omega) h2 h3
    rw [hnext] at hU
    refine hU.cons ?_ (by rwa [hdvd ha]) fun vp hv hne => by rw [hent vp hv, if_neg hne]
    rw [hent _ (div_lt_UPAGES (hlt.trans_le hsz)), if_pos rfl]
    rfl

/-- `deallocuvm` unmaps all pages from `newsz` up to `oldsz`. -/
theorem deallocuvm_unmapped (hsz : oldsz ≤ KERNBASE) (hlt : newsz < oldsz)
    (hal : PGROUNDUP newsz % (NPTENTRIES * PGSIZE) = 0 ∨ (d.pte (PGROUNDUP newsz)).isSome = true ∨
      d.Clear (PGROUNDUP newsz / PGSIZE))
    (hpriv : ∀ vp < UPAGES, PGROUNDUP newsz / PGSIZE ≤ vp → vp * PGSIZE < oldsz →
      (d.entry vp).p = true → ¬ m.Region (d.entry vp).frame)
    (h : m.deallocuvm d oldsz newsz acc = .ok (sz, m', d')) :
    sz = newsz ∧ Unmapped d d' (PGROUNDUP newsz / PGSIZE) oldsz := by
  unfold deallocuvm at h
  rw [if_neg (Nat.not_le.2 hlt)] at h
  obtain ⟨⟨m1, d1⟩, hl, h⟩ := bind_eq_ok.1 h
  cases h
  refine ⟨rfl, deallocLoop_unmapped hsz (PGROUNDUP_mod _) hal ?_ hpriv hl⟩
  simp only [PGSIZE]
  omega

end

/-! ## `allocuvm` -/

section
variable {m m' : Memory} {d d' : PageDir} {oldsz newsz sz : Nat}

theorem le_PGROUNDUP (h : sz < KERNBASE) : sz ≤ PGROUNDUP sz := by
  simp only [PGROUNDUP, KERNBASE, PGSIZE] at *
  omega

/-- Where the loop of `allocuvm` can be, at the address `a`, after it has mapped the pages from
`lo` on. -/
structure Growing (m : Memory) (d : PageDir) (lo a : Nat) : Prop where
  le : lo ≤ a
  free : ∀ f ∈ m.freelist, ¬ m.Region f
  above : d.Clear (a / PGSIZE)
  unshared : ∀ vp < UPAGES, lo / PGSIZE ≤ vp → (d.entry vp).p = true → ¬ m.Region (d.entry vp).frame
  /-- The first of these pages has a page table, or none of them is mapped for want of one. -/
  table : a = lo ∨ (d.pte lo).isSome = true ∨ m.freelist = [] ∧ d.Clear (lo / PGSIZE)

/-- One turn of the loop. -/
theorem Growing.page (hG : Growing m d lo a) (ha : a % PGSIZE = 0) (hlt : a < KERNBASE)
    (hk : m.kalloc = (some f, m1))
    (hmap : (m1.fill f 0).mappages d a PGSIZE (f * PGSIZE) true true = .ok (b, m2, d2)) :
    Growing m2 d2 lo (a + PGSIZE) := by
  obtain ⟨hfl, hm⟩ := kalloc_some hk
  have hlt' : a < 2 ^ 32 := hlt.trans (by decide)
  obtain ⟨d1, hW, ht, hf⟩ := mappages_page ha hlt' hmap
  have hs : m2.shm_arr = m.shm_arr := by
    rw [hW.shm_arr, hm]
    rfl
  have hregion {g : Frame} : m2.Region g ↔ m.Region g := (SameRegions.of_eq hs).region
  have hnext : (a + PGSIZE) / PGSIZE = a / PGSIZE + 1 := by simp [PGSIZE]
  have hother {vp : Nat} (hvp : vp < UPAGES) (hne : vp ≠ a / PGSIZE) :=
    mappages_other ha hlt hmap hvp hne
  have hfr : f * PGSIZE / PGSIZE = f := Nat.mul_div_cancel _ (by decide)
  refine ⟨Nat.le_add_right_of_le hG.le, fun g hg => ?_, fun vp h1 hvp => ?_, fun vp hvp h1 hp => ?_,
    ?_⟩
  · rw [hregion]
    refine hG.free g ?_
    rw [hfl]
    exact .tail _ (mappages_free ha hlt' hmap hg)
  · rw [hnext] at h1
    rw [hother hvp (by omega)]
    exact hG.above vp (by omega) hvp
  · rw [hregion]
    rcases eq_or_ne vp (a / PGSIZE) with rfl | hne
    · cases b with
      | true =>
        rw [mappages_entry ha hlt hmap hvp, if_pos rfl]
        simp only [hfr]
        exact hG.free f (by rw [hfl]; exact .head _)
      | false =>
        rw [(hf rfl).1, hW.entry, hG.above _ le_rfl hvp] at hp
        cases hp
    · rw [hother hvp hne] at hp ⊢
      exact hG.unshared vp hvp h1 hp
  · have htable : a = lo ∨ (d.pte lo).isSome = true := by
      refine hG.table.imp_right fun h => h.resolve_right fun hn => ?_
      rw [hfl] at hn
      cases hn.1
    cases b with
    | true =>
      obtain ⟨rfl, hs1, -⟩ := ht rfl
      rw [pte_setPte_isSome]
      rcases htable with rfl | htable
      · exact .inr (.inl hs1)
      · exact .inr (.inl (hW.isSome lo htable))
    | false =>
      obtain ⟨rfl, -, hnil⟩ := hf rfl
      rcases htable with rfl | htable
      · refine .inr (.inr ⟨hnil, fun vp h1 hvp => ?_⟩)
        rw [hW.entry]
        exact hG.above vp h1 hvp
      · exact .inr (.inl (hW.isSome lo htable))

/-- The loop of `allocuvm` ends with nothing mapped above the new size, or above the old one if it
fails. -/
theorem allocLoop_clear (hnew : newsz < KERNBASE) (hold : oldsz ≤ newsz)
    (hG : Growing m d (PGROUNDUP oldsz) a) (ha : a % PGSIZE = 0)
    (hn : n = 0 ∨ a + (n - 1) * PGSIZE < newsz)
    (h : allocLoop oldsz newsz n m d a = .ok (sz, m', d')) :
    sz = newsz ∧ d'.Clear (a / PGSIZE + n) ∨ sz = 0 ∧ d'.Clear (PGROUNDUP oldsz / PGSIZE) := by
  induction n generalizing m d a with
  | zero =>
    cases h
    exact .inl ⟨rfl, hG.above⟩
  | succ n ih =>
    have hlt : a < newsz := by
      rcases hn with hn | hn
      · omega
      · exact (Nat.le_add_right _ _).trans_lt hn
    simp only [allocLoop] at h
    split at h
    · next m1 hk =>
      obtain ⟨⟨sz', m2, d2⟩, hd, h⟩ := bind_eq_ok.1 h
      cases h
      obtain ⟨-, rfl⟩ := kalloc_none hk
      have hal : PGROUNDUP oldsz % (NPTENTRIES * PGSIZE) = 0 ∨
          (d.pte (PGROUNDUP oldsz)).isSome = true ∨ d.Clear (PGROUNDUP oldsz / PGSIZE) := by
        rcases hG.table with rfl | htab | htab
        · exact .inr (.inr hG.above)
        · exact .inr (.inl htab)
        · exact .inr (.inr htab.2)
      have hlt' : oldsz < newsz := (le_PGROUNDUP (hold.trans_lt hnew)).trans_lt (hG.le.trans_lt hlt)
      obtain ⟨-, hU⟩ := deallocuvm_unmapped (m := { m with oom := true }) hnew.le hlt' hal
        (fun vp hvp h1 _ hp => hG.unshared vp hvp h1 hp) hd
      refine .inr ⟨rfl, hU.clear fun vp hvp hge => hG.above vp ?_ hvp⟩
      simp only [PGSIZE] at *
      omega
    · next f m1 hk =>
      obtain ⟨⟨b, m2, d2⟩, hmap, h⟩ := bind_eq_ok.1 h
      have hn' : n = 0 ∨ a + PGSIZE + (n - 1) * PGSIZE < newsz := by
        rcases n with - | n
        · exact .inl rfl
        · simp only [PGSIZE] at hn ⊢
          omega
      have := ih (hG.page ha (hlt.trans hnew) hk hmap) (by simp [ha]) hn' h
      have hstep : (a + PGSIZE) / PGSIZE + n = a / PGSIZE + (n + 1) := by
        simp only [PGSIZE]
        omega
      rwa [hstep] at this

/-- `allocuvm` keeps what is above the process clear. -/
theorem allocuvm_clear (hold : oldsz < KERNBASE) (hfree : ∀ f ∈ m.freelist, ¬ m.Region f)
    (hc : d.Clear (PGROUNDUP oldsz / PGSIZE)) (h : m.allocuvm d oldsz newsz = .ok (sz, m', d')) :
    d'.Clear (PGROUNDUP (if sz = 0 then oldsz else sz) / PGSIZE) := by
  unfold allocuvm at h
  split at h
  · cases h
    exact hc
  next hnew =>
  have hnew : newsz < KERNBASE := Nat.lt_of_not_le hnew
  split at h
  · cases h
    rwa [ite_self]
  next hle =>
  have hle : oldsz ≤ newsz := Nat.le_of_not_lt hle
  have hG : Growing m d (PGROUNDUP oldsz) (PGROUNDUP oldsz) :=
    { le := le_rfl
      free := hfree
      above := hc
      unshared := fun vp hvp h1 hp => by
        rw [hc vp h1 hvp] at hp
        cases hp
      table := .inl rfl }
  rcases allocLoop_clear hnew hle hG (PGROUNDUP_mod _) (turns_bound ..) h with ⟨rfl, h1⟩ | ⟨rfl, h1⟩
  · refine h1.mono ?_
    split <;>
    · simp only [PGROUNDUP, KERNBASE, PGSIZE] at *
      omega
  · exact h1

end

/-! ## The panic -/

section
variable {m : Memory} {d : PageDir} {oldsz newsz : Nat} {acc : Int} {P : Proc}

/-- `kfree` maps nothing, so it does not panic with remap. -/
theorem kfree_ne_remap (m : Memory) (pa : Nat) : m.kfree pa ≠ .error (.panic .remap) := by
  simp only [kfree]
  split <;> exact fun h => by cases h

/-- Nor does the loop of `deallocuvm`. -/
theorem deallocLoop_ne_remap : deallocLoop oldsz acc n m d a ≠ .error (.panic .remap) := by
  induction n generalizing m d a with
  | zero => exact fun h => by cases h
  | succ n ih =>
    simp only [deallocLoop]
    split
    swap
    · intro h
      cases h
    split
    · exact ih
    split
    swap
    · exact ih
    split
    · intro h
      cases h
    split
    · exact ih
    · exact bind_ne_error (kfree_ne_remap _ _) fun _ _ => ih

/-- Nor does `deallocuvm`. -/
theorem deallocuvm_ne_remap : m.deallocuvm d oldsz newsz acc ≠ .error (.panic .remap) := by
  unfold deallocuvm
  split
  · nofun
  · exact bind_ne_error deallocLoop_ne_remap fun _ _ => nofun

/-- The loop of `allocuvm` does not panic while nothing is mapped above it. -/
theorem allocLoop_ne_remap (hnew : newsz < KERNBASE) (hc : d.Clear (a / PGSIZE))
    (ha : a % PGSIZE = 0) (hn : n = 0 ∨ a + (n - 1) * PGSIZE < newsz) :
    allocLoop oldsz newsz n m d a ≠ .error (.panic .remap) := by
  induction n generalizing m d a with
  | zero => exact fun h => by cases h
  | succ n ih =>
    have hlt : a < KERNBASE := by
      rcases hn with hn | hn
      · omega
      · exact ((Nat.le_add_right _ _).trans_lt hn).trans hnew
    have hlt' : a < 2 ^ 32 := hlt.trans (by decide)
    simp only [allocLoop]
    split
    · exact bind_ne_error deallocuvm_ne_remap fun _ _ h => by cases h
    refine bind_ne_error (mappages_ne_remap ha hlt' (hc _ le_rfl (div_lt_UPAGES hlt))) ?_
    rintro ⟨b, m2, d2⟩ hmap
    refine ih (fun vp h1 hvp => ?_) (by simp [ha]) ?_
    · have h1 : a / PGSIZE + 1 ≤ vp := by simpa [PGSIZE] using h1
      rw [mappages_other ha hlt hmap hvp (by omega)]
      exact hc vp (by omega) hvp
    · rcases n with - | n
      · exact .inl rfl
      · simp only [PGSIZE] at hn ⊢
        omega

/-- `growproc` does not panic while nothing is mapped above the process. -/
theorem growproc_ne_remap (n : Int) (hP : P.Trim) : m.growproc P n ≠ .error (.panic .remap) := by
  unfold growproc
  simp only
  split
  · refine bind_ne_error ?_ fun x _ => by split <;> nofun
    unfold allocuvm
    split
    · nofun
    next hnew =>
    split
    · nofun
    · exact allocLoop_ne_remap (Nat.lt_of_not_le hnew) hP (PGROUNDUP_mod _) (turns_bound ..)
  · split
    · exact bind_ne_error deallocuvm_ne_remap fun x _ => by split <;> nofun
    · nofun

/-- The same for `shm_alloc` of a page, if there is memory for it. -/
theorem shm_alloc_ne_remap (hsz : P.sz < KERNBASE) (hP : P.Trim)
    (hmem : shmMap = 0 → m.freelist ≠ []) :
    m.shm_alloc P 4096 ref shmMap junk ≠ .error (.panic .remap) := by
  unfold shm_alloc
  simp only [grow_toNat hsz, show (4096 : Int) > 0 by decide, if_true]
  refine bind_ne_error ?_ fun x _ => by split <;> exact fun h => by cases h
  unfold allocshm
  split
  · intro h
    cases h
  next hlt =>
  have hlt := Nat.not_le.1 hlt
  have halt := (PGROUNDUP_lt hlt).trans hlt
  have hmap (m1 : Memory) (pa : Nat) :
      m1.mappages P.pgdir (PGROUNDUP P.sz) PGSIZE pa true true ≠ .error (.panic .remap) :=
    mappages_ne_remap (PGROUNDUP_mod _) (halt.trans (by decide))
      (hP _ le_rfl (div_lt_UPAGES halt))
  rw [if_neg (by omega)]
  simp only [one_turn hlt]
  refine bind_ne_error ?_ fun x _ => by split <;> exact fun h => by cases h
  simp only [allocshmLoop]
  split
  · next h0 =>
    split
    · next hk => exact absurd (kalloc_none hk).1 (hmem h0)
    · exact bind_ne_error (hmap _ _) fun _ _ h => by cases h
  · exact bind_ne_error (hmap _ _) fun _ _ h => by cases h

/-- `shm_get` maps a page that is free. -/
theorem shm_get_ne_remap (hsz : P.sz < KERNBASE) (hP : P.Trim)
    (hmem : m.shm_find name = none → m.freelist ≠ [])
    (h0 : ∀ i, m.shm_find name = some i → (m.shm_arr i).shmPhys ≠ 0) :
    m.shm_get P name junk ≠ .error (.panic .remap) := by
  unfold shm_get
  split
  · nofun
  split
  · nofun
  split
  · next hfind =>
    split
    swap
    · nofun
    refine bind_ne_error (shm_alloc_ne_remap hsz hP fun _ => hmem hfind) fun x _ => ?_
    split
    · nofun
    · simp only
      split <;> nofun
  · next i hfind =>
    refine bind_ne_error (shm_alloc_ne_remap hsz hP fun h => absurd h (h0 i hfind)) fun x _ => ?_
    split <;> nofun

end

/-! ## The calls -/

/-- What the process would unmap on the way down to `newsz` is its own, and `deallocuvm` does not
start in the middle of a missing page table. -/
def Proc.Retractable (P : Proc) (m : Memory) (newsz : Nat) : Prop :=
  PGROUNDUP newsz < P.sz →
    (PGROUNDUP newsz % (NPTENTRIES * PGSIZE) = 0 ∨
      (P.pgdir.pte (PGROUNDUP newsz)).isSome = true) ∧
    ∀ vp, PGROUNDUP newsz ≤ vp * PGSIZE → vp * PGSIZE < P.sz → (P.pgdir.entry vp).p = true →
      ¬ m.Region (P.pgdir.entry vp).frame

/-- The condition under which shrinking unmaps: `growproc` gives up private pages only, and
`shm_get` of a name that no region has finds a free frame. -/
def Retracts (s : State) : Act → Prop
  | .growproc p n => n < 0 → ∀ P ∈ s.proc p, P.Retractable s.mem ((P.sz + n) % 2 ^ 32).toNat
  | .shm_get _ name _ _ => s.mem.shm_find name = none → s.mem.freelist ≠ []
  | _ => True

/-- `sbrk`, `shm_get` or `fork`, or a store by a user program. -/
def Act.Sizing : Act → Prop
  | .growproc .. | .shm_get .. | .fork _ | .store .. => True
  | _ => False

/-- No process has pages above its end. -/
structure Trimmed (s : State) : Prop where
  ledger : Ledger s
  trim : ∀ {p : Pid} {P : Proc}, s.proc p = some P → P.Trim

section
variable {s s' : State} {p : Pid} {P P' : Proc} {m' : Memory}

/-- `growproc` keeps what is above the process clear. -/
theorem growproc_trim {m : Memory} (hsz : P.sz < KERNBASE)
    (hfree : ∀ f ∈ m.freelist, ¬ m.Region f) (hP : P.Trim)
    (hr : n < 0 → P.Retractable m ((P.sz + n) % 2 ^ 32).toNat)
    (h : m.growproc P n = .ok (b, m', P')) : P'.Trim := by
  unfold growproc at h
  simp only at h
  split at h
  · obtain ⟨⟨sz, m1, d1⟩, ha, h⟩ := bind_eq_ok.1 h
    have hc := allocuvm_clear hsz hfree hP ha
    rcases sz with - | sz
    · cases h
      exact hc
    · cases h
      exact hc
  split at h
  swap
  · cases h
    exact hP
  next hneg =>
  obtain ⟨⟨sz, m1, d1⟩, hd, h⟩ := bind_eq_ok.1 h
  generalize ((P.sz + n) % 2 ^ 32).toNat = newsz at hr hd
  have hres : d1.Clear (PGROUNDUP P.sz / PGSIZE) ∧
      (sz ≠ 0 → d1.Clear (PGROUNDUP sz / PGSIZE)) := by
    rcases Nat.lt_or_ge newsz P.sz with hlt | hge
    swap
    · rw [deallocuvm, if_pos hge] at hd
      cases hd
      exact ⟨hP, fun _ => hP⟩
    have hup : PGROUNDUP newsz ≤ PGROUNDUP P.sz := by
      simp only [PGROUNDUP, KERNBASE, PGSIZE] at *
      omega
    have habove : ∀ vp < UPAGES, P.sz ≤ vp * PGSIZE → (P.pgdir.entry vp).p = false := by
      intro vp hvp hge
      refine hP vp ?_ hvp
      simp only [PGROUNDUP, KERNBASE, PGSIZE] at *
      omega
    rcases Nat.lt_or_ge (PGROUNDUP newsz) P.sz with hin | hout
    · obtain ⟨hal, hpriv⟩ := hr hneg hin
      obtain ⟨rfl, hU⟩ := deallocuvm_unmapped hsz.le hlt (hal.imp_right .inl) (fun vp _ h1 => by
        refine hpriv vp ?_
        have := PGROUNDUP_mod newsz
        simp only [PGSIZE] at *
        omega) hd
      have hc := hU.clear habove
      exact ⟨hc.mono (Nat.div_le_div_right hup), fun _ => hc⟩
    · -- no page to unmap
      have hc : P.pgdir.Clear (PGROUNDUP newsz / PGSIZE) := by
        refine hP.mono ?_
        simp only [PGROUNDUP, KERNBASE, PGSIZE] at *
        omega
      obtain ⟨rfl, hU⟩ := deallocuvm_unmapped hsz.le hlt (.inr (.inr hc))
        (fun vp hvp h1 _ hp => by rw [hc vp h1 hvp] at hp; cases hp) hd
      have hc := hU.clear habove
      exact ⟨hc.mono (Nat.div_le_div_right hup), fun _ => hc⟩
  rcases sz with - | sz
  · cases h
    exact hres.1
  · cases h
    exact hres.2 (Nat.succ_ne_zero sz)

/-- A page at the end of the process. -/
theorem within_trim {m : Memory} (hP : P.Trim) (hlt : P.sz + PGSIZE < KERNBASE)
    (hmap : m.mappages P.pgdir (PGROUNDUP P.sz) PGSIZE pa true true = .ok (b, m', d)) :
    ((P.within ref d phys).setName ref name).Trim := by
  have halt := (PGROUNDUP_lt hlt).trans hlt
  intro vp h1 hvp
  have h1 : PGROUNDUP (P.sz + PGSIZE) / PGSIZE ≤ vp := h1
  have hnext : PGROUNDUP (P.sz + PGSIZE) / PGSIZE = PGROUNDUP P.sz / PGSIZE + 1 := by
    simp only [PGROUNDUP, KERNBASE, PGSIZE] at *
    omega
  show (d.entry vp).p = false
  rw [mappages_other (PGROUNDUP_mod _) halt hmap hvp (by omega)]
  exact hP vp (by omega) hvp

/-- `shm_get` keeps what is above the process clear, if it finds memory. -/
theorem Got.trim {m : Memory} (hP : P.Trim)
    (hmem : m.shm_find name = none → m.freelist ≠ []) (h : Got m P name junk va m' P') :
    P'.Trim := by
  cases h with
  | known => exact hP
  | failed => exact hP
  | starved hfind hnil => exact absurd hnil (hmem hfind)
  | created _ _ _ hlt _ hmap => exact within_trim hP hlt hmap
  | attached _ _ _ hlt hmap => exact within_trim hP hlt hmap

/-- The loop of `copyuvm` maps the pages it goes through. -/
theorem copyLoop_above (hk : k + n ≤ UPAGES)
    (h : copyLoop pgdir n m d (k * PGSIZE) = .ok (b, m', d')) :
    ∀ vp < UPAGES, k + n ≤ vp → d'.entry vp = d.entry vp := by
  induction n generalizing m d k with
  | zero =>
    cases h
    exact fun _ _ _ => rfl
  | succ n ih =>
    intro vp hvp hle
    have hlt : k * PGSIZE < KERNBASE := by
      simp only [UPAGES, KERNBASE, PGSIZE] at *
      omega
    obtain ⟨e, -, -, ⟨-, -, -, rfl⟩ | ⟨m1, pa, c, m2, d2, -, hmap, h⟩⟩ := copyLoop_succ h
    · rfl
    have hone : d2.entry vp = d.entry vp := by
      refine mappages_other (Nat.mul_mod_left ..) hlt hmap hvp ?_
      rw [Nat.mul_div_cancel k (by decide)]
      omega
    rw [← hone]
    cases c with
    | false =>
      cases h
      rfl
    | true =>
      rw [← Nat.succ_mul] at h
      exact ih (by omega) h vp hvp (by omega)

/-- A copy of a process has no pages above its end. -/
theorem copyuvm_clear {m m' : Memory} (hsz : sz < KERNBASE)
    (h : m.copyuvm pgdir sz = .ok (some d, m')) : d.Clear (PGROUNDUP sz / PGSIZE) := by
  obtain ⟨m1, d0, hk, hl⟩ := copyuvm_eq_some h
  obtain ⟨-, -, -, -, -, hz⟩ := setupkvm_some hk
  have hn : 0 + (sz + (PGSIZE - 1)) / PGSIZE ≤ UPAGES := by
    simp only [UPAGES, KERNBASE, PGSIZE] at *
    omega
  intro vp h1 hvp
  rw [copyLoop_above (k := 0) hn (by rw [Nat.zero_mul]; exact hl) vp hvp ?_, hz vp hvp]
  · rfl
  · simp only [PGROUNDUP, KERNBASE, PGSIZE] at *
    omega

/-- A call of `p` that leaves it trim. -/
theorem Trimmed.set (h : Trimmed s) (hl : Ledger (s.set m' p (some P'))) (hP' : P'.Trim) :
    Trimmed (s.set m' p (some P')) := by
  refine ⟨hl, fun {q Q} hQ => ?_⟩
  rcases eq_or_ne q p with rfl | hq
  · simp only [State.set, update_self] at hQ
    cases hQ
    exact hP'
  · simp only [State.set, update_of_ne hq] at hQ
    exact h.trim hQ

/-- The contents of frames do not matter. -/
theorem Trimmed.page (h : Trimmed s) (page : Frame → Nat → UInt8) (oom : Bool) :
    Trimmed { s with mem := { s.mem with page, oom } } :=
  ⟨h.ledger.page page oom, h.trim⟩

/-- Under this condition frames keep their owners. -/
theorem Retracts.careful (ha : a.Sizing) (h : Retracts s a) : Careful s a := by
  cases a with
  | shm_get p name length junk => exact fun _ _ hfind hnil => absurd hnil (h hfind)
  | shm_rem => exact absurd ha id
  | exec => exact absurd ha id
  | _ => trivial

/-- A call keeps the invariant. -/
theorem Trimmed.call {b : Bool} (h : Trimmed s) (hP : s.proc a.pid = some P)
    (ha : a.Sizing) (hr : Retracts s a) (hcall : s.call P a = some (.ok (b, s'))) : Trimmed s' := by
  have hl := h.ledger.call hP (hr.careful ha) hcall
  have hsz := h.ledger.size hP
  cases a with
  | growproc p n =>
    obtain ⟨⟨ok, m', P'⟩, hg, hcall⟩ := bind_eq_ok.1 (Option.some.inj hcall)
    cases hcall
    exact h.set hl (growproc_trim hsz h.ledger.not_region_of_free (h.trim hP)
      (fun hn => hr hn P hP) hg)
  | fork p =>
    have hf : s.fork p P = .ok (b, s') := Option.some.inj hcall
    cases b with
    | false =>
      refine ⟨hl, fun {q Q} hQ => ?_⟩
      rcases fork_false hf with rfl | rfl | ⟨_, _, _, _, -, -, -, rfl⟩
      · exact h.trim hQ
      · exact h.trim hQ
      · exact h.trim hQ
    | true =>
      obtain ⟨q, ks, m1, d, m2, vir, -, -, hc, -, rfl⟩ := fork_true hf
      exact h.set hl (copyuvm_clear hsz hc)
  | shm_get p name length junk =>
    obtain ⟨⟨va, m', P'⟩, hg, hcall⟩ := bind_eq_ok.1 (Option.some.inj hcall)
    cases hcall
    refine h.set hl ?_
    unfold sys_shm_get at hg
    split at hg
    · cases hg
      exact h.trim hP
    · next hrf =>
      have hrf : refused name length = false := by simpa using hrf
      exact (shm_get_cases hsz (h.ledger.found_ne_zero hrf) hg).trim (h.trim hP) hr
  | store p va x =>
    simp only [State.call] at hcall
    split at hcall
    · split at hcall
      · cases hcall
        exact h.page _ _
      · cases hcall
    · cases hcall
  | _ => exact absurd ha id

/-- A step keeps the invariant. -/
theorem Trimmed.step (h : Trimmed s) (ha : a.Sizing) (hr : Retracts s a)
    (hst : Step s a s') : Trimmed s' := by
  have h' := h.page s.mem.page false
  cases hst with
  | ok hok =>
    obtain ⟨P, hP, hcall⟩ := outcome_eq_some hok
    refine h'.call (a := a) hP ha ?_ hcall
    cases a <;> exact hr
  | wild hw =>
    obtain ⟨P, hP, hcall⟩ := outcome_eq_some hw
    refine absurd hcall (call_ne_wild h'.ledger.tidy.used fun p file argv he => ?_)
    rw [he] at ha
    exact ha.elim

/-- No `growproc` and no `shm_get` panics. -/
theorem Trimmed.ne_remap (h : Trimmed s) (ha : a.Sizing) (hr : Retracts s a)
    (hf : ∀ p, a ≠ .fork p) : s.outcome a ≠ some (.error (.panic .remap)) := by
  intro hout
  obtain ⟨P, hP, hcall⟩ := outcome_eq_some hout
  have hsz := h.ledger.size hP
  cases a with
  | growproc p n =>
    refine absurd (Option.some.inj hcall) (bind_ne_error ?_ fun _ _ => nofun)
    exact growproc_ne_remap n (h.trim hP)
  | shm_get p name length junk =>
    refine absurd (Option.some.inj hcall) (bind_ne_error ?_ fun _ _ => nofun)
    unfold sys_shm_get
    split
    · nofun
    · next hrf =>
      have hrf : refused name length = false := by simpa using hrf
      exact shm_get_ne_remap hsz (h.trim hP) hr (h.ledger.found_ne_zero hrf)
  | store p va x =>
    simp only [State.call] at hcall
    split at hcall
    · split at hcall <;> cases hcall
    · cases hcall
  | fork p => exact absurd rfl (hf p)
  | _ => exact absurd ha id

end

/-! ## Runs -/

/-- It holds after boot. -/
theorem Booted.trimmed (hb : Booted s) : Trimmed s := by
  refine ⟨hb.ledger, fun {p P} hP => ?_⟩
  obtain ⟨fl, page, initcode, -, -, hb⟩ := hb
  obtain ⟨kp, ks, d, m, rfl, -, -, hent, -⟩ := boot_ok hb
  rcases eq_or_ne p 0 with rfl | hp
  · simp only [solo, update_self] at hP
    cases hP
    intro vp h1 hvp
    have h1 : PGROUNDUP PGSIZE / PGSIZE ≤ vp := h1
    rw [show PGROUNDUP PGSIZE / PGSIZE = 1 by decide] at h1
    rw [show (initproc ks d).pgdir = d from rfl, hent vp hvp (by omega)]
    rfl
  · simp only [solo, update_of_ne hp] at hP
    cases hP

/-- The steps of the runs in question. -/
def Resizing (s : State) (a : Act) : Prop := a.Sizing ∧ Retracts s a

/-- **Shrinking unmaps.** In every run of `sbrk`, `shm_get` and `fork` calls of any processes that
meet `Retracts`, no process has a page above its end, after a `growproc` that shrinks it or any
other call, and no `growproc` and no `shm_get` reaches the panic of `mappages`. -/
theorem shrink_unmaps {s : State} (h : (system.restrict Resizing).Reach s) :
    (∀ p P, s.proc p = some P → P.Trim) ∧
      ∀ a, Resizing s a → (∀ p, a ≠ .fork p) → s.outcome a ≠ some (.error (.panic .remap)) := by
  have ht : Trimmed s := by
    refine h.invariant (fun s hb => ?_) fun s a s' hi hst => ?_
    · exact Booted.trimmed hb
    · exact hi.step hst.1.1 hst.1.2 hst.2
  exact ⟨fun p P hP => ht.trim hP, fun a ha hf => ht.ne_remap ha.1 ha.2 hf⟩

section
variable {kp : PageDir} {m : Memory} {P : Proc} {f : Frame} {name : List UInt8}

/-- A process of two pages gives up the second, which is of no region. -/
theorem growproc_private {e : Pte} (hsz : P.sz = 2 * PGSIZE) (he : P.pgdir.pte PGSIZE = some e)
    (hp : e.p = true) (hu : Usable e.frame) (hr : ¬ m.Region e.frame) : ∃ m', m.growproc P (-4096) =
      .ok (true, m', { P with pgdir := P.pgdir.setPte PGSIZE .zero, sz := PGSIZE }) := by
  have h0 : e.addr ≠ 0 := by
    refine (Nat.mul_pos (Nat.pos_of_ne_zero fun hz => ?_) (by decide)).ne'
    exact not_usable_zero (hz ▸ hu)
  obtain ⟨m', hk⟩ := kfree_usable hu m
  refine ⟨m', ?_⟩
  unfold growproc
  rw [hsz]
  simp only [show ¬ (-4096 : Int) > 0 by decide, if_false,
    show (-4096 : Int) < 0 by decide, if_true,
    show ((((2 * PGSIZE : Nat) : Int) + -4096) % 2 ^ 32).toNat = PGSIZE by decide]
  refine bind_eq_ok.2 ⟨(PGSIZE, m', P.pgdir.setPte PGSIZE .zero), ?_, rfl⟩
  unfold deallocuvm
  rw [if_neg (by decide), show PGROUNDUP PGSIZE = PGSIZE by decide]
  refine bind_eq_ok.2 ⟨(m', P.pgdir.setPte PGSIZE .zero), ?_, rfl⟩
  simp only [deallocLoop, he, hp, h0, findPA_of_not_region h0 hr, if_false, if_true,
    show PGSIZE < 2 * PGSIZE by decide]
  exact bind_eq_ok.2 ⟨m', hk, rfl⟩

/-- The first process gives up the page of the region, which stays mapped. -/
theorem Created.shrinkPage (hc : Created name m P f) (hf : 0 < f) :
    m.growproc P (-4096) = .ok (true, m.addAccess 0 0, { P with sz := PGSIZE }) := by
  have haddr : (Pte.addr { frame := f, p := true, w := true, u := true }) = f * PGSIZE := rfl
  have hpos : f * PGSIZE ≠ 0 := (Nat.mul_pos hf (by decide)).ne'
  have hfind : m.shm_arr_findPA (f * PGSIZE) 0 = some (m.addAccess 0 0) := by
    have h0 : f * PGSIZE = (m.shm_arr 0).shmPhys := by rw [hc.shm_arr, update_self]
    have hlist : List.finRange SHM_MAXNUM = 0 :: (List.finRange SHM_MAXNUM).tail := rfl
    rw [shm_arr_findPA, hlist]
    simp only [List.find?_cons, ← h0, decide_true, Option.map_some]
  unfold growproc
  rw [hc.sz]
  simp only [show ¬ (-4096 : Int) > 0 by decide, if_false,
    show (-4096 : Int) < 0 by decide, if_true,
    show ((((2 * PGSIZE : Nat) : Int) + -4096) % 2 ^ 32).toNat = PGSIZE by decide]
  refine bind_eq_ok.2 ⟨(PGSIZE, m.addAccess 0 0, P.pgdir), ?_, rfl⟩
  unfold deallocuvm
  rw [if_neg (by decide), show PGROUNDUP PGSIZE = 1 * PGSIZE by decide]
  simp only [deallocLoop, hc.page, haddr, hfind, hpos, if_false, if_true,
    show 1 * PGSIZE < 2 * PGSIZE by decide]
  rfl

/-- Growing back over a page that is still mapped. -/
theorem growproc_remap (hsz : P.sz = PGSIZE)
    (hfl : m.freelist = g :: gs) (he : P.pgdir.pte (1 * PGSIZE) = some e) (hp : e.p = true) :
    m.growproc P 4096 = .error (.panic .remap) := by
  have hk : m.kalloc = (some g, { m with freelist := gs }) := by simp only [kalloc, hfl]
  have hmap (m1 : Memory) (pa : Nat) : m1.mappages P.pgdir (1 * PGSIZE) PGSIZE pa true true =
      .error (.panic .remap) := by
    obtain ⟨t, ht, -⟩ := Option.map_eq_some_iff.1 he
    have hw : m1.walkpgdir P.pgdir (1 * PGSIZE) = (true, m1, P.pgdir) := by
      simp only [walkpgdir, ht]
    rw [mappages_one (by decide) (by decide)]
    simp only [mapLoop, hw, he, Option.any_some, hp, if_true]
  have halloc : m.allocuvm P.pgdir PGSIZE (2 * PGSIZE) = .error (.panic .remap) := by
    unfold allocuvm
    rw [if_neg (by decide), if_neg (by decide), show PGROUNDUP PGSIZE = 1 * PGSIZE by decide]
    simp only [show (2 * PGSIZE - 1 * PGSIZE + (PGSIZE - 1)) / PGSIZE = 1 by decide,
      allocLoop, hk, hmap]
    rfl
  unfold growproc
  rw [hsz]
  simp only [show (4096 : Int) > 0 by decide, if_true,
    show (((PGSIZE : Nat) : Int) + 4096) % 2 ^ 32 = ((2 * PGSIZE : Nat) : Int) by decide,
    Int.toNat_natCast, halloc]
  rfl

/-- A `growproc` that panics, as a step. -/
theorem solo_growproc_error (hoom : m.oom = false) (hz : P.zombie = false)
    (h : m.growproc P n = .error e) : (solo kp m P).outcome (.growproc 0 n) = some (.error e) := by
  rw [solo_outcome rfl hoom hz]
  simp only [State.call, show (solo kp m P).mem = m from rfl, h]
  rfl

end

/-- The first process gets a page of its own. -/
theorem exists_grown : ∃ kp m0 P0 m P e, Booted (solo kp m0 P0) ∧
    (solo kp m0 P0).outcome (.growproc 0 4096) = some (.ok (true, solo kp m P)) ∧ m.oom = false ∧
    P.zombie = false ∧ P.sz = 2 * PGSIZE ∧ P.pgdir.pte PGSIZE = some e ∧ e.p = true ∧
    Usable e.frame ∧ ¬ m.Region e.frame := by
  obtain ⟨kp, m0, ks, d, hb, hshm, -, hoom, -, husable, hlen, hempty⟩ := exists_booted
  obtain ⟨f, fs, hfl⟩ := List.exists_cons_of_length_pos (l := m0.freelist) (by omega)
  have hsz : (initproc ks d).sz = 1 * PGSIZE := rfl
  have hgrow := growproc_page (growable hfl hsz (by decide) hempty)
  obtain ⟨hpage, -⟩ := mapNext_pte hsz (by decide) hempty f
  rw [Nat.one_mul] at hpage
  refine ⟨kp, m0, _, _, _, _, hb, solo_growproc hoom rfl hgrow, hoom, rfl, rfl, hpage, rfl,
    husable f (hfl ▸ .head _), ?_⟩
  rintro ⟨h0, i, hi⟩
  have h : (m0.shm_arr i).shmPhys = f * PGSIZE := hi
  rw [hshm] at h
  exact (Nat.mul_pos h0 (by decide)).ne h

/-- The first process gets a page and gives it up again: the page was mapped, and is no longer. -/
theorem shrink_unmaps_page : ∃ s P s', (system.restrict Resizing).Reach s ∧ s.proc 0 = some P ∧
    (P.pgdir.entry 1).p = true ∧ s.outcome (.growproc 0 (-4096)) = some (.ok (true, s')) ∧
    ∀ p P, s'.proc p = some P → P.Trim := by
  obtain ⟨kp, m0, P0, m, P, e, hb, hgrow, hoom, hz, hsz, hpage, hp, hu, hr⟩ := exists_grown
  have hstep : Resizing (solo kp m0 P0) (.growproc 0 4096) :=
    ⟨trivial, fun h => absurd h (by decide)⟩
  have hreach : (system.restrict Resizing).Reach (solo kp m P) :=
    .step (.init hb) ⟨hstep, .ok hgrow⟩
  have hentry : P.pgdir.entry 1 = e := by rw [entry, Nat.one_mul, hpage]; rfl
  obtain ⟨m', hm'⟩ := growproc_private hsz hpage hp hu hr
  have hshrink : (solo kp m P).outcome (.growproc 0 (-4096)) = _ := solo_growproc hoom hz hm'
  have hnext : Resizing (solo kp m P) (.growproc 0 (-4096)) := by
    refine ⟨trivial, fun _ Q hQ _ => ?_⟩
    have hQ : some P = some Q := by simpa [solo] using hQ
    cases hQ
    rw [hsz, show PGROUNDUP _ = PGSIZE by decide, hpage]
    refine ⟨.inr rfl, fun vp h1 h2 _ => ?_⟩
    have hvp : vp = 1 := by
      simp only [PGSIZE] at h1 h2
      omega
    rw [hvp, hentry]
    exact hr
  exact ⟨_, P, _, hreach, by simp [solo], hentry ▸ hp, hshrink,
    (shrink_unmaps (hreach.step ⟨hnext, .ok hshrink⟩)).1⟩

/-- The first process gets a shared page, gives it up, and grows again. -/
theorem shrink_leaves_shared : ∃ s s' P, (system.restrict fun _ a => a.Sizing).Reach s ∧
    s.outcome (.growproc 0 (-4096)) = some (.ok (true, s')) ∧ s'.proc 0 = some P ∧ ¬ P.Trim ∧
    s'.outcome (.growproc 0 4096) = some (.error (.panic .remap)) := by
  obtain ⟨kp, m0, P0, m, P, f, fs, hb, -, hout, hc, hfs, -, hf, hlen⟩ :=
    exists_created (show refused [97] 1 = false by decide) (by decide)
  obtain ⟨g, gs, hg⟩ := List.exists_cons_of_length_pos (l := fs) (by omega)
  have hfl : (m.addAccess 0 0).freelist = g :: gs := hfs.trans hg
  have hsizing : Act.Sizing (.shm_get 0 [97] 1 0) := trivial
  have hreach : (system.restrict fun _ a => a.Sizing).Reach (solo kp m P) :=
    .step (.init hb) ⟨hsizing, .ok hout⟩
  have hshrink : (solo kp m P).outcome (.growproc 0 (-4096)) = _ :=
    solo_growproc hc.oom hc.zombie (hc.shrinkPage hf)
  refine ⟨_, _, { P with sz := PGSIZE }, hreach, hshrink, by simp [solo], fun ht => ?_, ?_⟩
  · have h1 : (P.pgdir.entry 1).p = false :=
      ht 1 (show PGROUNDUP PGSIZE / PGSIZE ≤ 1 by decide) (by decide)
    rw [entry, hc.page] at h1
    cases h1
  · have hremap := growproc_remap (P := { P with sz := PGSIZE }) rfl hfl hc.page rfl
    exact solo_growproc_error hc.oom hc.zombie hremap

end Msboss.Vm
