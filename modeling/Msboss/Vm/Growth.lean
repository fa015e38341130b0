import Msboss.Vm.Supply

/-!
# Growing page by page

`allocuvm` takes a frame for each page, and `mappages` one more where a page table is missing
(`PageDir.framesNeeded`). The loop looks at the first only. Where the second is missing the page
stays unmapped and its frame is lost; the free list is empty then, so that the next turn gives up
and unmaps what there is, unless there is no next turn (`allocLoop_cases`).

So `allocuvm` maps what it says it has mapped exactly if there are frames for all pages and page
tables (`allocuvm_maps_iff`). `growproc` is all or nothing except where a frame is lost in this way
on a path that gives up, and where the process shrinks by its whole size or more: the size 0 is
taken for a failure after the pages are gone, and a size below 0 for one of nearly 4 GB
(`all_or_nothing_iff`).
-/

namespace Msboss.Vm

open Function Memory PageDir List Finset

/-- The frames that mapping `n` pages from the page `vp` on takes: one for each page, and one for a
page table at the first of the pages in each table that is missing. -/
def PageDir.framesNeeded (d : PageDir) (vp : Nat) : Nat → Nat
  | 0 => 0
  | n + 1 => d.framesNeeded vp n + 1 +
      if (d.pte ((vp + n) * PGSIZE)).isNone ∧ (n = 0 ∨ (vp + n) % NPTENTRIES = 0) then 1 else 0

theorem PageDir.framesNeeded_lt (d : PageDir) (vp : Nat) (h : k < n) :
    d.framesNeeded vp k < d.framesNeeded vp n := by
  induction n with
  | zero => exact absurd h (Nat.not_lt_zero k)
  | succ n ih =>
    rw [framesNeeded]
    rcases Nat.eq_or_lt_of_le (Nat.le_of_lt_succ h) with rfl | hlt
    · omega
    · have := ih hlt
      omega

theorem PageDir.framesNeeded_le (d : PageDir) (vp : Nat) (h : k ≤ n) :
    d.framesNeeded vp k ≤ d.framesNeeded vp n := by
  rcases Nat.eq_or_lt_of_le h with rfl | hlt
  · exact le_rfl
  · exact (d.framesNeeded_lt vp hlt).le

/-! ## The loop -/

/-- From `m` and `d` on, `k` pages were mapped from the page `vp` on, each to a free frame, filled
with zeros. -/
structure Grown (m : Memory) (d : PageDir) (vp k : Nat) (m' : Memory) (d' : PageDir) : Prop where
  page : ∀ vq, vp ≤ vq → vq < vp + k → ∃ f ∈ m.freelist,
    d'.entry vq = { frame := f, p := true, w := true, u := true } ∧ m'.page f = fun _ => 0
  other : ∀ vq < UPAGES, vq < vp ∨ vp + k ≤ vq → d'.entry vq = d.entry vq
  contents : ∀ f ∉ m.freelist, m'.page f = m.page f
  total : ∀ f, m'.total d' f = m.total d f
  length : m'.freelist.length + d.framesNeeded vp k = m.freelist.length
  table : ∀ c, (d'.pte c).isSome = true ↔
    (d.pte c).isSome = true ∨ ∃ j < k, PDX c = PDX ((vp + j) * PGSIZE)
  frame : d'.frame = d.frame
  tableFrame : ∀ i t, d.pde i = some t → ∃ t', d'.pde i = some t' ∧ t'.frame = t.frame
  free : m'.freelist ⊆ m.freelist
  shm_arr : m'.shm_arr = m.shm_arr

section
variable {m m1 m2 m' : Memory} {d d1 d2 d' : PageDir} {vp k n : Nat} {f : Frame}

theorem Grown.refl (m : Memory) (d : PageDir) (vp : Nat) : Grown m d vp 0 m d where
  page _ h1 h2 := absurd h2 (Nat.not_lt.2 h1)
  other _ _ _ := rfl
  contents _ _ := rfl
  total _ := rfl
  length := rfl
  table _ := ⟨.inl, fun h => h.resolve_right fun ⟨_, h, _⟩ => absurd h (Nat.not_lt_zero _)⟩
  frame := rfl
  tableFrame _ t h := ⟨t, h, rfl⟩
  free _ h := h
  shm_arr := rfl

/-- Whether the next page has its table. -/
theorem Grown.next_table (h : Grown m d vp k m1 d1) (hk : vp + k < UPAGES) :
    (d1.pte ((vp + k) * PGSIZE)).isSome = true ↔
      ¬ ((d.pte ((vp + k) * PGSIZE)).isNone = true ∧ (k = 0 ∨ (vp + k) % NPTENTRIES = 0)) := by
  have hsame : (∃ j < k, PDX ((vp + k) * PGSIZE) = PDX ((vp + j) * PGSIZE)) ↔
      ¬ (k = 0 ∨ (vp + k) % NPTENTRIES = 0) := by
    constructor
    · rintro ⟨j, hj, he⟩
      rw [PDX_eq_iff hk (by omega)] at he
      simp only [NPTENTRIES] at he ⊢
      omega
    · intro hne
      refine ⟨k - 1, by omega, (PDX_eq_iff hk (by omega)).2 ?_⟩
      simp only [NPTENTRIES] at hne ⊢
      omega
  rw [h.table, hsame, not_and_or, Option.isNone_iff_eq_none, ← ne_eq, Option.isSome_iff_ne_none]

/-- What the next page takes. -/
theorem Grown.framesNeeded_succ (h : Grown m d vp k m1 d1) (hk : vp + k < UPAGES) :
    d.framesNeeded vp (k + 1) = d.framesNeeded vp k + 1 +
      if (d1.pte ((vp + k) * PGSIZE)).isSome then 0 else 1 := by
  have hiff := h.next_table hk
  rw [framesNeeded]
  split <;> rename_i hc
  · rw [if_neg (hiff.not.2 (not_not.2 hc))]
  · rw [if_pos (hiff.2 hc)]

/-- `mappages` keeps the frames of the directory and its tables. -/
theorem mappages_tableFrame (hva : va % PGSIZE = 0) (hlt : va < 2 ^ 32)
    (h : m.mappages d va PGSIZE pa w u = .ok (b, m', d'))
    (hi : d.pde i = some t) : ∃ t', d'.pde i = some t' ∧ t'.frame = t.frame := by
  have hset (d1 : PageDir) (e : Pte) (hi : d1.pde i = some t) :
      ∃ t', (d1.setPte va e).pde i = some t' ∧ t'.frame = t.frame := by
    unfold setPte
    split
    · exact ⟨t, hi, rfl⟩
    next t1 ht1 =>
    rcases eq_or_ne i (PDX va) with rfl | hne
    · obtain rfl : t1 = t := Option.some.inj (ht1.symm.trans hi)
      exact ⟨_, update_self .., rfl⟩
    · exact ⟨t, (update_of_ne hne ..).trans hi, rfl⟩
  have hwalk {c : Bool} {m1 : Memory} {d1 : PageDir} (hw : m.walkpgdir d va = (c, m1, d1)) :
      d1.pde i = some t := by
    unfold walkpgdir at hw
    split at hw
    · cases hw
      exact hi
    next hn =>
    split at hw
    · cases hw
      exact hi
    cases hw
    have hne : i ≠ PDX va := by
      rintro rfl
      rw [hn] at hi
      cases hi
    exact (update_of_ne hne ..).trans hi
  rw [mappages_one hva hlt] at h
  simp only [mapLoop] at h
  split at h
  · next hw =>
    cases h
    exact ⟨t, hwalk hw, rfl⟩
  next hw =>
  split at h
  · cases h
  · cases h
    exact hset _ _ (hwalk hw)

/-- One turn of the loop that succeeds. -/
theorem Grown.succ (h : Grown m d vp k m1 d1) (hk : vp + k < UPAGES)
    (hka : m1.kalloc = (some f, m2))
    (hmap : (m2.fill f 0).mappages d1 ((vp + k) * PGSIZE) PGSIZE (f * PGSIZE) true true =
      .ok (true, m', d')) : Grown m d vp (k + 1) m' d' := by
  have hva : (vp + k) * PGSIZE % PGSIZE = 0 := Nat.mul_mod_left ..
  have hlt := page_lt hk
  have hlt' : (vp + k) * PGSIZE < 2 ^ 32 := hlt.trans (by decide)
  have hdiv : (vp + k) * PGSIZE / PGSIZE = vp + k := Nat.mul_div_cancel _ (by decide)
  have hfr : f * PGSIZE / PGSIZE = f := Nat.mul_div_cancel _ (by decide)
  obtain ⟨hfl, hm⟩ := kalloc_some hka
  have hmem : f ∈ m.freelist := h.free (by rw [hfl]; exact .head _)
  obtain ⟨hlen, htab⟩ := mappages_tables hva hlt' hmap
  obtain ⟨d3, hW, ht, -⟩ := mappages_page hva hlt' hmap
  have hent {vq : Nat} (hvq : vq < UPAGES) := mappages_entry hva hlt hmap hvq
  rw [hdiv] at hent
  have hpage (g : Frame) : m'.page g = if g = f then fun _ => 0 else m1.page g := by
    rw [hW.page, hm, fill]
    exact update_apply ..
  refine ⟨fun vq h1 h2 => ?_, fun vq hvq hout => ?_, fun g hg => ?_, fun g => ?_, ?_, fun c => ?_,
    ?_, fun i t hi => ?_, fun g hg => ?_, ?_⟩
  · rw [hent (by omega)]
    rcases eq_or_ne vq (vp + k) with rfl | hne
    · exact ⟨f, hmem, by rw [if_pos rfl, hfr], by rw [hpage, if_pos rfl]⟩
    obtain ⟨g, hg, he, hz⟩ := h.page vq h1 (by omega)
    refine ⟨g, hg, by rw [if_neg hne]; exact he, ?_⟩
    rw [hpage]
    split
    · rfl
    · exact hz
  · rw [hent hvq, if_neg (by omega)]
    exact h.other vq hvq (by omega)
  · rw [hpage, if_neg (by rintro rfl; exact hg hmem)]
    exact h.contents g hg
  · obtain ⟨h1, h2⟩ := mappages_user hva hlt hmap g
    rw [← h.total g]
    simp only [Memory.total, hfl, count_cons, beq_iff_eq]
    simp only [true_and, hfr] at h2
    rw [h2]
    have : (m2.fill f 0).freelist = m2.freelist := rfl
    rw [this] at h1
    omega
  · have := h.length
    rw [h.framesNeeded_succ hk]
    have hsame : (m2.fill f 0).freelist = m2.freelist := rfl
    rw [hsame] at hlen
    rw [hfl, length_cons] at this
    omega
  · rw [htab, h.table, or_assoc]
    refine or_congr_right ⟨?_, ?_⟩
    · rintro (⟨j, hj, he⟩ | he)
      · exact ⟨j, by omega, he⟩
      · exact ⟨k, by omega, he⟩
    · rintro ⟨j, hj, he⟩
      rcases Nat.eq_or_lt_of_le (Nat.le_of_lt_succ hj) with rfl | hlt
      · exact .inr he
      · exact .inl ⟨j, hlt, he⟩
  · obtain ⟨rfl, -⟩ := ht rfl
    rw [setPte_frame, hW.frame, h.frame]
  · obtain ⟨t1, hi1, he1⟩ := h.tableFrame i t hi
    obtain ⟨t2, hi2, he2⟩ := mappages_tableFrame hva hlt' hmap hi1
    exact ⟨t2, hi2, he2.trans he1⟩
  · refine h.free ?_
    rw [hfl]
    exact .tail _ (mappages_free hva hlt' hmap hg)
  · rw [hW.shm_arr, hm]
    exact h.shm_arr

/-- After `k` pages the frame for the next one was taken and lost: no page table was left for it. -/
structure Lost (m : Memory) (d : PageDir) (vp k : Nat) (m' : Memory) (d' : PageDir) : Prop where
  grown : ∃ m1 f, Grown m d vp k m1 d' ∧ m1.freelist = [f] ∧
    m'.page = update m1.page f fun _ => 0
  table : (d'.pte ((vp + k) * PGSIZE)).isSome = false
  freelist : m'.freelist = []
  shm_arr : m'.shm_arr = m.shm_arr

/-- One turn of the loop that fails unnoticed. -/
theorem Grown.lost (h : Grown m d vp k m1 d1) (hk : vp + k < UPAGES)
    (hka : m1.kalloc = (some f, m2))
    (hmap : (m2.fill f 0).mappages d1 ((vp + k) * PGSIZE) PGSIZE (f * PGSIZE) true true =
      .ok (false, m', d')) : Lost m d vp k m' d' := by
  have hva : (vp + k) * PGSIZE % PGSIZE = 0 := Nat.mul_mod_left ..
  have hlt' : (vp + k) * PGSIZE < 2 ^ 32 := (page_lt hk).trans (by decide)
  obtain ⟨hfl, hm⟩ := kalloc_some hka
  obtain ⟨hnil, hnone⟩ := mappages_false hva hlt' hmap
  have hd : d' = d1 ∧ m'.shm_arr = m2.shm_arr ∧ m'.page = (m2.fill f 0).page ∧
      m'.freelist = [] := by
    rw [mappages_one hva hlt'] at hmap
    simp only [mapLoop] at hmap
    split at hmap
    · next hw =>
      cases hmap
      obtain ⟨hW, -, hf⟩ := walkpgdir_spec hw
      obtain ⟨-, -, hnil', rfl⟩ := hf rfl
      exact ⟨rfl, hW.shm_arr, hW.page, hnil'⟩
    · split at hmap <;> cases hmap
  obtain ⟨rfl, hs, hp, hnil'⟩ := hd
  refine ⟨⟨m1, f, h, ?_, ?_⟩, by rw [hnone]; rfl, hnil', ?_⟩
  · have : m2.freelist = [] := hnil
    rw [hfl, this]
  · rw [hp, hm]
    rfl
  · rw [hs, hm]
    exact h.shm_arr

/-- The frame that is left is for a page that needs a page table too. -/
theorem Lost.needs (h : Lost m d vp k m' d') (hk : vp + k < UPAGES) :
    m.freelist.length = d.framesNeeded vp k + 1 ∧
      d.framesNeeded vp (k + 1) = d.framesNeeded vp k + 2 := by
  obtain ⟨m1, f, hG, hfl, -⟩ := h.grown
  have hlen := hG.length
  rw [hfl, length_singleton] at hlen
  rw [hG.framesNeeded_succ hk, h.table]
  exact ⟨by omega, rfl⟩

/-- Where the loop over `N` pages finds that there is no memory. -/
def GaveUp (m : Memory) (d : PageDir) (vp N : Nat) (m' : Memory) (d' : PageDir) : Prop :=
  (∃ k < N, Grown m d vp k m' d' ∧ m'.freelist = []) ∨ ∃ k, k + 1 < N ∧ Lost m d vp k m' d'

/-- How the loop of `allocuvm` ends: all pages are mapped, or all but the last one, or it gives up
and unmaps. -/
theorem allocLoop_cases (hN : vp + N ≤ UPAGES) (hkn : k + n = N) (hG : Grown m d vp k m1 d1)
    (h : allocLoop oldsz newsz n m1 d1 ((vp + k) * PGSIZE) = .ok (r, m', d')) :
    r = newsz ∧ (Grown m d vp N m' d' ∨ ∃ j, j + 1 = N ∧ Lost m d vp j m' d') ∨
      r = 0 ∧ ∃ m2 d2 sz, GaveUp m d vp N m2 d2 ∧
        deallocuvm { m2 with oom := true } d2 newsz oldsz 0 = .ok (sz, m', d') := by
  induction n generalizing k m1 d1 with
  | zero =>
    cases h
    obtain rfl : k = N := hkn
    exact .inl ⟨rfl, .inl hG⟩
  | succ n ih =>
    have hk : vp + k < UPAGES := by omega
    have hnext : (vp + k) * PGSIZE + PGSIZE = (vp + (k + 1)) * PGSIZE := by
      rw [← Nat.add_assoc, Nat.succ_mul]
    simp only [allocLoop] at h
    split at h
    · next m2 hka =>
      obtain ⟨⟨sz, m3, d3⟩, hd, h⟩ := bind_eq_ok.1 h
      cases h
      obtain ⟨hnil, rfl⟩ := kalloc_none hka
      exact .inr ⟨rfl, m1, d1, sz, .inl ⟨k, by omega, hG, hnil⟩, hd⟩
    next f m2 hka =>
    obtain ⟨⟨b, m3, d3⟩, hmap, h⟩ := bind_eq_ok.1 h
    rw [hnext] at h
    cases b with
    | true => exact ih (by omega) (hG.succ hk hka hmap) h
    | false =>
      -- the frame is lost, and the free list is empty
      have hL := hG.lost hk hka hmap
      rcases n with - | n
      · cases h
        exact .inl ⟨rfl, .inr ⟨k, hkn, hL⟩⟩
      have hka3 : m3.kalloc = (none, { m3 with oom := true }) := by
        rw [kalloc, hL.freelist]
      simp only [allocLoop, hka3] at h
      obtain ⟨⟨sz, m4, d4⟩, hd, h⟩ := bind_eq_ok.1 h
      cases h
      exact .inr ⟨rfl, m3, d3, sz, .inr ⟨k, by omega, hL⟩, hd⟩

end

/-! ## `allocuvm` -/

/-- The pages that `allocuvm` maps. -/
def pagesBetween (oldsz newsz : Nat) : Nat := (newsz - PGROUNDUP oldsz + (PGSIZE - 1)) / PGSIZE

/-- What a success of `allocuvm` should mean for the pages from the address `lo` up to `hi`. -/
structure MapsAll (m : Memory) (d : PageDir) (lo hi : Nat) (m' : Memory) (d' : PageDir) : Prop where
  /-- Each page is present, writable by the user and zero, and has a frame of its own. -/
  mapped : ∀ vp, lo ≤ vp * PGSIZE → vp * PGSIZE < hi → ∃ f ∈ m.freelist,
    d'.entry vp = { frame := f, p := true, w := true, u := true } ∧
      (∀ i < PGSIZE, m'.page f i = 0) ∧
      f ∉ m'.freelist ∧ ¬ d'.Holds f ∧ ∀ vq, d'.MapsPage vq f → vq = vp
  /-- A frame that was taken is one of these, or a new page table for one of the pages. -/
  taken : ∀ f ∈ m.freelist, f ∉ m'.freelist →
    ∃ vp, lo ≤ vp * PGSIZE ∧ vp * PGSIZE < hi ∧
      (d'.MapsPage vp f ∨ d.pde (PDX (vp * PGSIZE)) = none ∧
        ∃ t, d'.pde (PDX (vp * PGSIZE)) = some t ∧ t.frame = f)

section
variable {m m1 m2 m' : Memory} {d d1 d2 d' : PageDir} {vp k n oldsz newsz sz : Nat} {f : Frame}

/-- The pages that `allocuvm` goes through. -/
theorem pagesBetween_iff (oldsz newsz vp : Nat) :
    PGROUNDUP oldsz ≤ vp * PGSIZE ∧ vp * PGSIZE < newsz ↔
      PGROUNDUP oldsz / PGSIZE ≤ vp ∧ vp < PGROUNDUP oldsz / PGSIZE + pagesBetween oldsz newsz := by
  simp only [pagesBetween, PGROUNDUP, PGSIZE]
  omega

/-- They are user pages. -/
theorem pagesBetween_le (hold : oldsz ≤ newsz) (hnew : newsz < KERNBASE) :
    PGROUNDUP oldsz / PGSIZE + pagesBetween oldsz newsz ≤ UPAGES := by
  simp only [pagesBetween, PGROUNDUP, UPAGES, KERNBASE, PGSIZE] at *
  omega

/-- How `allocuvm` ends. -/
theorem allocuvm_cases (hold : oldsz ≤ newsz) (hnew : newsz < KERNBASE)
    (h : m.allocuvm d oldsz newsz = .ok (sz, m', d')) :
    sz = newsz ∧ (Grown m d (PGROUNDUP oldsz / PGSIZE) (pagesBetween oldsz newsz) m' d' ∨
        ∃ j, j + 1 = pagesBetween oldsz newsz ∧ Lost m d (PGROUNDUP oldsz / PGSIZE) j m' d') ∨
      sz = 0 ∧ ∃ m2 d2 sz', GaveUp m d (PGROUNDUP oldsz / PGSIZE) (pagesBetween oldsz newsz) m2 d2 ∧
        deallocuvm { m2 with oom := true } d2 newsz oldsz 0 = .ok (sz', m', d') := by
  unfold allocuvm at h
  rw [if_neg (Nat.not_le.2 hnew), if_neg (Nat.not_lt.2 hold)] at h
  refine allocLoop_cases (pagesBetween_le hold hnew) (Nat.zero_add _) (.refl m d _) ?_
  rw [Nat.add_zero, Nat.div_mul_cancel (Nat.dvd_of_mod_eq_zero (PGROUNDUP_mod _))]
  exact h

/-- What is counted as a table is one. -/
theorem holds_of_tables (h : 1 ≤ d.tables f) : d.Holds f := by
  by_contra hne
  have hsum : ∑ i, (d.pde i).elim 0 (fun t => if t.frame = f then 1 else 0) = 0 := by
    refine Finset.sum_eq_zero fun i _ => ?_
    cases hi : d.pde i with
    | none => rfl
    | some t => exact if_neg fun ht => hne (.inr ⟨i, t, hi, ht⟩)
  rw [tables, if_neg fun hf => hne (.inl hf), hsum] at h
  omega

theorem mapsPage_of_user (h : 1 ≤ d.user f) : ∃ vp, d.MapsPage vp f := by
  by_contra hne
  have hsum : d.user f = 0 := by
    refine Finset.sum_eq_zero fun vp hvp => if_neg fun hc => hne ⟨vp, ?_⟩
    exact ⟨Finset.mem_range.1 hvp, hc.1, hc.2⟩
  omega

/-- Free frames that are in no other use: what is mapped has a frame of its own. -/
theorem Grown.mapsAll (h : Grown m d vp n m' d') (hn : vp + n ≤ UPAGES)
    (hfree : ∀ f ∈ m.freelist, m.total d f = 1)
    (hiff : ∀ vq, lo ≤ vq * PGSIZE ∧ vq * PGSIZE < hi ↔ vp ≤ vq ∧ vq < vp + n) :
    MapsAll m d lo hi m' d' where
  mapped vq h1 h2 := by
    obtain ⟨h3, h4⟩ := (hiff vq).1 ⟨h1, h2⟩
    obtain ⟨f, hf, he, hz⟩ := h.page vq h3 h4
    have hmaps : d'.MapsPage vq f := ⟨by omega, by rw [he], by rw [he]⟩
    have htotal : m'.freelist.count f + d'.tables f + d'.user f = 1 :=
      (h.total f).trans (hfree f hf)
    have hpos := user_of_mapsPage hmaps
    refine ⟨f, hf, he, fun i _ => by rw [hz], fun hmem => ?_, fun hh => ?_, fun vr hr => ?_⟩
    · have := count_pos_iff.2 hmem
      omega
    · have := tables_of_holds hh
      omega
    · by_contra hne
      have := user_of_mapsPage₂ hr hmaps hne
      omega
  taken f hf hgone := by
    have hbefore := hfree f hf
    have hafter := h.total f
    have hcount := count_pos_iff.2 hf
    rw [Memory.total] at hbefore
    rw [Memory.total, Memory.total, count_eq_zero_of_not_mem hgone] at hafter
    rcases Nat.eq_zero_or_pos (d'.user f) with hz | hpos
    · -- a page table, and not one of before
      obtain hd | ⟨i, t, hi, rfl⟩ := holds_of_tables (show 1 ≤ d'.tables f by omega)
      · have := tables_of_holds (d := d) (.inl (h.frame.symm.trans hd))
        omega
      have hnone : d.pde i = none := by
        rw [Option.eq_none_iff_forall_ne_some]
        intro t0 ht0
        obtain ⟨t1, ht1, he⟩ := h.tableFrame i t0 ht0
        obtain rfl : t1 = t := Option.some.inj (ht1.symm.trans hi)
        have := tables_of_holds (d := d) (.inr ⟨i, t0, ht0, he.symm⟩)
        omega
      have hpdx : PDX (i.val * 1024 * PGSIZE) = i := by
        rw [PageDir.PDX_page, Nat.mul_div_cancel _ (by decide)]
        exact Fin.ext (Nat.mod_eq_of_lt i.isLt)
      have hsome : (d'.pte (i.val * 1024 * PGSIZE)).isSome = true := by
        rw [pte, hpdx, hi]
        rfl
      obtain hs | ⟨j, hj, he⟩ := (h.table _).1 hsome
      · rw [pte, hpdx, hnone] at hs
        cases hs
      rw [hpdx] at he
      obtain ⟨h1, h2⟩ := (hiff (vp + j)).2 ⟨by omega, by omega⟩
      exact ⟨vp + j, h1, h2, .inr (by rw [← he]; exact ⟨hnone, t, hi, rfl⟩)⟩
    · obtain ⟨vq, hq⟩ := mapsPage_of_user hpos
      have hin : vp ≤ vq ∧ vq < vp + n := by
        by_contra hout
        have hq' : d.MapsPage vq f := by
          rw [PageDir.MapsPage, ← h.other vq hq.1 (by omega)]
          exact hq
        have := user_of_mapsPage hq'
        omega
      obtain ⟨h1, h2⟩ := (hiff vq).2 hin
      exact ⟨vq, h1, h2, .inl hq⟩

/-- `allocuvm` that returns the new size has mapped all pages exactly if there are frames for all of
them and their page tables. -/
theorem allocuvm_maps_iff (hold : oldsz ≤ newsz) (hnew : newsz < KERNBASE)
    (hfree : ∀ f ∈ m.freelist, m.total d f = 1)
    (h : m.allocuvm d oldsz newsz = .ok (newsz, m', d')) :
    MapsAll m d (PGROUNDUP oldsz) newsz m' d' ↔
      d.framesNeeded (PGROUNDUP oldsz / PGSIZE) (pagesBetween oldsz newsz) ≤ m.freelist.length := by
  have hle := pagesBetween_le hold hnew
  obtain ⟨-, hG | ⟨j, hj, hL⟩⟩ | ⟨rfl, m2, d2, sz', hup, -⟩ := allocuvm_cases hold hnew h
  · exact ⟨fun _ => by have := hG.length; omega,
      fun _ => hG.mapsAll hle hfree (pagesBetween_iff oldsz newsz)⟩
  · obtain ⟨hlen, hneeds⟩ := hL.needs (by omega)
    rw [hj] at hneeds
    refine ⟨fun hM => ?_, fun hle => by omega⟩
    -- the last page is not there
    obtain ⟨h1, h2⟩ := (pagesBetween_iff oldsz newsz (PGROUNDUP oldsz / PGSIZE + j)).2
      ⟨by omega, by omega⟩
    obtain ⟨f, -, he, -⟩ := hM.mapped _ h1 h2
    have hnone := hL.table
    rw [Option.isSome_eq_false_iff, Option.isNone_iff_eq_none] at hnone
    rw [entry, hnone] at he
    cases he
  · -- no page was asked for
    obtain ⟨k, hk, -⟩ | ⟨k, hk, -⟩ := hup <;>
      exact absurd hk (by simp [pagesBetween, PGSIZE])

end

/-- A memory without regions. -/
def freshMemory (freelist : List Frame) : Memory :=
  { freelist, page := fun _ _ => 0, shm_arr := shm_init, used := 0, oom := false }

/-- A directory without page tables. -/
def bareDir : PageDir := { frame := 0x300, pde := fun _ => none }

theorem total_bare (hfs : fs.Nodup) (h : 0x300 ∉ fs) (f : Frame) (hf : f ∈ fs) :
    (freshMemory fs).total bareDir f = 1 := by
  have huser : bareDir.user f = 0 := user_eq_zero (fun _ _ => rfl) f
  have htables : bareDir.tables f = 0 := by
    have hne : bareDir.frame ≠ f := by
      rintro rfl
      exact h hf
    rw [tables, if_neg hne]
    simp [bareDir]
  rw [Memory.total, huser, htables]
  exact count_eq_one_of_mem hfs hf

/-- Two frames: for the page and its table. -/
theorem maps_page_and_table : ∃ m' d',
    (freshMemory [0x200, 0x201]).allocuvm bareDir 0 1 = .ok (1, m', d') ∧
    MapsAll (freshMemory [0x200, 0x201]) bareDir (PGROUNDUP 0) 1 m' d' := by
  refine ⟨_, _, rfl, ?_⟩
  have hfree := total_bare (show [0x200, 0x201].Nodup by decide) (by decide)
  exact (allocuvm_maps_iff (by decide) (by decide) hfree rfl).2 (by decide)

/-- One frame: there is no page table, and the page that `allocuvm` says to be there is not. -/
theorem page_without_table : ∃ m' d', (freshMemory [0x200]).allocuvm bareDir 0 1 = .ok (1, m', d') ∧
    ¬ MapsAll (freshMemory [0x200]) bareDir (PGROUNDUP 0) 1 m' d' := by
  refine ⟨_, _, rfl, fun h => ?_⟩
  obtain ⟨f, -, he, -⟩ := h.mapped 0 (by decide) (by decide)
  cases he

/-! ## `growproc` -/

/-- The entry of a page that is present. -/
def PageDir.translation (d : PageDir) (vp : Nat) : Option Pte :=
  if (d.entry vp).p then some (d.entry vp) else none

/-- What `growproc(n)` should have done: it has grown the process by `n`, and the pages below both
sizes are as they were; or it has failed, all pages are as they were, and a frame that was taken is
back unless it is a page table now. -/
def AllOrNothing (m : Memory) (P : Proc) (n : Int) (ok : Bool) (m' : Memory) (P' : Proc) : Prop :=
  if ok then
    (P'.sz : Int) = P.sz + n ∧ ∀ vp, vp * PGSIZE < min P.sz P'.sz →
      P'.pgdir.entry vp = P.pgdir.entry vp ∧
        m'.page (P.pgdir.entry vp).frame = m.page (P.pgdir.entry vp).frame
  else
    P'.sz = P.sz ∧ (∀ vp < UPAGES, P'.pgdir.translation vp = P.pgdir.translation vp) ∧
      ∀ f ∈ m.freelist, f ∈ m'.freelist ∨ P'.pgdir.Holds f

/-- A process without shared regions whose pages are those below its size, in a memory where free
frames are free. -/
structure Proc.Plain (P : Proc) (m : Memory) : Prop where
  size : P.sz < KERNBASE
  mapped : ∀ vp < UPAGES, (P.pgdir.entry vp).p = true ↔ vp * PGSIZE < P.sz
  own : ∀ f, P.pgdir.user f ≤ 1
  unshared : m.Unshared P.pgdir
  free : ∀ f ∈ m.freelist, m.total P.pgdir f = 1
  spare : ∀ f ∈ m.freelist, ¬ m.Region f

/-- Where mapping `N` pages from the page `vp` on loses a frame before it gives up: the free list
ends with a page for which there is no page table, and more pages would follow. -/
def Memory.Loses (m : Memory) (d : PageDir) (vp N : Nat) : Prop :=
  ∃ k, k + 1 < N ∧ m.freelist.length = d.framesNeeded vp k + 1 ∧
    d.framesNeeded vp (k + 1) = d.framesNeeded vp k + 2

/-- Where `growproc(n)` is neither all nor nothing. -/
def Proc.Misses (P : Proc) (m : Memory) (n : Int) : Prop :=
  (0 < n ∧ P.sz + n < KERNBASE ∧
    m.Loses P.pgdir (PGROUNDUP P.sz / PGSIZE) (pagesBetween P.sz (P.sz + n).toNat)) ∨
  (n < 0 ∧ 0 < P.sz ∧ P.sz + n ≤ 0)

section
variable {m m1 m2 m' : Memory} {d d1 d2 d' : PageDir} {P P' : Proc} {vp k N : Nat} {f : Frame}

/-- If all pages are mapped, no frame is lost. -/
theorem Grown.not_loses (h : Grown m d vp N m' d') : ¬ m.Loses d vp N := by
  rintro ⟨k, hk, hlen, hneeds⟩
  have := h.length
  have := d.framesNeeded_lt vp hk
  omega

/-- Nor is a frame lost if that page is the last. -/
theorem Lost.not_loses (h : Lost m d vp k m' d') (hk : vp + k < UPAGES) :
    ¬ m.Loses d vp (k + 1) := by
  rintro ⟨j, hj, hlen, -⟩
  have := (h.needs hk).1
  have := d.framesNeeded_lt vp (Nat.lt_of_succ_lt_succ hj)
  omega

/-- Nor is a frame lost where there is none left for a page. -/
theorem Grown.not_loses_of_nil (h : Grown m d vp k m2 d2) (hnil : m2.freelist = []) :
    ¬ m.Loses d vp N := by
  rintro ⟨j, -, hlen, hneeds⟩
  have hlen' := h.length
  rw [hnil, length_nil] at hlen'
  rcases Nat.lt_or_ge j k with hlt | hge
  · have := d.framesNeeded_le vp (show j + 1 ≤ k from hlt)
    omega
  · have := d.framesNeeded_le vp hge
    omega

/-- A page keeps its contents while free frames are filled. -/
theorem Proc.Plain.not_free (hP : P.Plain m) (hvp : vp * PGSIZE < P.sz) :
    (P.pgdir.entry vp).frame ∉ m.freelist := by
  intro hf
  have hlt : vp < UPAGES := by
    have := hP.size
    simp only [UPAGES, KERNBASE, PGSIZE] at *
    omega
  have hmaps : P.pgdir.MapsPage vp (P.pgdir.entry vp).frame := ⟨hlt, (hP.mapped vp hlt).2 hvp, rfl⟩
  have h1 := user_of_mapsPage hmaps
  have h2 := hP.free _ hf
  have h3 := count_pos_iff.2 hf
  rw [Memory.total] at h2
  omega

/-- The pages that are there before the process grows. -/
theorem Grown.below (h : Grown m P.pgdir (PGROUNDUP P.sz / PGSIZE) k m' d') (hP : P.Plain m)
    (hvp : vp * PGSIZE < P.sz) : d'.entry vp = P.pgdir.entry vp ∧
      m'.page (P.pgdir.entry vp).frame = m.page (P.pgdir.entry vp).frame := by
  have hsize := hP.size
  have hlt : vp < UPAGES ∧ vp < PGROUNDUP P.sz / PGSIZE := by
    simp only [PGROUNDUP, UPAGES, KERNBASE, PGSIZE] at *
    omega
  exact ⟨h.other vp hlt.1 (.inl hlt.2), h.contents _ (hP.not_free hvp)⟩

/-- The pages of the process stay as they are. -/
theorem Lost.below (h : Lost m P.pgdir (PGROUNDUP P.sz / PGSIZE) k m' d') (hP : P.Plain m)
    (hvp : vp * PGSIZE < P.sz) : d'.entry vp = P.pgdir.entry vp ∧
      m'.page (P.pgdir.entry vp).frame = m.page (P.pgdir.entry vp).frame := by
  obtain ⟨m1, f, hG, hfl, hpage⟩ := h.grown
  obtain ⟨h1, h2⟩ := hG.below hP hvp
  have hne : (P.pgdir.entry vp).frame ≠ f := by
    rintro rfl
    exact hP.not_free hvp (hG.free (by rw [hfl]; exact .head _))
  exact ⟨h1, by rw [hpage, update_of_ne hne, h2]⟩

/-- Nothing is present above a plain process. -/
theorem Proc.Plain.clear (hP : P.Plain m) : P.pgdir.Clear (PGROUNDUP P.sz / PGSIZE) := by
  intro vp hk hvp
  have hsize := hP.size
  have hnot : ¬ vp * PGSIZE < P.sz := by
    simp only [PGROUNDUP, KERNBASE, PGSIZE] at *
    omega
  exact Bool.eq_false_iff.2 ((hP.mapped vp hvp).not.2 hnot)

theorem PageDir.translation_eq (h : d'.entry vp = d.entry vp) :
    d'.translation vp = d.translation vp := by
  rw [translation, translation, h]

theorem PageDir.translation_none (h : (d.entry vp).p = false) : d.translation vp = none := by
  rw [translation, h]
  rfl

/-- Translations determine the counts. -/
theorem PageDir.user_of_translation (h : ∀ vp < UPAGES, d'.translation vp = d.translation vp)
    (f : Frame) : d'.user f = d.user f := by
  have hcount (d : PageDir) (vp : Nat) :
      (d.entry vp).count f = (d.translation vp).elim 0 fun e => e.count f := by
    unfold translation
    split
    · rfl
    · next hp => exact Pte.count_of_not_present (Bool.eq_false_iff.2 hp) f
  refine Finset.sum_congr rfl fun vp hvp => ?_
  rw [hcount, hcount, h vp (Finset.mem_range.1 hvp)]

/-- The loop of `deallocuvm` finds the pages that have been mapped, none of them of a region. -/
theorem Grown.unmapped (hP : P.Plain m) (hlt : P.sz < newsz)
    (hnew : newsz < KERNBASE) (hG : Grown m P.pgdir (PGROUNDUP P.sz / PGSIZE) k m1 d2)
    (hs : m2.shm_arr = m.shm_arr) (hd : m2.deallocuvm d2 newsz P.sz 0 = .ok (sz, m', d')) :
    Unmapped d2 d' (PGROUNDUP P.sz / PGSIZE) newsz := by
  have hclear := hP.clear
  refine (deallocuvm_unmapped hnew.le hlt ?_ (fun vp hvp h1 h2 hp => ?_) hd).2
  · rcases Nat.eq_zero_or_pos k with rfl | hpos
    · refine .inr (.inr fun vp h1 h2 => ?_)
      rw [hG.other vp h2 (.inr h1)]
      exact hclear vp h1 h2
    · refine .inr (.inl ((hG.table _).2 (.inr ⟨0, hpos, ?_⟩)))
      rw [Nat.add_zero, Nat.div_mul_cancel (Nat.dvd_of_mod_eq_zero (PGROUNDUP_mod _))]
  · rw [(SameRegions.of_eq hs).region]
    rcases Nat.lt_or_ge vp (PGROUNDUP P.sz / PGSIZE + k) with hin | hout
    · obtain ⟨f, hf, he, -⟩ := hG.page vp h1 hin
      rw [he]
      exact hP.spare f hf
    · rw [hG.other vp hvp (.inr hout), hclear vp h1 hvp] at hp
      cases hp

/-- `deallocuvm` after the loop has given up: the pages are as they were, and what the loop has left
mapped is free again. -/
theorem GaveUp.undone (hP : P.Plain m) (hlt : P.sz < newsz) (hnew : newsz < KERNBASE)
    (h : GaveUp m P.pgdir (PGROUNDUP P.sz / PGSIZE) (pagesBetween P.sz newsz) m2 d2)
    (hd : deallocuvm { m2 with oom := true } d2 newsz P.sz 0 = .ok (sz, m', d')) :
    (∀ vp < UPAGES, d'.translation vp = P.pgdir.translation vp) ∧
      ∀ f, m'.total d' f = m2.total d2 f := by
  obtain ⟨m1, k, hk, hG, hs⟩ : ∃ m1 k, k < pagesBetween P.sz newsz ∧
      Grown m P.pgdir (PGROUNDUP P.sz / PGSIZE) k m1 d2 ∧ m2.shm_arr = m.shm_arr := by
    obtain ⟨k, hk, hG, -⟩ | ⟨k, hk, hL⟩ := h
    · exact ⟨m2, k, hk, hG, hG.shm_arr⟩
    · obtain ⟨m1, f, hG, -⟩ := hL.grown
      exact ⟨m1, k, by omega, hG, hL.shm_arr⟩
  have hU := hG.unmapped hP hlt hnew (show shm_arr { m2 with oom := true } = _ from hs) hd
  refine ⟨fun vp hvp => ?_, fun f => ?_⟩
  · by_cases hin : PGROUNDUP P.sz / PGSIZE ≤ vp ∧ vp * PGSIZE < newsz
    · rw [translation_none (hU.gone vp hvp hin.1 hin.2),
        translation_none (hP.clear vp hin.1 hvp)]
    have hout : vp < PGROUNDUP P.sz / PGSIZE ∨ newsz ≤ vp * PGSIZE := by omega
    refine translation_eq ((hU.kept vp hvp hout).trans (hG.other vp hvp ?_))
    have hrange := pagesBetween_iff P.sz newsz vp
    have hstart := PGROUNDUP_mod P.sz
    simp only [PGSIZE] at *
    omega
  · unfold deallocuvm at hd
    rw [if_neg (Nat.not_le.2 hlt)] at hd
    obtain ⟨⟨m3, d3⟩, hl, hd⟩ := bind_eq_ok.1 hd
    cases hd
    exact deallocLoop_total hnew.le hl f

/-- The frames after `growproc` has given up. -/
theorem GaveUp.back_iff (hP : P.Plain m) (hlt : P.sz < newsz) (hnew : newsz < KERNBASE)
    (h : GaveUp m P.pgdir (PGROUNDUP P.sz / PGSIZE) (pagesBetween P.sz newsz) m2 d2)
    (hd : deallocuvm { m2 with oom := true } d2 newsz P.sz 0 = .ok (sz, m', d')) :
    (∀ f ∈ m.freelist, f ∈ m'.freelist ∨ d'.Holds f) ↔
      ¬ m.Loses P.pgdir (PGROUNDUP P.sz / PGSIZE) (pagesBetween P.sz newsz) := by
  obtain ⟨htrans, htotal⟩ := h.undone hP hlt hnew hd
  have huser := user_of_translation htrans
  rcases h with ⟨k, -, hG, hnil⟩ | ⟨k, hk, hL⟩
  · refine ⟨fun _ => hG.not_loses_of_nil hnil, fun _ f hf => ?_⟩
    have h1 : m'.total d' f = 1 := (htotal f).trans ((hG.total f).trans (hP.free f hf))
    have h2 := hP.free f hf
    have h3 := count_pos_iff.2 hf
    rw [Memory.total] at h1 h2
    have h4 := huser f
    rcases Nat.eq_zero_or_pos (m'.freelist.count f) with hz | hpos
    · exact .inr (holds_of_tables (by omega))
    · exact .inl (count_pos_iff.1 hpos)
  · -- the lost frame is nowhere
    obtain ⟨m1, f, hG, hfl, -⟩ := hL.grown
    have hkU : PGROUNDUP P.sz / PGSIZE + k < UPAGES := by
      have := pagesBetween_le hlt.le hnew
      omega
    refine ⟨fun hall _ => ?_, fun hnot => absurd ⟨k, hk, hL.needs hkU⟩ hnot⟩
    have hf : f ∈ m.freelist := hG.free (by rw [hfl]; exact .head _)
    have h1 := (hG.total f).trans (hP.free f hf)
    have h2 := htotal f
    rw [Memory.total, hfl, count_singleton_self] at h1
    rw [Memory.total, Memory.total, hL.freelist, count_nil] at h2
    rcases hall f hf with hmem | hholds
    · have := count_pos_iff.2 hmem
      omega
    · have := tables_of_holds hholds
      omega

/-- `growproc` that grows. -/
theorem grow_iff (hP : P.Plain m) (h0 : 0 < n) (hn : n < 2 ^ 31)
    (h : m.growproc P n = .ok (b, m', P')) : AllOrNothing m P n b m' P' ↔ ¬ P.Misses m n := by
  have hsize := hP.size
  have hnewsz : ((P.sz + n) % 2 ^ 32).toNat = (P.sz + n).toNat := by
    simp only [KERNBASE] at hsize
    omega
  have hmiss : P.Misses m n ↔ (P.sz + n).toNat < KERNBASE ∧
      m.Loses P.pgdir (PGROUNDUP P.sz / PGSIZE) (pagesBetween P.sz (P.sz + n).toNat) := by
    have hlt : P.sz + n < KERNBASE ↔ (P.sz + n).toNat < KERNBASE := by
      simp only [KERNBASE]
      omega
    rw [Proc.Misses, ← hlt]
    exact ⟨fun h => (h.resolve_right fun h => by omega).2, fun h => .inl ⟨h0, h⟩⟩
  have hgrow : ((P.sz + n).toNat : Int) = P.sz + n := Int.toNat_of_nonneg (by omega)
  unfold growproc at h
  simp only [hnewsz, if_pos (show n > 0 from h0)] at h
  obtain ⟨⟨sz, m1, d1⟩, ha, hr⟩ := bind_eq_ok.1 h
  rw [hmiss]
  have hlt : P.sz < (P.sz + n).toNat := by omega
  clear h
  generalize (P.sz + n).toNat = newsz at *
  rcases Nat.lt_or_ge newsz KERNBASE with hnew | hnew
  swap
  · -- too large
    rw [allocuvm, if_pos hnew] at ha
    cases ha
    cases hr
    exact ⟨fun _ hM => absurd hM.1 (Nat.not_lt.2 hnew),
      fun _ => ⟨rfl, fun _ _ => rfl, fun _ hf => .inl hf⟩⟩
  simp only [hnew, true_and]
  obtain ⟨rfl, hend⟩ | ⟨rfl, m2, d2, sz', hup, hd⟩ := allocuvm_cases hlt.le hnew ha
  · have hres : b = true ∧ m' = m1 ∧ P' = { P with pgdir := d1, sz } := by
      rcases sz with - | sz
      · exact absurd hlt (Nat.not_lt_zero _)
      · cases hr
        exact ⟨rfl, rfl, rfl⟩
    obtain ⟨rfl, rfl, rfl⟩ := hres
    have hbelow : ∀ vp, vp * PGSIZE < min P.sz sz → d1.entry vp = P.pgdir.entry vp ∧
        m'.page (P.pgdir.entry vp).frame = m.page (P.pgdir.entry vp).frame := by
      intro vp hvp
      have hvp := hvp.trans_le (min_le_left _ _)
      obtain hG | ⟨j, -, hL⟩ := hend
      · exact hG.below hP hvp
      · exact hL.below hP hvp
    refine iff_of_true ⟨hgrow, hbelow⟩ ?_
    obtain hG | ⟨j, hj, hL⟩ := hend
    · exact hG.not_loses
    · rw [← hj]
      refine hL.not_loses ?_
      have := pagesBetween_le hlt.le hnew
      omega
  · cases hr
    rw [← hup.back_iff hP hlt hnew hd]
    exact ⟨fun h => h.2.2, fun h => ⟨rfl, (hup.undone hP hlt hnew hd).1, h⟩⟩

/-- `deallocuvm` writes to the frames of the pages that it unmaps only. -/
theorem deallocLoop_page (hsz : oldsz ≤ KERNBASE) (ha : a % PGSIZE = 0)
    (hf : ∀ vp < UPAGES, a / PGSIZE ≤ vp → vp * PGSIZE < oldsz → (d.entry vp).p = true →
      (d.entry vp).frame ≠ f)
    (h : deallocLoop oldsz acc n m d a = .ok (m', d')) : m'.page f = m.page f := by
  replace h := deallocs_of_ok h
  have hnext (a : Nat) : (a + PGSIZE) / PGSIZE = a / PGSIZE + 1 := by simp [PGSIZE]
  have hmod (a : Nat) (ha : a % PGSIZE = 0) : (a + PGSIZE) % PGSIZE = 0 := by simp [ha]
  induction h with
  | last | past => rfl
  | skip _ _ _ ih =>
    refine ih ?_ fun vp hvp h1 => hf vp hvp (le_trans (Nat.div_le_div_right (by omega)) h1)
    simp only [NPTENTRIES, PGSIZE] at *
    omega
  | absent _ _ _ _ ih | shared _ _ _ _ _ _ ih =>
    exact ih (hmod _ ha) fun vp hvp h1 => hf vp hvp (by rw [hnext] at h1; omega)
  | freed hlt he hp _ _ hk _ ih =>
    have hself := hf _ (div_lt_UPAGES (hlt.trans_le hsz)) le_rfl
      (by rwa [Nat.div_mul_cancel (Nat.dvd_of_mod_eq_zero ha)])
    rw [entry_of_pte he] at hself
    rw [ih (hmod _ ha) fun vp hv h1 => ?_]
    · unfold kfree at hk
      simp only at hk
      split at hk
      · cases hk
      · cases hk
        have hfr (e : Pte) : e.addr / PGSIZE = e.frame := Nat.mul_div_cancel _ (by decide)
        simp only [fill, hfr]
        exact update_of_ne (hself hp).symm ..
    · rw [hnext] at h1
      rw [entry_setPte ((hlt.trans_le hsz).trans (by decide)) (hv.trans_le (by decide))
        (by rw [he]; rfl), if_neg (by omega)]
      exact hf vp hv (by omega)

/-- `deallocuvm` on a plain process. -/
theorem Proc.Plain.shrunk {newsz sz : Nat} (hP : P.Plain m) (hlt : newsz < P.sz)
    (hd : m.deallocuvm P.pgdir P.sz newsz 0 = .ok (sz, m', d')) :
    sz = newsz ∧ Unmapped P.pgdir d' (PGROUNDUP newsz / PGSIZE) P.sz ∧ ∀ vp, vp * PGSIZE < newsz →
        m'.page (P.pgdir.entry vp).frame = m.page (P.pgdir.entry vp).frame := by
  have hsize := hP.size
  have hal : PGROUNDUP newsz % (NPTENTRIES * PGSIZE) = 0 ∨
      (P.pgdir.pte (PGROUNDUP newsz)).isSome = true ∨ P.pgdir.Clear (PGROUNDUP newsz / PGSIZE) := by
    rcases Nat.lt_or_ge (PGROUNDUP newsz) P.sz with hin | hout
    · refine .inr (.inl ?_)
      have hp := (hP.mapped (PGROUNDUP newsz / PGSIZE) (div_lt_UPAGES (hin.trans hsize))).2
        (by rwa [Nat.div_mul_cancel (Nat.dvd_of_mod_eq_zero (PGROUNDUP_mod _))])
      rw [entry_div] at hp
      cases he : P.pgdir.pte (PGROUNDUP newsz) with
      | none =>
        rw [he] at hp
        cases hp
      | some e => rfl
    · refine .inr (.inr (hP.clear.mono ?_))
      simp only [PGROUNDUP, KERNBASE, PGSIZE] at *
      omega
  obtain ⟨rfl, hU⟩ := deallocuvm_unmapped hsize.le hlt hal (fun vp hvp _ _ => hP.unshared vp hvp) hd
  refine ⟨rfl, hU, fun vp hvp => ?_⟩
  unfold deallocuvm at hd
  rw [if_neg (Nat.not_le.2 hlt)] at hd
  obtain ⟨⟨m1, d1⟩, hl, hd⟩ := bind_eq_ok.1 hd
  cases hd
  refine deallocLoop_page hsize.le (PGROUNDUP_mod _) (fun vq hvq h1 h2 hp he => ?_) hl
  -- two pages with one frame
  have hvpU : vp < UPAGES ∧ vp ≠ vq := by
    simp only [PGROUNDUP, UPAGES, KERNBASE, PGSIZE] at *
    omega
  have hmaps : P.pgdir.MapsPage vp (P.pgdir.entry vp).frame :=
    ⟨hvpU.1, (hP.mapped vp hvpU.1).2 (hvp.trans hlt), rfl⟩
  have := user_of_mapsPage₂ hmaps ⟨hvq, hp, he⟩ hvpU.2
  have := hP.own (P.pgdir.entry vp).frame
  omega

/-- `growproc` that shrinks. -/
theorem shrink_iff (hP : P.Plain m) (h0 : n < 0) (hn : - 2 ^ 31 ≤ n)
    (h : m.growproc P n = .ok (b, m', P')) : AllOrNothing m P n b m' P' ↔ ¬ P.Misses m n := by
  have hsize := hP.size
  have hmiss : P.Misses m n ↔ 0 < P.sz ∧ P.sz + n ≤ 0 := by
    rw [Proc.Misses]
    exact ⟨fun h => (h.resolve_left fun h => by omega).2, fun h => .inr ⟨h0, h⟩⟩
  rw [hmiss]
  unfold growproc at h
  simp only [if_neg (show ¬ n > 0 by omega), if_pos h0] at h
  obtain ⟨⟨sz, m1, d1⟩, hd, hr⟩ := bind_eq_ok.1 h
  clear h
  rcases Int.lt_or_le (P.sz + n) 0 with hneg | hnn
  · -- below 0: the new size is above the old one
    have hge : ((P.sz + n) % 2 ^ 32).toNat ≥ P.sz := by
      simp only [KERNBASE] at hsize
      omega
    rw [deallocuvm, if_pos hge] at hd
    cases hd
    rcases hz : P.sz with - | k
    · rw [hz] at hr
      cases hr
      exact iff_of_true ⟨hz.symm, fun _ _ => rfl, fun _ hf => .inl hf⟩ fun hc =>
        absurd hc.1 (lt_irrefl _)
    rw [hz] at hr
    cases hr
    refine iff_of_false (fun hA => ?_) (not_not.2 ⟨Nat.succ_pos k, by rw [← hz]; exact hneg.le⟩)
    have : ((k + 1 : Nat) : Int) = P.sz + n := hA.1
    omega
  have hnew : ((P.sz + n) % 2 ^ 32).toNat = (P.sz + n).toNat := by
    simp only [KERNBASE] at hsize
    omega
  rw [hnew] at hd
  have hlt : (P.sz + n).toNat < P.sz := by omega
  obtain ⟨rfl, hU, hpage⟩ := hP.shrunk hlt hd
  rcases hz : (P.sz + n).toNat with - | k
  · -- the size 0 is a failure, and the first page is gone
    rw [hz] at hr hU
    cases hr
    refine iff_of_false (fun hA => ?_) (not_not.2 ⟨by omega, by omega⟩)
    have hpos : 0 * PGSIZE < P.sz := by omega
    have hgone := hU.gone 0 (by decide) (by decide) hpos
    have hthere := (hP.mapped 0 (by decide)).2 hpos
    have htrans : d1.translation 0 = P.pgdir.translation 0 := hA.2.1 0 (by decide)
    rw [translation_none hgone, translation, if_pos hthere] at htrans
    cases htrans
  · rw [hz] at hr hU hpage
    cases hr
    refine iff_of_true ⟨show ((k + 1 : Nat) : Int) = P.sz + n by omega, fun vp hvp => ?_⟩ (by omega)
    have hvp : vp * PGSIZE < k + 1 := hvp.trans_le (min_le_right _ _)
    refine ⟨hU.kept vp ?_ (.inl ?_), hpage vp hvp⟩ <;>
      (simp only [PGROUNDUP, UPAGES, KERNBASE, PGSIZE] at *; omega)

/-- `growproc` is all or nothing exactly where `Misses` does not apply. -/
theorem all_or_nothing_iff {n : Int} {b : Bool} (hP : P.Plain m) (hn : - 2 ^ 31 ≤ n ∧ n < 2 ^ 31)
    (h : m.growproc P n = .ok (b, m', P')) : AllOrNothing m P n b m' P' ↔ ¬ P.Misses m n := by
  rcases Int.lt_trichotomy n 0 with hneg | rfl | hpos
  · exact shrink_iff hP hneg hn.1 h
  · have hres : b = true ∧ m' = m ∧ P' = P := by
      cases h
      exact ⟨rfl, rfl, rfl⟩
    obtain ⟨rfl, rfl, rfl⟩ := hres
    refine ⟨fun _ hM => ?_, fun _ => ⟨(Int.add_zero _).symm, fun _ _ => ⟨rfl, rfl⟩⟩⟩
    rcases hM with ⟨h, -⟩ | ⟨h, -⟩ <;> exact absurd h (lt_irrefl _)
  · exact grow_iff hP hpos hn.2 h

end

/-- There are no regions at first. -/
theorem not_region_fresh (fs : List Frame) (f : Frame) : ¬ (freshMemory fs).Region f := by
  rintro ⟨hpos, i, hi⟩
  exact (Nat.mul_pos hpos (by decide)).ne hi

/-- A process of one page. -/
def onePage : Proc where
  sz := PGSIZE
  pgdir :=
    { frame := 0x300
      pde := update (fun _ => none) 0 (some
        { frame := 0x301
          pte := update (fun _ => .zero) 0
            { frame := 0x302, p := true, w := true, u := true } }) }
  kstack := 0x303
  parent := none
  zombie := false
  shm_name _ := DNE
  shm_vir _ := 0
  shm_phys _ := 0

theorem onePage_entry (hvp : vp < UPAGES) : onePage.pgdir.entry vp =
    if vp = 0 then { frame := 0x302, p := true, w := true, u := true } else .zero := by
  rcases eq_or_ne vp 0 with rfl | hne
  · rfl
  rw [if_neg hne, entry, pte]
  rcases eq_or_ne (PDX (vp * PGSIZE)) 0 with h0 | h0
  · have hlt : vp < 1024 := by
      rw [PageDir.PDX_page, Fin.ext_iff, Fin.val_ofNat] at h0
      simp only [UPAGES, KERNBASE, PGSIZE, Fin.val_zero] at *
      omega
    have h1 : PTX (vp * PGSIZE) ≠ 0 := by
      rw [PageDir.PTX_page, ne_eq, Fin.ext_iff, Fin.val_ofNat, Nat.mod_eq_of_lt hlt]
      exact hne
    simp [onePage, h0, h1]
  · simp [onePage, h0]

theorem onePage_user (f : Frame) : onePage.pgdir.user f = if 0x302 = f then 1 else 0 := by
  rw [user, sum_eq_single 0]
  · rw [onePage_entry (by decide), if_pos rfl, Pte.count]
    simp
  · intro vp hvp hne
    rw [onePage_entry (Finset.mem_range.1 hvp), if_neg hne]
    rfl
  · intro h
    exact absurd (Finset.mem_range.2 (by decide)) h

theorem onePage_tables (f : Frame) : onePage.pgdir.tables f =
    (if 0x300 = f then 1 else 0) + if 0x301 = f then 1 else 0 := by
  rw [tables, sum_eq_single 0]
  · rfl
  · intro i _ hne
    simp [onePage, hne]
  · intro h
    exact absurd (mem_univ _) h

theorem onePage_plain (hnd : fs.Nodup) (h : ∀ f ∈ fs, f < 0x300) :
    onePage.Plain (freshMemory fs) where
  size := by decide
  mapped vp hvp := by
    rw [onePage_entry hvp]
    rcases eq_or_ne vp 0 with rfl | hne
    · decide
    · rw [if_neg hne]
      simp only [Pte.zero, Bool.false_eq_true, false_iff, onePage, PGSIZE]
      omega
  own f := by
    rw [onePage_user]
    split <;> omega
  unshared _ _ _ := not_region_fresh fs _
  free f hf := by
    have hne (g : Frame) (hg : 0x300 ≤ g) : g ≠ f := ((h f hf).trans_le hg).ne'
    rw [Memory.total, onePage_user, onePage_tables, if_neg (hne _ (by decide)),
      if_neg (hne _ (by decide)), if_neg (hne _ (by decide))]
    exact count_eq_one_of_mem hnd hf
  spare f _ := not_region_fresh fs f

/-- A process that grows into a page that it has a table for. -/
theorem grown_by_one : ∃ m' P', (freshMemory [0x200]).growproc onePage 1 = .ok (true, m', P') ∧
    AllOrNothing (freshMemory [0x200]) onePage 1 true m' P' := by
  have hplain : onePage.Plain (freshMemory [0x200]) := onePage_plain (by decide) (by decide)
  refine ⟨_, _, rfl, (all_or_nothing_iff hplain (by decide) rfl).2 ?_⟩
  rintro (⟨-, -, k, hk, -⟩ | ⟨h, -⟩)
  · have hpages : pagesBetween onePage.sz (onePage.sz + 1 : Int).toNat = 1 := by decide
    rw [hpages] at hk
    omega
  · exact absurd h (by decide)

/-- Giving up all memory fails, and all memory is gone. -/
theorem shrunk_to_nothing : ∃ m' P',
    (freshMemory []).growproc onePage (-4096) = .ok (false, m', P') ∧
    P'.sz = PGSIZE ∧ (P'.pgdir.entry 0).p = false ∧
    ¬ AllOrNothing (freshMemory []) onePage (-4096) false m' P' := by
  refine ⟨_, _, rfl, rfl, rfl, fun h => ?_⟩
  have h0 := congrArg Option.isSome (h.2.1 0 (by decide))
  revert h0
  decide

end Msboss.Vm
