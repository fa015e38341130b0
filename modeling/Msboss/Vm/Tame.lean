import Msboss.Vm.Names
import Msboss.Vm.Regions

/-!
# Wild writes

No call writes to memory that is not its to write: every function below fails with a panic only.
`shm_get` would write past `shm_arr` if it found no free entry, but `used` counts the entries in
use. `exec` is tame under conditions on its file and its arguments: no segment wraps around the
address space, the stack does not begin a page table, for which `allocuvm` might have found no
frame, and the arguments fit into the two pages above the image.
-/

namespace Msboss.Vm

open Memory PageDir List

/-! ## Shared regions -/

/-- `shm_rem` writes nothing wild. -/
theorem tame_shm_rem (m : Memory) (P : Proc) (name : List UInt8) : Tame (m.shm_rem P name) := by
  unfold shm_rem
  split
  · exact tame_ok _
  · exact tame_ok _
  split
  · refine (calm_shm_alloc ..).tame.bind fun x _ => ?_
    split <;> exact tame_ok _
  · refine (calm_shm_alloc ..).tame.bind fun x _ => ?_
    split <;> exact tame_ok _

/-- While `used` is below the number of entries, one of them is free. -/
theorem findFree_ne_none {m : Memory}
    (hu : m.used = (Finset.univ.filter fun i => (m.shm_arr i).Named).card)
    (h : m.used < SHM_MAXNUM) : m.shm_findFree ≠ none := by
  intro hn
  have hall : ∀ i, (m.shm_arr i).Named := fun i hi => by
    have := find?_eq_none.1 hn i (mem_finRange i)
    simp [strncmp, hi] at this
  have hcard : (Finset.univ.filter fun i => (m.shm_arr i).Named).card = SHM_MAXNUM := by
    rw [Finset.filter_true_of_mem fun i _ => hall i]
    exact Finset.card_fin _
  rw [hcard] at hu
  omega

/-- `shm_get` finds a free entry where it needs one. -/
theorem tame_shm_get {m : Memory}
    (hu : m.used = (Finset.univ.filter fun i => (m.shm_arr i).Named).card)
    (name : List UInt8) (junk : Nat) : Tame (m.shm_get P name junk) := by
  unfold shm_get
  split
  · exact tame_ok _
  split
  · exact tame_ok _
  split
  · split
    · next hused =>
      refine (calm_shm_alloc ..).tame.bind fun x hx => ?_
      split
      · exact tame_ok _
      next m1 P1 =>
      simp only
      split
      · next hn =>
        refine absurd ?_ (findFree_ne_none hu hused)
        have hsame := (calm_shm_alloc ..).names _ hx
        rwa [shm_findFree, hsame.shm_find] at hn
      · exact tame_ok _
    · exact tame_ok _
  · refine (calm_shm_alloc ..).tame.bind fun x _ => ?_
    split <;> exact tame_ok _

/-! ## `exec` -/

/-- A segment that is to be loaded ends below `2 ^ 32`, and the second page after it, the one of the
stack, is not the first of a page table. -/
def ProgHdr.Fits (ph : ProgHdr) : Prop :=
  ph.type = 1 → ph.vaddr + ph.memsz < 2 ^ 32 ∧
    (PGROUNDUP (ph.vaddr + ph.memsz) + PGSIZE) % (NPTENTRIES * PGSIZE) ≠ 0

/-- Every program header that `exec` reads in the file fits. -/
def Loadable (file : List UInt8) : Prop :=
  ∀ k < field ((readi file 0 52).getD []) 44 2,
    ∀ b ∈ readi file ((field ((readi file 0 52).getD []) 28 4 + 32 * k) % 2 ^ 32) 32,
      (ProgHdr.read b).Fits

/-- The bytes `exec` needs on the stack: the arguments, each with its zero and up to three bytes of
padding, a pointer to each, and four words. -/
def argBytes (argv : List (List UInt8)) : Nat := (argv.map fun arg => arg.length + 8).sum + 16

/-- An image of `sz` bytes ends below `KERNBASE`, and its stack shares a page table with the page
before it. -/
def Roomy (sz : Nat) : Prop :=
  sz < KERNBASE ∧ (PGROUNDUP sz + PGSIZE) % (NPTENTRIES * PGSIZE) ≠ 0

section
variable {m m' : Memory} {cur d d' : PageDir} {file : List UInt8} {sz lo hi : Nat}

/-- A segment that ends below `KERNBASE` is loaded into user pages. -/
theorem tame_loadLoop (hend : addr + sz ≤ KERNBASE) :
    ∀ (n : Nat) (m : Memory) (i : Nat), i + n * PGSIZE < sz + PGSIZE →
      Tame (loadLoop d addr file offset sz n m i)
  | 0, _, _, _ => tame_ok _
  | n + 1, m, i, hi => by
    have hva : (addr + i) % 2 ^ 32 < KERNBASE := by
      simp only [PGSIZE, KERNBASE] at *
      omega
    simp only [loadLoop]
    split
    · exact tame_panic _
    split
    · exact tame_ok _
    rw [if_neg fun h => absurd hva (Nat.not_lt.2 h.1)]
    split
    · exact tame_loadLoop hend n _ _ (by simp only [PGSIZE] at *; omega)
    · exact tame_ok _

/-- `loaduvm` below the kernel writes nothing wild. -/
theorem tame_loaduvm (hend : addr + sz ≤ KERNBASE) : Tame (m.loaduvm d addr file offset sz) := by
  unfold loaduvm
  split
  · exact tame_panic _
  · exact tame_loadLoop hend _ _ _ (by simp only [PGSIZE]; omega)

/-- `allocuvm` returns 0 or the greater size, and 0 for a new size from `KERNBASE` on. -/
theorem allocuvm_size (h : m.allocuvm d oldsz newsz = .ok (sz, m', d'))
    (h0 : sz ≠ 0) : newsz < KERNBASE ∧ sz = max oldsz newsz := by
  have hloop : ∀ (n : Nat) (m : Memory) (d : PageDir) (a : Nat),
      allocLoop oldsz newsz n m d a = .ok (sz, m', d') → sz = newsz := by
    intro n
    induction n with
    | zero =>
      intro m d a h
      cases h
      rfl
    | succ n ih =>
      intro m d a h
      simp only [allocLoop] at h
      split at h
      · obtain ⟨_, -, h⟩ := bind_eq_ok.1 h
        cases h
        exact absurd rfl h0
      · obtain ⟨_, -, h⟩ := bind_eq_ok.1 h
        exact ih _ _ _ h
  unfold allocuvm at h
  split at h
  · cases h
    exact absurd rfl h0
  next hk =>
  refine ⟨Nat.not_le.1 hk, ?_⟩
  split at h
  · next hlt =>
    cases h
    exact (Nat.max_eq_left hlt.le).symm
  · next hge => exact (hloop _ _ _ _ h).trans (Nat.max_eq_right (Nat.not_lt.1 hge)).symm

/-- The loop over the program headers: it writes into user pages only, and leaves room for the
stack. -/
theorem execLoad_fits : ∀ (n : Nat) (m : Memory) (d : PageDir) (sz off : Nat), off < 2 ^ 32 →
    Roomy sz → (∀ k < n, ∀ b ∈ readi file ((off + 32 * k) % 2 ^ 32) 32, (ProgHdr.read b).Fits) →
    Tame (execLoad file n m d sz off) ∧
      ∀ {sz' m' d'}, execLoad file n m d sz off = .ok (some sz', m', d') → Roomy sz'
  | 0, m, d, sz, off, _, hsz, _ => by
    refine ⟨tame_ok _, fun h => ?_⟩
    cases h
    exact hsz
  | n + 1, m, d, sz, off, hoff, hsz, hfits => by
    have hoff' (k : Nat) : (off + 32 * (k + 1)) % 2 ^ 32 =
        ((off + 32) % 2 ^ 32 + 32 * k) % 2 ^ 32 := by omega
    have hnext (m : Memory) (d : PageDir) (sz : Nat) (hsz : Roomy sz) :=
      execLoad_fits n m d sz ((off + 32) % 2 ^ 32) (Nat.mod_lt _ (by decide)) hsz fun k hk b hb =>
        hfits (k + 1) (by omega) b (by rwa [hoff' k])
    simp only [execLoad]
    split
    · exact ⟨tame_ok _, fun h => by cases h⟩
    next b hb =>
    split
    · exact ⟨tame_ok _, fun h => by cases h⟩
    split
    · exact hnext m d sz hsz
    next htype =>
    obtain ⟨hend, hstack⟩ := hfits 0 (by omega) b
      (by rw [Nat.mul_zero, Nat.add_zero, Nat.mod_eq_of_lt hoff]; exact hb) (not_not.1 htype)
    split
    · exact ⟨tame_ok _, fun h => by cases h⟩
    next hmem =>
    rw [Nat.mod_eq_of_lt hend]
    -- the segment is loaded only if its end is below `KERNBASE`
    have hsegment (x : Nat × Memory × PageDir)
        (hx : m.allocuvm d sz ((ProgHdr.read b).vaddr + (ProgHdr.read b).memsz) = .ok x)
        (h0 : x.1 ≠ 0) : Roomy x.1 ∧ (ProgHdr.read b).vaddr + (ProgHdr.read b).filesz ≤
          KERNBASE := by
      obtain ⟨hlt, hmax⟩ := allocuvm_size hx h0
      refine ⟨?_, by omega⟩
      rw [hmax]
      rcases max_choice sz ((ProgHdr.read b).vaddr + (ProgHdr.read b).memsz) with h | h
      · rw [h]
        exact hsz
      · rw [h]
        exact ⟨hlt, hstack⟩
    constructor
    · refine (tame_allocuvm ..).bind fun x hx => ?_
      split
      · exact tame_ok _
      next h0 =>
      obtain ⟨hroomy, hfile⟩ := hsegment x hx h0
      refine (tame_loaduvm hfile).bind fun y _ => ?_
      split
      · exact (hnext _ _ _ hroomy).1
      · exact tame_ok _
    · intro sz' m' d' h
      obtain ⟨x, hx, h⟩ := bind_eq_ok.1 h
      split at h
      · cases h
      next h0 =>
      obtain ⟨y, -, h⟩ := bind_eq_ok.1 h
      split at h
      · exact (hnext _ _ _ (hsegment x hx h0).1).2 h
      · cases h

/-- Once the two pages after the image are allocated, both have a page table: the first was mapped
before the frame of the second was taken, so there was a frame for its page table. -/
theorem allocuvm_stack (hsz : sz % PGSIZE = 0) (hhi : sz + 2 * PGSIZE < KERNBASE)
    (hstack : (sz + PGSIZE) % (NPTENTRIES * PGSIZE) ≠ 0)
    (h : m.allocuvm d sz (sz + 2 * PGSIZE) = .ok (sz', m', d')) (h0 : sz' ≠ 0) :
    (d'.pte sz).isSome = true ∧ (d'.pte (sz + PGSIZE)).isSome = true := by
  have hfirst : (d'.pte sz).isSome = true := by
    have hup : PGROUNDUP sz = sz := by
      simp only [PGROUNDUP, PGSIZE, KERNBASE] at *
      omega
    have hturns : (sz + 2 * PGSIZE - sz + (PGSIZE - 1)) / PGSIZE = 2 := by
      rw [Nat.add_sub_cancel_left]
      rfl
    unfold allocuvm at h
    rw [if_neg (Nat.not_le.2 hhi), if_neg (by omega)] at h
    simp only [hup, hturns, allocLoop] at h
    split at h
    · obtain ⟨_, -, h⟩ := bind_eq_ok.1 h
      cases h
      exact absurd rfl h0
    obtain ⟨⟨b, m1, d1⟩, hmap, h⟩ := bind_eq_ok.1 h
    simp only at h
    split at h
    · obtain ⟨_, -, h⟩ := bind_eq_ok.1 h
      cases h
      exact absurd rfl h0
    next f m2 hk =>
    obtain ⟨⟨b', m3, d3⟩, hmap', h⟩ := bind_eq_ok.1 h
    cases h
    have hlt : sz + PGSIZE < 2 ^ 32 := by
      simp only [PGSIZE, KERNBASE] at *
      omega
    obtain ⟨e, hW, ht, hf⟩ := mappages_page hsz (by omega) hmap
    obtain ⟨e', hW', ht', hf'⟩ := mappages_page (by rwa [Nat.add_mod_right]) hlt hmap'
    have h1 : (d1.pte sz).isSome = true := by
      cases b with
      | false =>
        have hnil := (hf rfl).2.2
        rw [(kalloc_some hk).1] at hnil
        cases hnil
      | true =>
        rw [(ht rfl).1, pte_setPte_isSome]
        exact (ht rfl).2.1
    have h2 := hW'.isSome sz h1
    cases b' with
    | false => rwa [(hf' rfl).1]
    | true => rwa [(ht' rfl).1, pte_setPte_isSome]
  exact ⟨hfirst, pte_isSome_next hsz hfirst hstack⟩

/-- `clearpteu` writes nothing wild. -/
theorem tame_clearpteu (d : PageDir) (uva : Nat) : Tame (clearpteu d uva) := by
  unfold clearpteu
  split
  · exact tame_panic _
  · exact tame_ok _

/-- `clearpteu` makes and drops no page table. -/
theorem clearpteu_isSome (h : clearpteu d uva = .ok d') (a : Nat) :
    (d'.pte a).isSome = (d.pte a).isSome := by
  unfold clearpteu at h
  split at h
  · cases h
  · cases h
    exact pte_setPte_isSome ..

/-- `copyout` within user pages that have page tables. -/
theorem tame_copyLoopOut (hlo : lo % PGSIZE = 0) (hhi : hi ≤ KERNBASE)
    (hpte : ∀ a, lo ≤ a → a < hi → (d.pte a).isSome = true) :
    ∀ (n : Nat) (m : Memory) (va : Nat) (buf : List UInt8),
      (buf ≠ [] → lo ≤ va ∧ va + buf.length ≤ hi) → Tame (copyLoopOut cur d n m va buf)
  | 0, _, _, _, _ => tame_ok _
  | n + 1, m, va, buf, hbuf => by
    simp only [copyLoopOut]
    split
    · exact tame_ok _
    next hne =>
    obtain ⟨hva, hend⟩ := hbuf hne
    have hpos := length_pos_of_ne_nil hne
    have hround : lo ≤ PGROUNDDOWN va ∧ PGROUNDDOWN va ≤ va ∧ va < PGROUNDDOWN va + PGSIZE := by
      simp only [PGROUNDDOWN, PGSIZE] at *
      omega
    obtain ⟨e, he⟩ := Option.isSome_iff_exists.1 (hpte _ hround.1 (by omega))
    have huva : Tame (m.uva2ka cur d (PGROUNDDOWN va)) := by
      unfold uva2ka
      rw [he]
      exact tame_ok _
    refine huva.bind fun x _ => ?_
    split
    · exact tame_ok _
    rw [if_neg (by omega)]
    refine tame_copyLoopOut hlo hhi hpte n _ _ _ fun hrest => ?_
    have hlen := length_pos_of_ne_nil hrest
    rw [length_drop] at hlen ⊢
    simp only [PGSIZE, KERNBASE] at *
    omega

/-- The loop over the arguments stays on the stack, and leaves the bytes that are kept free. -/
theorem execArgs_fits (cur : PageDir) (hlo : lo % PGSIZE = 0) (hhi : hi ≤ KERNBASE)
    (hpte : ∀ a, lo ≤ a → a < hi → (d.pte a).isSome = true) (free : Nat) :
    ∀ (args : List (List UInt8)) (m : Memory) (sp : Nat) (ustack : List Nat),
      lo + (args.map fun arg => arg.length + 8).sum + 4 * ustack.length + free ≤ sp → sp ≤ hi →
      Tame (execArgs cur d args m sp ustack) ∧
        ∀ {sp' ptrs m'}, execArgs cur d args m sp ustack = .ok (some (sp', ptrs), m') →
          lo + 4 * ptrs.length + free ≤ sp' ∧ sp' ≤ hi
  | [], m, sp, ustack, hsp, hle => by
    refine ⟨tame_ok _, fun h => ?_⟩
    cases h
    simp only [map_nil, sum_nil] at hsp
    exact ⟨by omega, hle⟩
  | arg :: args, m, sp, ustack, hsp, hle => by
    simp only [execArgs]
    split
    · exact ⟨tame_ok _, fun h => by cases h⟩
    rw [map_cons, sum_cons] at hsp
    generalize hsp' : (sp + (2 ^ 32 - (arg.length + 1))) % 2 ^ 32 / 4 * 4 = sp'
    have hbounds : sp ≤ sp' + arg.length + 4 ∧ sp' + arg.length + 1 ≤ sp := by
      simp only [KERNBASE] at hhi
      omega
    have hcopy : Tame (m.copyout cur d sp' (arg ++ [0])) :=
      tame_copyLoopOut hlo hhi hpte _ _ _ _ fun _ => by
        rw [length_append, length_singleton]
        omega
    have hnext (m : Memory) := execArgs_fits cur hlo hhi hpte free args m sp'
      (ustack ++ [sp'])
      (by rw [length_append, length_singleton]; omega) (by omega)
    constructor
    · refine hcopy.bind fun x _ => ?_
      split
      · exact tame_ok _
      · exact (hnext _).1
    · intro sp'' ptrs m' h
      obtain ⟨x, -, h⟩ := bind_eq_ok.1 h
      split at h
      · cases h
      · exact (hnext _).2 h

/-- The stack and the arguments, above an image that leaves room for them. -/
theorem tame_execStack (hsz : Roomy sz)
    (hargs : argBytes argv ≤ 2 * PGSIZE) : Tame (execStack cur m d sz argv) := by
  obtain ⟨hlt, hstack⟩ := hsz
  have hround := PGROUNDUP_mod sz
  have hle : PGROUNDUP sz ≤ KERNBASE := by
    simp only [PGROUNDUP, PGSIZE, KERNBASE] at *
    omega
  unfold execStack
  dsimp only
  generalize PGROUNDUP sz = lo at *
  rw [show (lo + 2 * PGSIZE) % 2 ^ 32 = lo + 2 * PGSIZE by
    simp only [PGSIZE, KERNBASE] at *
    omega]
  refine (tame_allocuvm ..).bind fun x hx => ?_
  obtain ⟨hi, m1, d1⟩ := x
  simp only
  split
  · exact tame_ok _
  next h0 =>
  obtain ⟨hlt', hsize⟩ := allocuvm_size hx h0
  obtain rfl : hi = lo + 2 * PGSIZE := hsize.trans (Nat.max_eq_right (by omega))
  obtain ⟨hs1, hs2⟩ := allocuvm_stack hround hlt' hstack hx h0
  rw [show (lo + 2 * PGSIZE + (2 ^ 32 - 2 * PGSIZE)) % 2 ^ 32 = lo by
    simp only [PGSIZE, KERNBASE] at *
    omega]
  refine (tame_clearpteu d1 lo).bind fun d2 hd2 => ?_
  have hpte : ∀ a, lo ≤ a → a < lo + 2 * PGSIZE → (d2.pte a).isSome = true := by
    intro a ha ha'
    have hpage : a / PGSIZE * PGSIZE = lo ∨ a / PGSIZE * PGSIZE = lo + PGSIZE := by
      simp only [PGSIZE] at *
      omega
    rw [clearpteu_isSome hd2, ← pte_page]
    rcases hpage with h | h <;> rwa [h]
  obtain ⟨htame, hsp⟩ := execArgs_fits cur hround hlt'.le hpte 16 argv m1 (lo + 2 * PGSIZE) []
    (by rw [argBytes] at hargs; simp only [length_nil]; omega) le_rfl
  refine htame.bind fun x hx => ?_
  split
  · exact tame_ok _
  next sp ptrs m2 =>
  obtain ⟨hfree, htop⟩ := hsp hx
  refine Tame.bind ?_ fun _ _ => tame_ok _
  refine tame_copyLoopOut hround hlt'.le hpte _ _ _ _ fun _ => ?_
  simp only [length_flatMap, Bytes.length_leBytes, map_const', sum_replicate,
    length_append, length_cons, length_nil, PGSIZE, KERNBASE, smul_eq_mul] at *
  omega

/-- `exec` of a loadable file, with arguments that fit on the stack, writes nowhere else. -/
theorem tame_exec {file : Option (List UInt8)}
    (hfile : ∀ bytes ∈ file, Loadable bytes) (hargs : argBytes argv ≤ 2 * PGSIZE) :
    Tame (m.exec P file argv) := by
  unfold exec
  split
  · exact tame_ok _
  next bytes =>
  dsimp only
  split
  · exact tame_ok _
  refine (tame_setupkvm m).bind fun x _ => ?_
  split
  · exact tame_ok _
  next d m1 _ =>
  have himage : Tame (execImage P.pgdir m1 d bytes ((readi bytes 0 52).getD []) argv) := by
    unfold execImage
    have hoff : field ((readi bytes 0 52).getD []) 28 4 < 2 ^ 32 :=
      (Bytes.leNat_lt _).trans_le (Nat.pow_le_pow_right (by decide)
        (Nat.mul_le_mul_left 8 (length_take_le 4 _)))
    obtain ⟨htame, hroomy⟩ := execLoad_fits _ m1 d 0 _ hoff (show Roomy 0 by unfold Roomy; decide)
      (hfile bytes rfl)
    refine htame.bind fun y hy => ?_
    split
    · exact tame_ok _
    · exact tame_execStack (hroomy hy) hargs
  refine himage.bind fun y _ => ?_
  split <;> exact (tame_freevm ..).bind fun _ _ => tame_ok _

end

/-! ## Calls -/

/-- No call writes wildly, if what `exec` is to load is loadable and its arguments fit on the
stack. -/
theorem call_ne_wild {s : State} {P : Proc}
    (hu : s.mem.used = (Finset.univ.filter fun i => (s.mem.shm_arr i).Named).card)
    (ha : ∀ p file argv, a = .exec p file argv →
      (∀ bytes ∈ file, Loadable bytes) ∧ argBytes argv ≤ 2 * PGSIZE) :
    s.call P a ≠ some (.error .wild) := by
  cases a with
  | growproc p n =>
    exact fun h => ((tame_growproc ..).bind fun _ _ => tame_ok _).ne_wild (Option.some.inj h)
  | fork p => exact fun h => (tame_fork ..).ne_wild (Option.some.inj h)
  | exec p file argv =>
    obtain ⟨hfile, hargs⟩ := ha p file argv rfl
    exact fun h => ((tame_exec hfile hargs).bind fun _ _ => tame_ok _).ne_wild (Option.some.inj h)
  | exit p =>
    simp only [State.call, State.exit]
    split <;> nofun
  | wait p =>
    intro h
    exact (tame_wait h).ne_wild rfl
  | shm_get p name length junk =>
    intro h
    refine (Tame.bind ?_ fun _ _ => tame_ok _).ne_wild (Option.some.inj h)
    unfold sys_shm_get
    split
    · exact tame_ok _
    · exact tame_shm_get hu name junk
  | shm_rem p name length =>
    intro h
    refine (Tame.bind ?_ fun _ _ => tame_ok _).ne_wild (Option.some.inj h)
    unfold sys_shm_rem
    split
    · exact tame_ok _
    · exact tame_shm_rem ..
  | store p va x =>
    simp only [State.call]
    split
    · split <;> nofun
    · nofun

end Msboss.Vm
