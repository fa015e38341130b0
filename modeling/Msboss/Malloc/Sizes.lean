import Msboss.Malloc.Sound
import Msboss.Vm.Heap

/-!
# Sizes near the top of the range

`malloc` rounds its argument up to headers, and `morecore` multiplies the number of headers by their
size and passes the product to `sbrk`, all in 32 bits; `sbrk` takes it for an `int`. Here `sbrk` is
`sys_sbrk` with `growproc`: a negative argument shrinks the process, or leaves it as it is, and the
old size is returned as if it had grown.

`malloc` honours a size exactly if neither the sum nor the product overflows, or if the sum
overflows and there is nothing to give out (`malloc_honours_iff`).
-/

namespace Msboss.Malloc.Sizes

/-! ## The code -/

/-- `growproc(n)` as far as `proc->sz` goes: the new size, or `none` for `-1`. `room` says whether
`allocuvm` finds the memory (`growproc_refines`). -/
def growproc (room : Bool) (sz : Nat) (n : Int) : Option Nat :=
  let newsz := ((sz + n) % 2 ^ 32).toNat
  if n > 0 then
    let r := if newsz ≥ KERNBASE then 0 else if newsz < sz then sz else if room then newsz else 0
    if r = 0 then none else some r
  else if n < 0 then
    let r := if newsz ≥ sz then sz else newsz
    if r = 0 then none else some r
  else some sz

/-- What the rest of the system does: at the n-th call of `sbrk` by `morecore` the process ends so
far above its last area, and there is memory, or not. -/
structure Kernel where
  gap : Nat → Nat
  room : Nat → Bool

/-- `proc->sz` -/
def Kernel.sz (K : Kernel) (P : Process) (h : Heap) : Nat := top P h.areas + K.gap h.calls

/-- What keeps `malloc` from returning: a loop takes too long, a block is recorded that is larger
than what `sbrk` has added to the process, or `sbrk` has taken all pages away, those of the program
itself included. -/
inductive Fault
  | loops
  | oversize
  | unmapped
  deriving DecidableEq, Repr

/-- The `int` with these 32 bits. -/
def int (n : Nat) : Int := if n % 2 ^ 32 < 2 ^ 31 then (n % 2 ^ 32 : Nat) else
    (n % 2 ^ 32 : Nat) - 2 ^ 32

/-- `morecore(nu)` -/
def morecore (P : Process) (K : Kernel) (nu : Nat) (h : Heap) : Except Fault (Nat × Heap) :=
  let nu := if nu < 4096 then 4096 else nu
  let n := int (nu * 8)
  let sz := K.sz P h
  let room := K.room h.calls
  let h := { h with calls := h.calls + 1 }
  match growproc room sz n with
  | none => if sz + n = 0 then .error .unmapped else .ok (0, h)
  | some newsz =>
    let hp := sz
    if newsz < hp + nu * 8 then .error .oversize
    else do
      let h := { h with mem := setSize h.mem hp nu, areas := (hp, newsz - sz) :: h.areas }
      let h ← (free ((hp + 8) % 2 ^ 32) h).mapError fun _ => .loops
      .ok (h.freep, h)

/-- `malloc(nbytes)` -/
def malloc (P : Process) (K : Kernel) : Nat → Heap → Except Fault (Nat × Heap) :=
  mallocWith .loops (morecore P K) P

/-! ## The property -/

/-- `malloc(nbytes)` returns 0, or a pointer to a block with room for `nbytes` in what is from
`sbrk`, apart from all other blocks; and no block is recorded that `sbrk` has not made room for. -/
def Honours (P : Process) (K : Kernel) (s : State) (nbytes : Nat) : Prop :=
  ∃ p heap, malloc P K nbytes s.heap = .ok (p, heap) ∧
    ∃ bs, Sound P ⟨heap, if p = 0 then s.live else (p, nbytes) :: s.live⟩ bs

/-- There is no free block, and no memory for one. -/
def Exhausted (P : Process) (K : Kernel) (s : State) : Prop :=
  (s.Fresh ∨ s.Good P []) ∧ growproc (K.room s.heap.calls) (K.sz P s.heap) (4096 * 8 : Nat) = none

section
variable {P : Process} {K : Kernel} {s : State} {h : Heap} {bs ls : List Block} {b : Block}
  {nbytes nu : Nat}

/-- `malloc` is its loop, from `freep` on. -/
theorem malloc_eq (P : Process) (K : Kernel) (nbytes : Nat) (h : Heap) : malloc P K nbytes h =
    mallocLoop .loops (morecore P K (units nbytes)) (units nbytes) LOOPS (ready P h).freep
      (ptr (ready P h).mem (ready P h).freep) (ready P h) := rfl

/-! ## Sizes that fit -/

theorem int_of_lt (h : n < 2 ^ 31) : int n = n := by
  rw [int, Nat.mod_eq_of_lt (h.trans (by decide)), if_pos h]

/-- `growproc` that grows. -/
theorem growproc_pos (room : Bool) {sz n : Nat} (hsz : sz < KERNBASE) (hn : 0 < n)
    (hlt : n < 2 ^ 31) :
    growproc room sz n = if sz + n < KERNBASE ∧ room = true then some (sz + n) else none := by
  have hnew : (((sz : Int) + n) % 2 ^ 32).toNat = sz + n := by
    simp only [KERNBASE] at hsz
    omega
  unfold growproc
  simp only [hnew]
  rw [if_pos (by omega)]
  by_cases hk : sz + n < KERNBASE
  · rw [if_neg (Nat.not_le.2 hk), if_neg (Nat.not_lt.2 (Nat.le_add_right sz n))]
    cases room with
    | true => rw [if_pos rfl, if_neg (Nat.add_pos_right sz hn).ne', if_pos ⟨hk, rfl⟩]
    | false => rw [if_neg Bool.false_ne_true, if_pos rfl,
      if_neg fun h => absurd h.2 Bool.false_ne_true]
  · rw [if_pos (Nat.not_lt.1 hk), if_pos rfl, if_neg fun h => hk h.1]

/-- The headers that `morecore` asks for. -/
theorem asked (hnu : nu * 8 < 2 ^ 31) : ∃ n, n = (if nu < 4096 then 4096 else nu) ∧ 0 < n ∧
    nu ≤ n ∧ n * 8 < 2 ^ 31 :=
  ⟨_, rfl, by split_ifs <;> omega, by split_ifs <;> omega, by split_ifs <;> omega⟩

/-- `morecore` with memory. -/
theorem morecore_grants (ht : Tiled P h bs ls) (hsz : K.sz P h < KERNBASE) (hnu : nu * 8 < 2 ^ 31)
    (hroom : K.sz P h + (if nu < 4096 then 4096 else nu) * 8 < KERNBASE ∧ K.room h.calls = true) :
    Grants P (morecore P K nu) nu h bs ls := by
  obtain ⟨n, hn, hpos, hle, hlt⟩ := asked hnu
  unfold Grants
  simp only [morecore, ← hn, int_of_lt hlt] at hroom ⊢
  rw [growproc_pos _ hsz (by omega) hlt, if_pos hroom]
  dsimp only
  rw [if_neg (by omega), Nat.add_sub_cancel_left]
  have hext : Tiled P _ bs ([] ++ _ :: ls) :=
    ht.extend hpos (Nat.le_add_right _ (K.gap h.calls)) hroom.1.le (h.calls + 1)
  obtain ⟨s', bs', hfree, htiled, ⟨b, hb, hbn⟩, hlen⟩ := hext.free_spec
  have hwrap : (K.sz P h + 8) % 2 ^ 32 = K.sz P h + 8 := by
    have : KERNBASE < 2 ^ 32 - 8 := by decide
    exact Nat.mod_eq_of_lt (by omega)
  refine ⟨s', bs', ?_, htiled, ⟨b, hb, hle.trans hbn⟩, hlen⟩
  rw [hwrap]
  exact congrArg (fun r => Except.mapError (fun _ => Fault.loops) r >>= fun s : Heap =>
    Except.ok (s.freep, s)) hfree

/-- `morecore` without memory. -/
theorem morecore_fails (hsz : K.sz P h < KERNBASE) (hnu : nu * 8 < 2 ^ 31)
    (hroom : ¬ (K.sz P h + (if nu < 4096 then 4096 else nu) * 8 < KERNBASE ∧
      K.room h.calls = true)) : morecore P K nu h = .ok (0, { h with calls := h.calls + 1 }) := by
  obtain ⟨n, hn, hpos, hle, hlt⟩ := asked hnu
  simp only [morecore, ← hn, int_of_lt hlt] at hroom ⊢
  rw [growproc_pos _ hsz (by omega) hlt, if_neg hroom]
  dsimp only
  rw [if_neg (by omega)]

/-- A `morecore` of less than 2 GB does what its loop needs. -/
theorem morecore_supplies (ht : Tiled P h bs ls) (hsz : K.sz P h < KERNBASE)
    (hnu : nu * 8 < 2 ^ 31) : Supplies P (morecore P K nu) nu h bs ls := by
  by_cases hroom : K.sz P h + (if nu < 4096 then 4096 else nu) * 8 < KERNBASE ∧
    K.room h.calls = true
  · exact Or.inr (morecore_grants ht hsz hnu hroom)
  · exact Or.inl ⟨_, morecore_fails hsz hnu hroom, ht.list, ht.freep, ht.live, ht.areas, ht.tiles⟩

/-- The first call of `malloc` asks the kernel for nothing. -/
theorem ready_sz (K : Kernel) (P : Process) (h : Heap) :
    K.sz P (ready P h) = K.sz P h ∧ (ready P h).calls = h.calls := by
  unfold ready
  split_ifs
  · exact ⟨rfl, rfl⟩
  · exact ⟨rfl, rfl⟩

/-- A request that fits is honoured. -/
theorem honours_of_fits (h : s.Fresh ∨ ∃ bs, s.Good P bs) (hsz : K.sz P s.heap < KERNBASE)
    (hn : Fits nbytes) : Honours P K s nbytes := by
  obtain ⟨bs, hg⟩ := good_ready h
  obtain ⟨p, heap, bs', hloop, hp⟩ := hg.1.search_spec Fault.loops (units_pos nbytes)
    (morecore_supplies hg.1 (by rw [(ready_sz ..).1]; exact hsz) hn.2)
  refine ⟨p, heap, (malloc_eq ..).trans hloop, bs', ?_⟩
  obtain ⟨rfl, htiled⟩ | ⟨c, rfl, hunits, htiled⟩ := hp
  · rw [if_pos rfl]
    exact (good_of_tiled hg htiled rfl fun _ => id).sound
  · rw [if_neg (Nat.succ_ne_zero _)]
    exact (good_taken hg htiled (by rw [hunits]; exact units_room hn)).sound

/-! ## Products that overflow -/

/-- `growproc` that does not grow: all pages are gone, or the size is not larger. -/
theorem growproc_nonpos (room : Bool) (hpos : 0 < sz) (hsz : sz < KERNBASE)
    (hn : n ≤ 0) (hlo : -2 ^ 31 ≤ n) :
    growproc room sz n = none ∧ (sz : Int) + n = 0 ∨ ∃ r, growproc room sz n = some r ∧ r ≤ sz := by
  unfold growproc
  dsimp only
  rw [if_neg (by omega)]
  split_ifs with hneg hge h0 h0
  · omega
  · exact Or.inr ⟨sz, rfl, le_rfl⟩
  · refine Or.inl ⟨rfl, ?_⟩
    simp only [KERNBASE] at hsz
    omega
  · exact Or.inr ⟨_, rfl, (not_le.1 hge).le⟩
  · exact Or.inr ⟨sz, rfl, le_rfl⟩

/-- `morecore` with a product that is no positive `int`. -/
theorem morecore_large (hpos : 0 < K.sz P h) (hsz : K.sz P h < KERNBASE) (hlo : 2 ^ 28 ≤ nu)
    (hhi : nu ≤ 2 ^ 29) : ∃ e, morecore P K nu h = .error e := by
  have hint : int (nu * 8) ≤ 0 ∧ -2 ^ 31 ≤ int (nu * 8) := by
    unfold int
    split_ifs <;> omega
  unfold morecore
  dsimp only
  rw [if_neg (by omega)]
  obtain ⟨hg, h0⟩ | ⟨r, hg, hr⟩ := growproc_nonpos (K.room h.calls) hpos hsz hint.1 hint.2
  · rw [hg]
    exact ⟨_, if_pos h0⟩
  · rw [hg]
    exact ⟨_, if_pos (by omega)⟩

/-- There is no room for such a block. -/
theorem units_lt (hb : Block.InHeap P b) : b.units < 2 ^ 28 := by
  have h1 := hb.start
  have h2 := hb.fin
  have h3 := P.base_le
  simp only [Block.fin, KERNBASE] at h2
  omega

/-- `malloc` of a size for which the product overflows does not return. -/
theorem not_honours_of_large (h : s.Fresh ∨ ∃ bs, s.Good P bs) (hsz : K.sz P s.heap < KERNBASE)
    (hlo : 2 ^ 28 ≤ units nbytes) (hhi : units nbytes ≤ 2 ^ 29) : ¬ Honours P K s nbytes := by
  obtain ⟨bs, hg⟩ := good_ready h
  have hpos : 0 < K.sz P (ready P s.heap) := by
    have h1 : P.start ≤ top P (ready P s.heap).areas := hg.1.areas.start_le
    have h2 := P.base_le
    simp only [Kernel.sz]
    omega
  rw [← (ready_sz ..).1] at hsz
  obtain ⟨e, he⟩ := morecore_large hpos hsz hlo hhi
  rintro ⟨p, heap, hmalloc, -⟩
  rw [malloc_eq] at hmalloc
  obtain ⟨⟨b, hb, hle⟩, -⟩ | ⟨-, n, -, hloop⟩ := hg.1.search_once Fault.loops
    (morecore P K (units nbytes)) (units_pos nbytes)
  · have := units_lt (hg.1.list.heap b hb)
    omega
  · rw [hloop, again, he] at hmalloc
    cases hmalloc

/-! ## Sums that overflow -/

/-- A size that wraps asks for the header only. -/
theorem units_of_wrap (hn : nbytes < 2 ^ 32) (hwrap : 2 ^ 32 ≤ nbytes + 7) : units nbytes = 1 := by
  unfold units
  omega

/-- A size for which the sum overflows is taken for 0, which is honoured only by a null pointer. -/
theorem honours_of_wrap_iff (h : s.Fresh ∨ ∃ bs, s.Good P bs) (hsz : K.sz P s.heap < KERNBASE)
    (hn : nbytes < 2 ^ 32) (hwrap : 2 ^ 32 ≤ nbytes + 7) :
    Honours P K s nbytes ↔ Exhausted P K s := by
  have hunits := units_of_wrap hn hwrap
  obtain ⟨hready, hcalls⟩ := ready_sz K P s.heap
  have hgrow := growproc_pos (K.room s.heap.calls) (n := 4096 * 8) hsz (by decide) (by decide)
  constructor
  · rintro ⟨p, heap, hmalloc, bs', hsound⟩
    rw [malloc_eq, hunits] at hmalloc
    -- Whatever block is taken has one header, and no room for anything.
    have hnone {bs : List Block} (hg : State.Good P ⟨ready P s.heap, s.live⟩ bs)
        (hmore : (∃ b ∈ bs, 1 ≤ b.units) ∨
          Grants P (morecore P K 1) 1 (ready P s.heap) bs (State.blocks ⟨ready P s.heap, s.live⟩)) :
        False := by
      obtain ⟨c, s', bs'', hloop, hc, htiled⟩ :=
        hg.1.search_takes Fault.loops Nat.one_pos hmore
      rw [hloop] at hmalloc
      cases hmalloc
      rw [if_neg (Nat.succ_ne_zero _)] at hsound
      have hroom := hsound.room _ List.mem_cons_self
      simp only [Nat.add_sub_cancel, (htiled.live c List.mem_cons_self).1, hc] at hroom
      omega
    have hfails {bs : List Block} (hg : State.Good P ⟨ready P s.heap, s.live⟩ bs) :
        growproc (K.room s.heap.calls) (K.sz P s.heap) (4096 * 8 : Nat) = none := by
      rw [hgrow, if_neg]
      intro hroom
      refine hnone hg (Or.inr (morecore_grants hg.1 (by rw [hready]; exact hsz) (by decide) ?_))
      rw [hready, hcalls]
      exact hroom
    obtain hs | ⟨bs, hg⟩ := h
    · exact ⟨Or.inl hs, hfails hs.good_ready⟩
    cases bs with
    | nil => exact ⟨Or.inr hg, hfails hg.good_ready⟩
    | cons b bs =>
      exact (hnone hg.good_ready
        (Or.inl ⟨b, List.mem_cons_self, (hg.1.list.heap b List.mem_cons_self).pos⟩)).elim
  · rintro ⟨hempty, hfails⟩
    have hg : State.Good P ⟨ready P s.heap, s.live⟩ [] :=
      hempty.elim (fun hs => hs.good_ready) fun hg => hg.good_ready
    have hcore : morecore P K 1 (ready P s.heap) =
        .ok (0, { ready P s.heap with calls := (ready P s.heap).calls + 1 }) := by
      refine morecore_fails (by rw [hready]; exact hsz) (by decide) ?_
      rw [hready, hcalls]
      rintro (hroom : K.sz P s.heap + 4096 * 8 < KERNBASE ∧ _)
      rw [hgrow, if_pos hroom] at hfails
      cases hfails
    obtain ⟨⟨b, hb, -⟩, -⟩ | ⟨-, n, -, hloop⟩ := hg.1.search_once Fault.loops
      (morecore P K 1) Nat.one_pos
    · cases hb
    refine ⟨0, { ready P s.heap with calls := (ready P s.heap).calls + 1 }, ?_, [], ?_⟩
    · rw [malloc_eq, hunits, hloop, again, hcore]
      rfl
    · have ht : Tiled P { ready P s.heap with calls := (ready P s.heap).calls + 1 } []
          (State.blocks ⟨ready P s.heap, s.live⟩) :=
        ⟨hg.1.list, hg.1.freep, hg.1.live, hg.1.areas, hg.1.tiles⟩
      rw [if_pos rfl]
      exact (good_of_tiled hg ht rfl fun _ => id).sound

/-- `malloc` honours a size if it fits, or if it is one of the last seven and there is nothing to
give out. -/
theorem malloc_honours_iff (h : s.Fresh ∨ ∃ bs, s.Good P bs) (hsz : K.sz P s.heap < KERNBASE)
    (hn : nbytes < 2 ^ 32) :
    Honours P K s nbytes ↔ Fits nbytes ∨ 2 ^ 32 ≤ nbytes + 7 ∧ Exhausted P K s := by
  rcases Nat.lt_or_ge (nbytes + 7) (2 ^ 32) with hsum | hwrap
  · by_cases hf : Fits nbytes
    · exact iff_of_true (honours_of_fits h hsz hf) (Or.inl hf)
    have hlarge : ¬ units nbytes * 8 < 2 ^ 31 := fun hlt => hf ⟨hsum, hlt⟩
    refine iff_of_false (not_honours_of_large h hsz (by omega) ?_) ?_
    · unfold units
      omega
    · rintro (hf' | ⟨hwrap, -⟩)
      · exact hf hf'
      · omega
  · rw [honours_of_wrap_iff h hsz hn hwrap]
    have hf : ¬ Fits nbytes := fun hf => absurd hf.1 (Nat.not_lt.2 hwrap)
    exact ⟨fun he => Or.inr ⟨hwrap, he⟩, fun he => (he.resolve_left hf).2⟩

end

/-- Nothing else changes the size of the process, and there is memory. -/
def Kernel.plenty : Kernel where
  gap _ := 0
  room _ := true

/-- `malloc_honours_iff` for the first call. -/
theorem malloc_honours_hundred : Honours .small .plenty .zero 100 :=
  (malloc_honours_iff (Or.inl ⟨rfl, rfl, rfl⟩) (by decide) (by decide)).2 (Or.inl (by decide))

/-- `malloc(-1)` returns a block without room for a byte. -/
theorem not_honours_last : ¬ Honours .small .plenty .zero (2 ^ 32 - 1) := by
  rw [honours_of_wrap_iff (Or.inl ⟨rfl, rfl, rfl⟩) (by decide) (by decide) (by decide)]
  rintro ⟨-, hfails⟩
  exact absurd hfails (by decide)

/-! ## `growproc` of the kernel -/

/-- The kernel's `growproc` does to `proc->sz` what is said here, for some answer of `allocuvm`. -/
theorem growproc_refines {m m' : Vm.Memory} {P P' : Vm.Proc} {ok : Bool}
    (h : m.growproc P n = .ok (ok, m', P')) :
    ∃ room, growproc room P.sz n = (if ok then some P'.sz else none) ∧
      (ok = false → P'.sz = P.sz) := by
  unfold Vm.Memory.growproc at h
  dsimp only at h
  unfold growproc
  dsimp only
  split_ifs at h with hpos hneg
  · obtain ⟨⟨sz, m1, d1⟩, ha, h⟩ := bind_eq_ok.1 h
    obtain ⟨room, hroom⟩ : ∃ room : Bool, sz =
        (if ((P.sz + n) % 2 ^ 32).toNat ≥ KERNBASE then 0
          else if ((P.sz + n) % 2 ^ 32).toNat < P.sz then P.sz
          else if room then ((P.sz + n) % 2 ^ 32).toNat else 0) := by
      unfold Vm.Memory.allocuvm at ha
      split_ifs at ha with hk hlt
      · cases ha
        exact ⟨true, (if_pos hk).symm⟩
      · cases ha
        exact ⟨true, by rw [if_neg hk, if_pos hlt]⟩
      · simp only [if_neg hk, if_neg hlt]
        obtain rfl | rfl := Vm.allocLoop_sz ha
        · exact ⟨true, rfl⟩
        · exact ⟨false, rfl⟩
    refine ⟨room, ?_⟩
    rw [if_pos hpos, ← hroom]
    cases sz with
    | zero => cases h; exact ⟨rfl, fun _ => rfl⟩
    | succ sz => cases h; exact ⟨rfl, nofun⟩
  · obtain ⟨⟨sz, m1, d1⟩, hd, h⟩ := bind_eq_ok.1 h
    have hsz : sz = if ((P.sz + n) % 2 ^ 32).toNat ≥ P.sz then P.sz
        else ((P.sz + n) % 2 ^ 32).toNat := by
      unfold Vm.Memory.deallocuvm at hd
      split_ifs at hd with hge
      · cases hd
        exact (if_pos hge).symm
      · obtain ⟨_, -, hd⟩ := bind_eq_ok.1 hd
        cases hd
        exact (if_neg hge).symm
    refine ⟨true, ?_⟩
    rw [if_neg hpos, if_pos hneg, ← hsz]
    cases sz with
    | zero => cases h; exact ⟨rfl, fun _ => rfl⟩
    | succ sz => cases h; exact ⟨rfl, nofun⟩
  · cases h
    exact ⟨true, by rw [if_neg hpos, if_neg hneg]; rfl, nofun⟩

end Msboss.Malloc.Sizes
