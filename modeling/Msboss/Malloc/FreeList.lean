import Msboss.Malloc.Calls
import Msboss.Lib.Extents

/-!
# The free list

The free blocks are linked in a circle that starts at `base`, in the order of their addresses
(`FreeList`). `free` finds the place of a block in it wherever it starts (`freeLoop_spec`) and joins
the block to its neighbours (`joinNext_spec`, `joinPrev_spec`); `malloc` finds a block that is large
enough or comes round (`search_scan`).
-/

namespace Msboss.Malloc

open List
open Bytes

/-! ## Headers -/

section
variable {m m' : Nat → UInt8} {p q v : Nat}

/-- The two words of a header. -/
theorem header_congr (h : ∀ x, p ≤ x → x < p + 8 → m' x = m x) :
    ptr m' p = ptr m p ∧ size m' p = size m p := by
  refine ⟨congrArg leNat (map_congr_left fun i hi => ?_),
    congrArg leNat (map_congr_left fun i hi => ?_)⟩
  · have hi := mem_range.1 hi
    exact h _ (Nat.le_add_right _ _) (by omega)
  · have hi := mem_range.1 hi
    exact h _ (by omega) (by omega)

theorem ptr_lt (m : Nat → UInt8) (p : Nat) : ptr m p < 2 ^ 32 := by
  have := leNat_lt (read m p 4)
  rwa [length_read] at this

theorem ptr_setPtr (hv : v < 2 ^ 32) : ptr (setPtr m p v) p = v := by
  have h : read (write m p (leBytes 4 v)) p _ = _ := read_write_self
  rw [length_leBytes] at h
  rw [ptr, setPtr, h, leNat_leBytes]
  exact Nat.mod_eq_of_lt hv

theorem size_setSize (hv : v < 2 ^ 32) : size (setSize m p v) p = v := by
  have h : read (write m (p + 4) (leBytes 4 v)) (p + 4) _ = _ := read_write_self
  rw [length_leBytes] at h
  rw [size, setSize, h, leNat_leBytes]
  exact Nat.mod_eq_of_lt hv

theorem size_setPtr : size (setPtr m p v) p = size m p := by
  rw [size, setPtr, read_write_of_disjoint (Or.inr (by rw [length_leBytes])), size]

theorem ptr_setSize : ptr (setSize m p v) p = ptr m p := by
  rw [ptr, setSize, read_write_of_disjoint (Or.inl le_rfl), ptr]

/-- A store to a header changes the header only. -/
theorem setPtr_of_not (h : ¬ (p ≤ x ∧ x < p + 8)) : setPtr m p v x = m x := by
  rw [setPtr, write, if_neg]
  rw [length_leBytes]
  omega

/-- So does a store of its size. -/
theorem setSize_of_not (h : ¬ (p ≤ x ∧ x < p + 8)) : setSize m p v x = m x := by
  rw [setSize, write, if_neg]
  rw [length_leBytes]
  omega

end

/-! ## Blocks -/

/-- A block: its header's address, and its size in headers. -/
structure Block where
  addr : Nat
  units : Nat
  deriving DecidableEq, Repr

/-- Where the block ends. -/
def Block.fin (b : Block) : Nat := b.addr + 8 * b.units

/-- Its bytes. -/
def Block.extent (b : Block) : Extent := ⟨b.addr, b.fin⟩

/-- A block of the heap. -/
structure Block.InHeap (P : Process) (b : Block) : Prop where
  pos : 0 < b.units
  start : P.start ≤ b.addr
  fin : b.fin ≤ KERNBASE

/-- `b` comes before `c`, and they do not touch. -/
structure Block.Before (b c : Block) : Prop where
  gap : b.fin < c.addr
  header : b.addr + 8 ≤ c.addr

/-- A header's memory is as before outside the header. -/
def Same (m m' : Nat → UInt8) (p : Nat) : Prop := ∀ x, ¬ (p ≤ x ∧ x < p + 8) → m' x = m x

/-- Consecutive nodes are linked. -/
abbrev Linked (m : Nat → UInt8) (l : List Nat) : Prop := l.IsChain fun p q => ptr m p = q

/-- Where a pointer to the list `l` points, which ends at `e`. -/
def first (e : Nat) : List Block → Nat
  | [] => e
  | b :: _ => b.addr

/-- `base` as a block: it is never large enough. -/
def Process.node (P : Process) : Block := ⟨P.base, 0⟩

/-- `bs` are the free blocks besides `base`: they are linked in a circle from `base`, in the order
of their addresses, and no two of them touch. -/
structure FreeList (P : Process) (m : Nat → UInt8) (bs : List Block) : Prop where
  linked : Linked m ((P.node :: bs).map Block.addr ++ [P.base])
  sizes : ∀ b ∈ P.node :: bs, size m b.addr = b.units
  sorted : (P.node :: bs).Pairwise Block.Before
  heap : ∀ b ∈ bs, b.InHeap P

section
variable {P : Process} {m m' : Nat → UInt8} {bs pre post : List Block} {b c p : Block}

theorem Block.addr_le_fin (b : Block) : b.addr ≤ b.fin := Nat.le_add_right _ _

theorem Block.InHeap.header_le (hb : b.InHeap P) : b.addr + 8 ≤ b.fin := by
  have := hb.pos
  rw [Block.fin]
  omega

theorem Block.Before.trans {a b c : Block} (hab : a.Before b) (hbc : b.Before c) : a.Before c :=
  ⟨hab.gap.trans_le (b.addr_le_fin.trans hbc.gap.le),
    hab.header.trans (b.addr_le_fin.trans hbc.gap.le)⟩

theorem Block.Before.addr_lt (h : b.Before c) : b.addr < c.addr := b.addr_le_fin.trans_lt h.gap

/-- A header away from the one that is written. -/
theorem Same.header (h : Same m m' q) (hr : r + 8 ≤ q ∨ q + 8 ≤ r) :
    ptr m' r = ptr m r ∧ size m' r = size m r :=
  header_congr fun x _ _ => h x (by omega)

/-- The first block points to the second. -/
theorem linked_cons : Linked m ((b :: l).map Block.addr ++ [e]) ↔
    ptr m b.addr = first e l ∧ Linked m (l.map Block.addr ++ [e]) := by
  cases l with
  | nil => exact isChain_cons_cons
  | cons y l => exact isChain_cons_cons

/-- Links that are not written. -/
theorem Linked.congr (h : Linked m (l ++ [e]))
    (hm : ∀ r ∈ l, ptr m' r = ptr m r) : Linked m' (l ++ [e]) := by
  induction l with
  | nil => exact isChain_singleton _
  | cons a l ih =>
    obtain ⟨ha, hl⟩ := isChain_cons.1 h
    obtain ⟨hma, hml⟩ := forall_mem_cons.1 hm
    exact isChain_cons.2 ⟨fun y hy => hma.trans (ha y hy), ih hl hml⟩

namespace FreeList

variable (h : FreeList P m bs)
include h

theorem base_le (hb : b ∈ P.node :: bs) : P.base ≤ b.addr := by
  obtain rfl | hb := mem_cons.1 hb
  · exact le_rfl
  · exact (Nat.le_add_right _ _).trans (P.base_le.trans (h.heap b hb).start)

theorem fin_le (hb : b ∈ P.node :: bs) : b.fin ≤ KERNBASE := by
  obtain rfl | hb := mem_cons.1 hb
  · exact ((Nat.le_add_right _ 8).trans P.base_le).trans P.start_le
  · exact (h.heap b hb).fin

/-- The links from a node to the end. -/
theorem linked_from (he : P.node :: bs = pre ++ p :: post) :
    Linked m ((p :: post).map Block.addr ++ [P.base]) := by
  have hl := h.linked
  rw [he, map_append, append_assoc] at hl
  exact hl.right_of_append

/-- What comes after a node. -/
theorem next (he : P.node :: bs = pre ++ p :: post) : ptr m p.addr = first P.base post :=
  (linked_cons.1 (h.linked_from he)).1

/-- The circle from one of its nodes on. -/
theorem circle (he : P.node :: bs = pre ++ p :: post) :
    Linked m ((p :: post ++ pre).map Block.addr ++ [p.addr]) := by
  have hl := h.linked
  rw [he] at hl
  cases pre with
  | nil =>
    cases he
    rwa [append_nil]
  | cons q pre =>
    obtain ⟨rfl, -⟩ := List.cons.inj he
    simp only [map_append, map_cons, append_assoc, cons_append] at hl ⊢
    rw [← cons_append] at hl ⊢
    obtain ⟨hpre, hpost⟩ := isChain_split.1 hl
    exact isChain_split.2 ⟨hpost, hpre⟩

end FreeList

/-! ## The place of a block -/

/-- `bp` belongs after `p`: the loop of `free` ends here. -/
def Place (m : Nat → UInt8) (bp p : Nat) : Prop :=
  p < bp ∧ bp < ptr m p ∨ ptr m p ≤ p ∧ (p < bp ∨ bp < ptr m p)

instance (m : Nat → UInt8) (bp p : Nat) : Decidable (Place m bp p) :=
  inferInstanceAs (Decidable (_ ∨ _))

/-- One turn of the loop of `free`. -/
theorem freeLoop_succ (m : Nat → UInt8) (bp n p : Nat) : freeLoop m bp (n + 1) p =
    if Place m bp p then .ok p else freeLoop m bp n (ptr m p) := by
  rw [freeLoop]
  by_cases h1 : p < bp ∧ bp < ptr m p
  · have hplace : Place m bp p := Or.inl h1
    rw [if_pos h1, if_pos hplace]
  by_cases h2 : ptr m p ≤ p ∧ (p < bp ∨ bp < ptr m p)
  · have hplace : Place m bp p := Or.inr h2
    rw [if_neg h1, if_pos h2, if_pos hplace]
  · have hplace : ¬ Place m bp p := not_or.2 ⟨h1, h2⟩
    rw [if_neg h1, if_neg h2, if_neg hplace]

/-- The loop of `free` finds a place on its way. -/
theorem freeLoop_spec (hl : Linked m ((q :: todo).map Block.addr ++ [e]))
    (hx : ∃ x ∈ q :: todo, Place m bp x.addr) (hn : todo.length < n) :
    ∃ x ∈ q :: todo, Place m bp x.addr ∧ freeLoop m bp n q.addr = .ok x.addr := by
  induction todo generalizing n q with
  | nil =>
    obtain ⟨n, rfl⟩ := Nat.exists_eq_add_of_lt hn
    obtain ⟨x, hx, hplace⟩ := hx
    obtain rfl := mem_singleton.1 hx
    exact ⟨x, hx, hplace, by rw [freeLoop_succ, if_pos hplace]⟩
  | cons y todo ih =>
    obtain ⟨n, rfl⟩ := Nat.exists_eq_add_one_of_ne_zero (Nat.ne_zero_of_lt hn)
    rw [freeLoop_succ]
    split_ifs with hq
    · exact ⟨q, mem_cons_self, hq, rfl⟩
    -- `q` is not the place, so it is further on
    obtain ⟨hnext, hl⟩ := isChain_cons.1 hl
    rw [hnext y.addr rfl]
    obtain ⟨x, hx, hplace⟩ := hx
    have hx : x ∈ y :: todo := (mem_cons.1 hx).resolve_left (by rintro rfl; exact hq hplace)
    have hlen : todo.length < n := by
      rw [length_cons] at hn
      omega
    obtain ⟨z, hz, hfound⟩ := ih hl ⟨x, hx, hplace⟩ hlen
    exact ⟨z, mem_cons_of_mem _ hz, hfound⟩

/-- A block that is to be freed: it is apart from the free ones. -/
structure Block.Fits (P : Process) (bs : List Block) (c : Block) : Prop extends c.InHeap P where
  apart : ∀ b ∈ bs, b.fin ≤ c.addr ∨ c.fin ≤ b.addr

/-- `c` belongs between `p` and the blocks `post`. -/
structure Placed (P : Process) (bs : List Block) (c : Block) (pre : List Block) (p : Block)
    (post : List Block) : Prop where
  eq : P.node :: bs = pre ++ p :: post
  before : p.fin ≤ c.addr ∧ p.addr + 8 ≤ c.addr
  after : ∀ b ∈ post, c.fin ≤ b.addr

theorem Block.Fits.addr_lt (hc : c.Fits P bs) : c.addr < c.fin :=
  lt_of_lt_of_le (Nat.lt_add_of_pos_right (by decide)) hc.header_le

/-- The last of the first elements that have a property. -/
theorem exists_last {α : Type} {q : α → Prop} [DecidablePred q] {x : α} (hx : q x) (l : List α) :
    ∃ pre y post, x :: l = pre ++ y :: post ∧ q y ∧ ∀ z ∈ post.head?, ¬ q z := by
  induction l generalizing x with
  | nil => exact ⟨[], x, [], rfl, hx, nofun⟩
  | cons z l ih =>
    by_cases hz : q z
    · obtain ⟨pre, y, post, he, hrest⟩ := ih hz
      exact ⟨x :: pre, y, post, congrArg (x :: ·) he, hrest⟩
    · exact ⟨[], x, z :: l, rfl, hx, fun w hw => Option.some.inj hw ▸ hz⟩

/-- There is a place for the block. -/
theorem FreeList.exists_place (h : FreeList P m bs) (hc : c.Fits P bs) :
    ∃ x ∈ P.node :: bs, Place m c.addr x.addr := by
  have hbase : P.node.addr < c.addr := by
    have := P.base_le
    have := hc.start
    have : P.node.addr = P.base := rfl
    omega
  obtain ⟨pre, p, post, he, hp, hpost⟩ := exists_last (q := fun b => b.addr < c.addr) hbase bs
  have hmem : ∀ b ∈ pre ++ p :: post, b ∈ P.node :: bs := fun b hb => he ▸ hb
  have hpm := hmem p (mem_append_right _ mem_cons_self)
  refine ⟨p, hpm, ?_⟩
  have hnext := h.next he
  cases post with
  | nil =>
    have hnext : ptr m p.addr = P.base := hnext
    exact Or.inr ⟨hnext ▸ h.base_le hpm, Or.inl hp⟩
  | cons y post =>
    have hnext : ptr m p.addr = y.addr := hnext
    have hy := hmem y (mem_append_right _ (mem_cons_of_mem _ mem_cons_self))
    have hle : c.addr ≤ y.addr := not_lt.1 (hpost y rfl)
    refine Or.inl ⟨hp, hnext ▸ lt_of_le_of_ne hle fun heq => ?_⟩
    -- the block is not free already
    obtain rfl | hy := mem_cons.1 hy
    · exact absurd hbase (not_lt.2 heq.le)
    have hylt := (h.heap y hy).pos
    have hclt := hc.addr_lt
    obtain hap | hap := hc.apart y hy
    · rw [Block.fin] at hap
      omega
    · omega

/-- The place of the block. -/
theorem FreeList.placed (h : FreeList P m bs) (hc : c.Fits P bs) (hp : p ∈ P.node :: bs)
    (hplace : Place m c.addr p.addr) : ∃ pre post, Placed P bs c pre p post := by
  obtain ⟨pre, post, he⟩ := append_of_mem hp
  have hnext := h.next he
  have hsorted := h.sorted
  rw [he] at hsorted
  obtain ⟨-, hpost, -⟩ := pairwise_append.1 hsorted
  obtain ⟨hafter, hpost⟩ := pairwise_cons.1 hpost
  have hbase : P.base < c.addr := by
    have := P.base_le
    have := hc.start
    omega
  have hmem : ∀ b ∈ post, b ∈ bs := by
    intro b hb
    have hb' : b ∈ P.node :: bs := by
      rw [he]
      exact mem_append_right _ (mem_cons_of_mem _ hb)
    refine (mem_cons.1 hb').resolve_left ?_
    rintro rfl
    exact absurd (h.base_le hp) (not_le.2 (hafter _ hb).addr_lt)
  have hlt : p.addr < c.addr ∧ ∀ b ∈ post, c.addr < b.addr := by
    cases post with
    | nil =>
      refine ⟨?_, nofun⟩
      have hnext : ptr m p.addr = P.base := hnext
      rw [Place, hnext] at hplace
      omega
    | cons y post =>
      have hnext : ptr m p.addr = y.addr := hnext
      have hy := (hafter y mem_cons_self).addr_lt
      rw [Place, hnext] at hplace
      obtain ⟨hlt, hlty⟩ : p.addr < c.addr ∧ c.addr < y.addr := by omega
      refine ⟨hlt, forall_mem_cons.2 ⟨hlty, fun b hb => ?_⟩⟩
      exact hlty.trans ((pairwise_cons.1 hpost).1 b hb).addr_lt
  refine ⟨pre, post, he, ?_, fun b hb => ?_⟩
  · obtain rfl | hp := mem_cons.1 hp
    · have := P.base_le
      have := hc.start
      have hroom : P.base + 8 ≤ c.addr := by omega
      exact ⟨hbase.le, hroom⟩
    · have hfin : p.fin ≤ c.addr := (hc.apart p hp).resolve_right fun hle =>
        absurd (hc.addr_lt.trans_le hle) (not_lt.2 hlt.1.le)
      have := (h.heap p hp).pos
      exact ⟨hfin, by rw [Block.fin] at hfin; omega⟩
  · refine (hc.apart b (hmem b hb)).resolve_left fun hle => ?_
    exact absurd (b.addr_le_fin.trans hle) (not_le.2 (hlt.2 b hb))

/-! ## Joining -/

/-- `b` with the first block of `l`, if it ends there. -/
inductive Grown (b : Block) : List Block → Block → List Block → Prop
  | apart {l : List Block} : (∀ y ∈ l.head?, b.fin ≠ y.addr) → Grown b l b l
  | joined {y : Block} {l : List Block} : b.fin = y.addr → Grown b (y :: l)
    ⟨b.addr, b.units + y.units⟩ l

/-- The two `if`s of `free` do the same. -/
def join (m : Nat → UInt8) (b next : Nat) : Nat → UInt8 :=
  if plus b (size m b) = next then
    let m := setSize m b (size m b + size m next)
    setPtr m b (ptr m next)
  else setPtr m b next

/-- `b` comes before the blocks `l`, which it may touch. -/
structure Meets (P : Process) (b : Block) (l : List Block) : Prop where
  after : ∀ y ∈ l, b.fin ≤ y.addr ∧ b.addr + 8 ≤ y.addr
  sorted : l.Pairwise Block.Before
  pos : ∀ y ∈ l, 0 < y.units
  fin : ∀ y ∈ b :: l, y.fin ≤ KERNBASE
  base : l = [] → P.base < b.fin

section
variable {l l' : List Block} {b' : Block}

/-- The end of two blocks that meet. -/
theorem fin_joined {y : Block} (h : b.fin = y.addr) :
    Block.fin ⟨b.addr, b.units + y.units⟩ = y.fin := by
  simp only [Block.fin] at h ⊢
  omega

theorem Grown.addr (h : Grown b l b' l') : b'.addr = b.addr := by
  cases h with
  | apart => rfl
  | joined => rfl

/-- The blocks after it are among those before. -/
theorem Grown.subset (h : Grown b l b' l') (hy : y ∈ l') : y ∈ l := by
  cases h with
  | apart => exact hy
  | joined => exact mem_cons_of_mem _ hy

/-- It ends where one of the blocks did. -/
theorem Grown.fin_mem (h : Grown b l b' l') : ∃ y ∈ b :: l, b'.fin = y.fin := by
  cases h with
  | apart => exact ⟨b, mem_cons_self, rfl⟩
  | @joined y l hy =>
    exact ⟨y, mem_cons_of_mem _ mem_cons_self, fin_joined hy⟩

theorem Grown.units_le (h : Grown b l b' l') : b.units ≤ b'.units := by
  cases h with
  | apart => exact le_rfl
  | joined => exact Nat.le_add_right _ _

/-- Joining blocks changes no address of the list. -/
theorem Grown.cover (h : Grown b l b' l') (x : Nat) :
    Extent.cover ((b' :: l').map Block.extent) x = Extent.cover ((b :: l).map Block.extent) x := by
  cases h with
  | apart => rfl
  | @joined y _ hy =>
    have hle : b.fin ≤ y.fin := hy ▸ y.addr_le_fin
    have hjoin := Extent.cover_join b.addr_le_fin hle (l'.map Block.extent) x
    rw [map_cons, map_cons, map_cons, Block.extent, fin_joined hy, Block.extent,
      Block.extent, ← hy]
    exact hjoin.symm

/-- Nor the order of the list. -/
theorem Grown.sorted (h : Grown b l b' l') (hl : Meets P b l) :
    (b' :: l').Pairwise Block.Before := by
  cases h with
  | apart hne =>
    refine pairwise_cons.2 ⟨fun y hy => ⟨?_, (hl.after y hy).2⟩, hl.sorted⟩
    cases l with
    | nil => cases hy
    | cons z l =>
      have hz := lt_of_le_of_ne (hl.after z mem_cons_self).1 (hne z rfl)
      obtain rfl | hy := mem_cons.1 hy
      · exact hz
      · exact hz.trans ((pairwise_cons.1 hl.sorted).1 y hy).addr_lt
  | @joined z l hz =>
    obtain ⟨hzl, hsorted⟩ := pairwise_cons.1 hl.sorted
    refine pairwise_cons.2 ⟨fun y hy => ⟨?_, ?_⟩, hsorted⟩
    · exact (fin_joined hz).symm ▸ (hzl y hy).gap
    · exact (hl.after y (mem_cons_of_mem _ hy)).2

/-- The address after a block, as `bp + bp->s.size`. -/
theorem plus_eq (hb : b.fin ≤ KERNBASE) : plus b.addr b.units = b.fin := by
  rw [plus, ← Block.fin]
  refine Nat.mod_eq_of_lt (hb.trans_lt ?_)
  decide

theorem Same.setPtr (h : Same m m' q) : Same m (setPtr m' q v) q := fun x hx =>
  (setPtr_of_not hx).trans (h x hx)

theorem same_setSize (m : Nat → UInt8) (q v : Nat) : Same m (setSize m q v) q := fun _ hx =>
  setSize_of_not hx

/-- A block that is linked to a list. -/
theorem relinked (hsame : Same m m' b.addr) (hptr : ptr m' b.addr = first P.base l')
    (hsize : size m' b.addr = b'.units) (haddr : b'.addr = b.addr)
    (hl : Linked m (l'.map Block.addr ++ [P.base])) (hsizes : ∀ y ∈ l', size m y.addr = y.units)
    (hafter : ∀ y ∈ l', b.addr + 8 ≤ y.addr) : Linked m' ((b' :: l').map Block.addr ++ [P.base]) ∧
      ∀ y ∈ b' :: l', size m' y.addr = y.units := by
  constructor
  · refine linked_cons.2 ⟨haddr ▸ hptr, hl.congr fun r hr => ?_⟩
    obtain ⟨y, hy, rfl⟩ := mem_map.1 hr
    exact (hsame.header (Or.inr (hafter y hy))).1
  · refine forall_mem_cons.2 ⟨haddr ▸ hsize, fun y hy => ?_⟩
    exact (hsame.header (Or.inr (hafter y hy))).2.trans (hsizes y hy)

theorem lt_of_le_kernbase (h : n ≤ KERNBASE) : n < 2 ^ 32 := h.trans_lt (by decide)

theorem first_lt (hl : ∀ y ∈ l, y.fin ≤ KERNBASE) : first P.base l < 2 ^ 32 := by
  cases l with
  | nil =>
    exact lt_of_le_kernbase (((Nat.le_add_right _ 8).trans P.base_le).trans P.start_le)
  | cons y l => exact lt_of_le_kernbase (y.addr_le_fin.trans (hl y mem_cons_self))

/-- What joining does to the list. -/
theorem join_spec (hl : Linked m (l.map Block.addr ++ [P.base]))
    (hsizes : ∀ y ∈ b :: l, size m y.addr = y.units) (hb : Meets P b l) :
    ∃ b' l', Grown b l b' l' ∧ Same m (join m b.addr (first P.base l)) b.addr ∧
      Linked (join m b.addr (first P.base l)) ((b' :: l').map Block.addr ++ [P.base]) ∧
      ∀ y ∈ b' :: l', size (join m b.addr (first P.base l)) y.addr = y.units := by
  obtain ⟨hbfin, hlfin⟩ := forall_mem_cons.1 hb.fin
  obtain ⟨hbsize, hlsizes⟩ := forall_mem_cons.1 hsizes
  have hplus : plus b.addr (size m b.addr) = b.fin := hbsize ▸ plus_eq hbfin
  have hrefl : Same m m b.addr := fun _ _ => rfl
  by_cases hmeet : b.fin = first P.base l
  · -- the blocks meet, so the list is not empty
    cases l with
    | nil => exact absurd (hb.base rfl) (not_lt.2 hmeet.le)
    | cons y l =>
      have hjoin : join m b.addr (first P.base (y :: l)) =
          setPtr (setSize m b.addr (b.units + y.units)) b.addr (first P.base l) := by
        have hsame := same_setSize m b.addr (b.units + y.units)
        have hy := (hsame.header (Or.inr (hb.after y mem_cons_self).2)).1
        rw [join, if_pos (hplus.trans hmeet), hbsize]
        simp only [first, hsizes y (mem_cons_of_mem _ mem_cons_self), hy,
          (linked_cons.1 hl).1]
      have hlt : b.units + y.units < 2 ^ 32 := by
        have := lt_of_le_kernbase (hlfin y mem_cons_self)
        rw [← fin_joined hmeet] at this
        simp only [Block.fin] at this
        omega
      rw [hjoin]
      refine ⟨_, l, .joined hmeet, (same_setSize _ _ _).setPtr, ?_⟩
      refine relinked (same_setSize _ _ _).setPtr ?_ ?_ rfl (linked_cons.1 hl).2 ?_ ?_
      · exact ptr_setPtr (first_lt fun z hz => hlfin z (mem_cons_of_mem _ hz))
      · rw [size_setPtr, size_setSize hlt]
      · exact fun z hz => hlsizes z (mem_cons_of_mem _ hz)
      · exact fun z hz => (hb.after z (mem_cons_of_mem _ hz)).2
  · have hjoin : join m b.addr (first P.base l) = setPtr m b.addr (first P.base l) := by
      rw [join, if_neg (hplus ▸ hmeet)]
    rw [hjoin]
    refine ⟨b, l, .apart ?_, hrefl.setPtr, ?_⟩
    · cases l with
      | nil => exact nofun
      | cons y l => exact fun z hz => Option.some.inj hz ▸ hmeet
    · refine relinked hrefl.setPtr (ptr_setPtr (first_lt hlfin)) ?_ rfl hl hlsizes ?_
      · rw [size_setPtr, hbsize]
      · exact fun z hz => (hb.after z hz).2

end

/-! ## `free` -/

/-- Only bytes of `base` and of the blocks change. -/
def Kept (P : Process) (bs : List Block) (m m' : Nat → UInt8) : Prop :=
  ∀ x, ¬ (P.base ≤ x ∧ x < P.base + 8) → Extent.cover (bs.map Block.extent) x = 0 → m' x = m x

/-- A byte that no block has is in no header. -/
theorem not_header (hx : Extent.cover (bs.map Block.extent) x = 0) (hb : b ∈ bs)
    (hin : b.InHeap P) : ¬ (b.addr ≤ x ∧ x < b.addr + 8) := by
  rintro ⟨hle, hlt⟩
  have hhas : b.extent.Has x := ⟨hle, hlt.trans_le hin.header_le⟩
  have hpos := Extent.cover_pos.2 ⟨b.extent, mem_map_of_mem hb, hhas⟩
  omega

/-- Joining with the block before is joining. -/
theorem joinPrev_eq (m : Nat → UInt8) (bp p : Nat) : joinPrev m bp p = join m p bp := rfl

/-- And so is joining with the block after. -/
theorem joinNext_eq {bp p : Nat} (h : p + 8 ≤ bp) : joinNext m bp p = join m bp (ptr m p) := by
  have hp := ((same_setSize m bp (size m bp + size m (ptr m p))).header (r := p) (Or.inl h)).1
  rw [joinNext, join]
  simp only [hp]

/-- Nodes after another are blocks of the heap. -/
theorem mem_of_mem_post (he : P.node :: bs = pre ++ p :: post) (hb : b ∈ post) : b ∈ bs := by
  cases pre with
  | nil =>
    cases he
    exact hb
  | cons q pre =>
    obtain ⟨-, rfl⟩ := List.cons.inj he
    exact mem_append_right _ (mem_cons_of_mem _ hb)

/-- `c` and the blocks after it. -/
theorem Placed.meets (h : FreeList P m bs) (hc : c.Fits P bs) (hp : Placed P bs c pre p post) :
    Meets P c post := by
  have hsorted := h.sorted
  rw [hp.eq] at hsorted
  obtain ⟨-, hpost, -⟩ := pairwise_append.1 hsorted
  refine ⟨fun y hy => ⟨hp.after y hy, ?_⟩, (pairwise_cons.1 hpost).2, ?_, ?_, fun _ => ?_⟩
  · exact hc.header_le.trans (hp.after y hy)
  · exact fun y hy => (h.heap y (mem_of_mem_post hp.eq hy)).pos
  · exact forall_mem_cons.2 ⟨hc.fin, fun y hy => (h.heap y (mem_of_mem_post hp.eq hy)).fin⟩
  · have := P.base_le
    have := hc.start
    have := hc.addr_lt
    omega

/-- The block before `c`, `c` as it is joined, and the blocks after it. -/
theorem Placed.meets_prev (h : FreeList P m bs) (hc : c.Fits P bs)
    (hp : Placed P bs c pre p post) (hg : Grown c post c' post') : Meets P p (c' :: post') := by
  have hsorted := h.sorted
  rw [hp.eq] at hsorted
  obtain ⟨-, hpost, -⟩ := pairwise_append.1 hsorted
  have hmeets := hp.meets h hc
  have hpmem : p ∈ P.node :: bs := by
    rw [hp.eq]
    exact mem_append_right _ mem_cons_self
  refine ⟨forall_mem_cons.2 ⟨hg.addr ▸ hp.before, fun y hy => ?_⟩, hg.sorted hmeets,
    forall_mem_cons.2 ⟨hc.pos.trans_le hg.units_le, fun y hy => hmeets.pos y (hg.subset hy)⟩,
    forall_mem_cons.2 ⟨h.fin_le hpmem, forall_mem_cons.2 ⟨?_, fun y hy => ?_⟩⟩, nofun⟩
  · have hbefore := (pairwise_cons.1 hpost).1 y (hg.subset hy)
    exact ⟨hbefore.gap.le, hbefore.header⟩
  · obtain ⟨y, hy, hfin⟩ := hg.fin_mem
    exact hfin ▸ hmeets.fin y hy
  · exact hmeets.fin y (mem_cons_of_mem _ (hg.subset hy))

/-- The list in memory after `free`. -/
theorem free_linked (h : FreeList P m bs) (hc : c.Fits P bs) (hsize : size m c.addr = c.units)
    (hp : Placed P bs c pre p post) :
    ∃ c' post' p' rest, Grown c post c' post' ∧ Grown p (c' :: post') p' rest ∧
      Linked (joinPrev (joinNext m c.addr p.addr) c.addr p.addr)
        ((pre ++ p' :: rest).map Block.addr ++ [P.base]) ∧ (∀ b ∈ pre ++ p' :: rest,
        size (joinPrev (joinNext m c.addr p.addr) c.addr p.addr) b.addr = b.units) ∧
      Kept P (c :: bs) m (joinPrev (joinNext m c.addr p.addr) c.addr p.addr) := by
  have hmem : ∀ b ∈ pre ++ p :: post, b ∈ P.node :: bs := fun b hb => hp.eq ▸ hb
  have hpre : ∀ b ∈ pre, b.Before p := by
    have hsorted := h.sorted
    rw [hp.eq] at hsorted
    exact fun b hb => (pairwise_append.1 hsorted).2.2 b hb p mem_cons_self
  have hpmem := hmem p (mem_append_right _ mem_cons_self)
  have hlinked := linked_cons.1 (h.linked_from hp.eq)
  have hsizes : ∀ y ∈ c :: post, size m y.addr = y.units := forall_mem_cons.2 ⟨hsize, fun y hy =>
    h.sizes y (hmem y (mem_append_right _ (mem_cons_of_mem _ hy)))⟩
  -- the block and the one after it
  obtain ⟨c', post', hg, hsame, hl, hs⟩ := join_spec hlinked.2 hsizes (hp.meets h hc)
  rw [joinNext_eq hp.before.2, hlinked.1]
  generalize join m c.addr (first P.base post) = m1 at hsame hl hs ⊢
  -- the block before it and the block
  have hpsize : size m1 p.addr = p.units :=
    (hsame.header (Or.inl hp.before.2)).2.trans (h.sizes p hpmem)
  obtain ⟨p', rest, hg', hsame', hl', hs'⟩ :=
    join_spec hl (forall_mem_cons.2 ⟨hpsize, hs⟩) (hp.meets_prev h hc hg)
  rw [joinPrev_eq]
  have hfirst : first P.base (c' :: post') = c.addr := hg.addr
  rw [hfirst] at hsame' hl' hs'
  generalize join m1 p.addr c.addr = m2 at hsame' hl' hs' ⊢
  have hheader : ∀ b ∈ pre, ptr m2 b.addr = ptr m b.addr ∧ size m2 b.addr = size m b.addr := by
    intro b hb
    have hle := (hpre b hb).header
    have h₁ := hsame.header (r := b.addr) (Or.inl (by have := hp.before.2; omega))
    have h₂ := hsame'.header (r := b.addr) (Or.inl hle)
    exact ⟨h₂.1.trans h₁.1, h₂.2.trans h₁.2⟩
  refine ⟨c', post', p', rest, hg, hg', ?_, forall_mem_append.2 ⟨fun b hb => ?_, hs'⟩,
    fun x hbase hx => ?_⟩
  · have hold := h.linked
    rw [hp.eq, map_append, append_assoc, map_cons, cons_append] at hold
    rw [map_append, append_assoc, map_cons, cons_append, hg'.addr]
    rw [map_cons, cons_append, hg'.addr] at hl'
    refine isChain_split.2 ⟨Linked.congr (isChain_split.1 hold).1 fun r hr => ?_, hl'⟩
    obtain ⟨b, hb, rfl⟩ := mem_map.1 hr
    exact (hheader b hb).1
  · exact (hheader b hb).2.trans (h.sizes b (hmem b (mem_append_left _ hb)))
  · have hnc := not_header hx mem_cons_self hc.toInHeap
    have hnp : ¬ (p.addr ≤ x ∧ x < p.addr + 8) := by
      obtain hpn | hpb := mem_cons.1 hpmem
      · exact hpn ▸ hbase
      · exact not_header hx (mem_cons_of_mem _ hpb) (h.heap p hpb)
    rw [hsame' x hnp, hsame x hnc]

/-- `base` has no bytes of the heap. -/
theorem cover_node (P : Process) (bs : List Block) (x : Nat) :
    Extent.cover ((P.node :: bs).map Block.extent) x = Extent.cover (bs.map Block.extent) x := by
  rw [map_cons, Extent.cover_cons, if_neg]
  · rfl
  · intro hx
    have hlt : x < P.base := hx.2
    exact absurd hx.1 (not_le.2 hlt)

/-- The list starts with `base` still. -/
theorem Placed.head (hc : c.Fits P bs) (hp : Placed P bs c pre p post) (hg : Grown c post c' post')
    (hg' : Grown p (c' :: post') p' rest) : ∃ bs', P.node :: bs' = pre ++ p' :: rest := by
  cases pre with
  | cons q pre =>
    obtain ⟨rfl, -⟩ := List.cons.inj hp.eq
    exact ⟨_, rfl⟩
  | nil =>
    obtain ⟨rfl, -⟩ := List.cons.inj hp.eq
    cases hg' with
    | apart => exact ⟨_, rfl⟩
    | joined hmeet =>
      have hmeet : P.base = c'.addr := hmeet
      have := P.base_le
      have := hc.start
      rw [hg.addr] at hmeet
      omega

/-- What is joined is still in the heap. -/
theorem Grown.inHeap (h : Grown b l b' l') (hb : b.InHeap P)
    (hl : ∀ y ∈ l, y.InHeap P) : ∀ y ∈ b' :: l', y.InHeap P := by
  refine forall_mem_cons.2 ⟨⟨hb.pos.trans_le h.units_le, h.addr ▸ hb.start, ?_⟩,
    fun y hy => hl y (h.subset hy)⟩
  obtain ⟨y, hy, hfin⟩ := h.fin_mem
  obtain rfl | hy := mem_cons.1 hy
  · exact hfin ▸ hb.fin
  · exact hfin ▸ (hl y hy).fin

theorem Grown.length_le (h : Grown b l b' l') : l'.length ≤ l.length := by
  cases h with
  | apart => exact le_rfl
  | joined => exact Nat.le_succ _

/-- `free` puts the block into the list. -/
theorem free_list (h : FreeList P m bs) (hc : c.Fits P bs) (hsize : size m c.addr = c.units)
    (hp : Placed P bs c pre p post) :
    ∃ bs', FreeList P (joinPrev (joinNext m c.addr p.addr) c.addr p.addr) bs' ∧
      p.addr ∈ (P.node :: bs').map Block.addr ∧
      (∀ x, Extent.cover (bs'.map Block.extent) x = Extent.cover ((c :: bs).map Block.extent) x) ∧
      (∃ b ∈ bs', c.units ≤ b.units) ∧ bs'.length ≤ bs.length + 1 ∧
      Kept P (c :: bs) m (joinPrev (joinNext m c.addr p.addr) c.addr p.addr) := by
  obtain ⟨c', post', p', rest, hg, hg', hlinked, hsizes, hkept⟩ := free_linked h hc hsize hp
  obtain ⟨bs', he'⟩ := hp.head hc hg hg'
  have hmeets := hp.meets_prev h hc hg
  have hsorted : (P.node :: bs').Pairwise Block.Before := by
    have hold := h.sorted
    rw [hp.eq] at hold
    obtain ⟨hpre, -, hcross⟩ := pairwise_append.1 hold
    have hnew := hg'.sorted hmeets
    rw [he']
    refine pairwise_append.2 ⟨hpre, hnew, fun a ha => ?_⟩
    have hap : a.Before p' := by
      obtain ⟨hgap, hheader⟩ := hcross a ha p mem_cons_self
      exact ⟨hg'.addr.symm ▸ hgap, hg'.addr.symm ▸ hheader⟩
    exact forall_mem_cons.2 ⟨hap, fun b hb => hap.trans ((pairwise_cons.1 hnew).1 b hb)⟩
  have hne : ∀ b ∈ bs', b ≠ P.node := by
    rintro b hb rfl
    exact lt_irrefl _ ((pairwise_cons.1 hsorted).1 _ hb).addr_lt
  have hmem : ∀ b ∈ pre ++ p' :: rest, b ≠ P.node → b ∈ bs' := by
    intro b hb hbn
    rw [← he'] at hb
    exact (mem_cons.1 hb).resolve_left hbn
  have hlate : ∀ y ∈ c' :: post', y.InHeap P :=
    hg.inHeap hc.toInHeap fun y hy => h.heap y (mem_of_mem_post hp.eq hy)
  have hheap : ∀ b ∈ pre ++ p' :: rest, b ≠ P.node → b.InHeap P := by
    have hold : ∀ b ∈ pre ++ p :: post, b ≠ P.node → b.InHeap P := fun b hb hbn =>
      h.heap b ((mem_cons.1 (hp.eq ▸ hb)).resolve_left hbn)
    refine forall_mem_append.2 ⟨fun b hb => hold b (mem_append_left _ hb), ?_⟩
    by_cases hpn : p = P.node
    · cases hg' with
      | apart => exact forall_mem_cons.2 ⟨fun hbn => absurd hpn hbn, fun b hb _ => hlate b hb⟩
      | joined hmeet =>
        rw [hpn] at hmeet
        have hmeet : P.base = c'.addr := hmeet
        have := P.base_le
        have := hc.start
        rw [hg.addr] at hmeet
        omega
    · have hpin := hold p (mem_append_right _ mem_cons_self) hpn
      exact fun b hb _ => hg'.inHeap hpin hlate b hb
  refine ⟨bs', ⟨he' ▸ hlinked, he' ▸ hsizes, hsorted, fun b hb => ?_⟩, ?_, fun x => ?_,
    ?_, ?_, hkept⟩
  · exact hheap b (he' ▸ mem_cons_of_mem _ hb) (hne b hb)
  · rw [he', map_append, map_cons, hg'.addr]
    exact mem_append_right _ mem_cons_self
  · have hcov' := hg'.cover x
    have hcov := hg.cover x
    rw [← cover_node P bs', he', map_append, Extent.cover_append, hcov', map_cons,
      Extent.cover_cons, hcov]
    rw [map_cons, Extent.cover_cons, map_cons, Extent.cover_cons, ← cover_node P bs, hp.eq,
      map_append, Extent.cover_append, map_cons, Extent.cover_cons]
    omega
  · have hpos := hc.pos
    have hle := hg.units_le
    cases hg' with
    | apart =>
      refine ⟨c', hmem c' (by simp) ?_, hle⟩
      rintro rfl
      exact absurd hle (not_le.2 hpos)
    | joined =>
      refine ⟨_, hmem _ (mem_append_right _ mem_cons_self) ?_, hle.trans (Nat.le_add_left _ _)⟩
      intro heq
      have hz : p.units + c'.units = 0 := congrArg Block.units heq
      omega
  · have h1 := congrArg List.length he'
    have h2 := congrArg List.length hp.eq
    have h3 := hg.length_le
    have h4 := hg'.length_le
    simp only [length_append, length_cons] at h1 h2 h4
    omega

/-- `free(p)` for a block that is not free. -/
theorem free_spec (h : FreeList P s.mem bs) (hfreep : s.freep ∈ (P.node :: bs).map Block.addr)
    (hc : c.Fits P bs) (hsize : size s.mem c.addr = c.units) (hlen : bs.length < LOOPS) :
    ∃ m' p' bs', free (c.addr + 8) s = .ok { s with mem := m', freep := p' } ∧
      FreeList P m' bs' ∧ p' ∈ (P.node :: bs').map Block.addr ∧
      (∀ x, Extent.cover (bs'.map Block.extent) x = Extent.cover ((c :: bs).map Block.extent) x) ∧
      (∃ b ∈ bs', c.units ≤ b.units) ∧ bs'.length ≤ bs.length + 1 ∧ Kept P (c :: bs) s.mem m' := by
  obtain ⟨f, hf, hfp⟩ := mem_map.1 hfreep
  obtain ⟨pre, post, he⟩ := append_of_mem hf
  have hback : (c.addr + 8 + (2 ^ 32 - 8)) % 2 ^ 32 = c.addr := by
    have := lt_of_le_kernbase (c.addr_le_fin.trans hc.fin)
    omega
  -- the loop starts at `freep` and goes round
  have hperm : ∀ x, x ∈ f :: (post ++ pre) ↔ x ∈ P.node :: bs := by
    intro x
    rw [he, mem_append, ← cons_append, mem_append, or_comm]
  obtain ⟨x, hx, hplace⟩ := h.exists_place hc
  have hround : (post ++ pre).length = bs.length := by
    have := congrArg List.length he
    simp only [length_append, length_cons] at this ⊢
    omega
  obtain ⟨p, hpmem, hplace, hloop⟩ := freeLoop_spec (h.circle he) ⟨x, (hperm x).2 hx, hplace⟩
    (hround.trans_lt hlen)
  obtain ⟨pre, post, hp⟩ := h.placed hc ((hperm p).1 hpmem) hplace
  obtain ⟨bs', hlist⟩ := free_list h hc hsize hp
  refine ⟨_, p.addr, bs', ?_, hlist⟩
  rw [free, hback, ← hfp, hloop]
  rfl

end

end Msboss.Malloc
