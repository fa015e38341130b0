import Msboss.Bio.Cache
import Msboss.Lib.Circular

/-!
# The order of the buffers

The list of `bio.c` as it is kept, in `prev` and `next` pointers: `binit` links the buffers, `bget`
follows `next` to find a block and `prev` to find a buffer that it can recycle, and `brelse` moves a
buffer behind the head. `Bio.State.order` is the list that the pointers spell (`Shows`), and the
functions here are those of `Msboss.Bio.Cache` on it.

The state keeps the history of the releases. `Arranged` says that the list is in the order of the
last release, and that a miss takes the buffer whose last release is the longest ago.
-/

namespace Msboss.Bio.Lru

open List

variable {α : Type}

/-! ## The code -/

/-- `bcache`: the buffers, and the pointers of the buffers and of `bcache.head`. -/
structure Bcache (α : Type) where
  buf : BufId → Buf α
  list : Circular BufId

/-- The list that `binit` makes, whatever the pointers were. -/
def binit (C : Circular BufId) : Circular BufId :=
  (List.finRange NBUF).foldl Circular.insert ((C.setPrev none none).setNext none none)

/-- What a pass of `bget` comes to. -/
inductive Found
  | hit (b : BufId)
  /-- The buffer of the block is busy, and `bget` sleeps. -/
  | asleep (b : BufId)
  /-- The buffer was recycled. -/
  | miss (b : BufId)
  /-- `panic("bget: no buffers")`. -/
  | noBuffers
  /-- A loop has not come to its end. -/
  | running
  deriving DecidableEq, Repr

/-- The buffer may be recycled. -/
def Idle (B : Buf α) : Prop := B.busy = false ∧ B.dirty = false

namespace Bcache

def setBuf (c : Bcache α) (b : BufId) (B : Buf α) : Bcache α :=
  { c with buf := Function.update c.buf b B }

/-- The loop of `bget` that looks for the block. -/
def lookup (c : Bcache α) (dev blockno : UInt32) : Option (Option BufId) :=
  Circular.search c.list.next (fun b => decide ((c.buf b).Caches dev blockno)) (NBUF + 1)
    (c.list.next none)

/-- The loop of `bget` that looks for a buffer to recycle. -/
def victim (c : Bcache α) : Option (Option BufId) :=
  Circular.search c.list.prev (fun b => !(c.buf b).busy && !(c.buf b).dirty) (NBUF + 1)
    (c.list.prev none)

/-- A pass of `bget(dev, blockno)`. -/
def bget (c : Bcache α) (dev blockno : UInt32) : Found × Bcache α :=
  match c.lookup dev blockno with
  | none => (.running, c)
  | some (some b) =>
    if (c.buf b).busy then (.asleep b, c) else (.hit b, c.setBuf b { c.buf b with busy := true })
  | some none =>
    match c.victim with
    | none => (.running, c)
    | some (some b) =>
      (.miss b,
        c.setBuf b { c.buf b with dev, blockno, busy := true, valid := false, dirty := false })
    | some none => (.noBuffers, c)

/-- `brelse(b)`; `none` is `panic("brelse")`. -/
def brelse (c : Bcache α) (b : BufId) : Option (Bcache α) :=
  if (c.buf b).busy then
    some ({ c with list := (c.list.remove b).insert b }.setBuf b { c.buf b with busy := false })
  else none

end Bcache

/-! ## Sequences of calls -/

/-- The buffers, and the releases so far, the last one first. -/
structure State (α : Type) where
  cache : Bcache α
  releases : List BufId

inductive Op
  | bget (dev blockno : UInt32)
  | brelse (b : BufId)
  /-- `iderw`, `bwrite` or `log_write` change the flags of a buffer. -/
  | flags (b : BufId) (valid dirty : Bool)

/-- A call that does not panic. -/
def next (s : State α) : Op → Option (State α)
  | .bget dev blockno =>
    match s.cache.bget dev blockno with
    | (.noBuffers, _) | (.running, _) => none
    | (_, c) => some { s with cache := c }
  | .brelse b => (s.cache.brelse b).map fun c => ⟨c, b :: s.releases⟩
  | .flags b valid dirty =>
    some { s with cache := s.cache.setBuf b { s.cache.buf b with valid, dirty } }

/-- After `binit`, from any disk and any pointers. -/
def start (C : Circular BufId) (disk : UInt32 → UInt32 → α) (v : α) : State α :=
  ⟨⟨(initial disk v).buf, binit C⟩, []⟩

def system (α : Type) : System (State α) Op :=
    .ofNext (fun s => ∃ C disk v, s = start C disk v) next

/-! ## The property -/

/-- `b` was not released before `c`: there are no more releases after its last one, and a buffer
that was never released comes after all that were. -/
def State.Recent (s : State α) (b c : BufId) : Prop := s.releases.idxOf b ≤ s.releases.idxOf c

/-- The pointers make one circle of all buffers in the order of their last release, and a miss takes
the one whose last release is the longest ago. -/
structure Arranged (s : State α) : Prop where
  ordered : ∃ l, s.cache.list.Spells l ∧ (∀ b, l.count b = 1) ∧ l.Pairwise s.Recent
  hit : ∀ {dev blockno b}, (s.cache.buf b).Caches dev blockno →
    ∃ c, (s.cache.buf c).Caches dev blockno ∧
      ((s.cache.bget dev blockno).1 = .hit c ∨ (s.cache.bget dev blockno).1 = .asleep c)
  miss : ∀ {dev blockno}, (∀ b, ¬ (s.cache.buf b).Caches dev blockno) →
    (∃ b, (s.cache.bget dev blockno).1 = .miss b ∧ Idle (s.cache.buf b) ∧
      ∀ c, Idle (s.cache.buf c) → s.Recent c b) ∨
    (s.cache.bget dev blockno).1 = .noBuffers ∧ ∀ b, ¬ Idle (s.cache.buf b)

/-! ## The list that the pointers spell -/

section
variable {c : Bcache α} {l : List BufId} {b : BufId} {dev blockno : UInt32}

theorem Spells.length_lt {C : Circular BufId} (h : C.Spells l) : l.length < NBUF + 1 := by
  have := h.nodup.length_le_card
  rw [Fintype.card_fin] at this
  exact Nat.lt_succ_of_le this

theorem lookup_eq (h : c.list.Spells l) (dev blockno : UInt32) :
    c.lookup dev blockno = some (l.find? fun b => decide ((c.buf b).Caches dev blockno)) :=
  h.search_next _ (Spells.length_lt h)

theorem victim_eq (h : c.list.Spells l) :
    c.victim = some (l.reverse.find? fun b => !(c.buf b).busy && !(c.buf b).dirty) :=
  h.search_prev _ (Spells.length_lt h)

theorem bget_list (c : Bcache α) (dev blockno : UInt32) : (c.bget dev blockno).2.list = c.list := by
  unfold Bcache.bget
  repeat' split
  all_goals rfl

/-- The pointers after `binit`. -/
theorem spells_binit (C : Circular BufId) : (binit C).Spells (List.finRange NBUF).reverse := by
  have hfold : ∀ (bs l : List BufId) (C : Circular BufId), C.Spells l → (bs.reverse ++ l).Nodup →
      (bs.foldl Circular.insert C).Spells (bs.reverse ++ l) := by
    intro bs
    induction bs with
    | nil => exact fun _ _ h _ => h
    | cons b bs ih =>
      intro l C h hnodup
      rw [reverse_cons, append_assoc] at hnodup ⊢
      refine ih (b :: l) _ (h.insert fun hb => ?_) hnodup
      exact (nodup_cons.1 (nodup_append.1 hnodup).2.1).1 hb
  have hempty : ((C.setPrev none none).setNext none none).Spells [] :=
    ⟨by simp [Circular.Path, Circular.setNext, Circular.setPrev], nodup_nil⟩
  have hall := hfold (List.finRange NBUF) [] _ hempty (by simp [nodup_finRange])
  rwa [append_nil] at hall

/-! ## The list of `Bio.State` -/

/-- The buffers are those of `s`, and the pointers spell its list. -/
structure Shows (c : Bcache α) (s : Bio.State α) : Prop where
  buf : c.buf = s.buf
  list : c.list.Spells s.order

theorem shows_start (C : Circular BufId) (disk : UInt32 → UInt32 → α) (v : α) :
    Shows (start C disk v).cache (initial disk v) :=
  ⟨rfl, spells_binit C⟩

theorem Shows.setBuf (h : Shows c s) (b : BufId) (B : Buf α) (p : Nat) (x : Pc) :
    Shows (c.setBuf b B) ((s.setBuf b B).goto p x) where
  buf := by
    change Function.update c.buf b B = Function.update s.buf b B
    rw [h.buf]
  list := h.list

/-- `bget` along the pointers is `bget` on the list. -/
theorem Shows.bget (h : Shows c s) (p : Nat) (dev blockno : UInt32) :
    Shows (c.bget dev blockno).2 (s.bget p dev blockno) := by
  unfold Bcache.bget Bio.State.bget
  rw [lookup_eq h.list _ _, victim_eq h.list, h.buf]
  cases s.order.find? fun b => decide ((s.buf b).Caches dev blockno) with
  | some b =>
    dsimp only
    split
    · exact ⟨h.buf, h.list⟩
    · exact h.setBuf ..
  | none =>
    cases s.order.reverse.find? fun b => !(s.buf b).busy && !(s.buf b).dirty with
    | some b => exact h.setBuf ..
    | none => exact ⟨h.buf, h.list⟩

theorem Shows.brelse (h : Shows c s) (hb : b ∈ s.order) (p : Nat)
    (hbusy : (s.buf b).busy = true) : ∃ c', c.brelse b = some c' ∧ Shows c' (s.brelse p b) := by
  have hspells := (h.list.remove hb).insert (h.list.nodup.not_mem_erase)
  unfold Bcache.brelse Bio.State.brelse
  rw [h.buf, if_pos hbusy, if_pos hbusy]
  exact ⟨_, rfl, rfl, hspells⟩

/-- **The pointers and the list do the same**: each call leaves pointers that spell the list that
it leaves. -/
theorem calls_refine {s : Bio.State α} (h : Shows c s) (p : Nat) :
    (∀ dev blockno, Shows (c.bget dev blockno).2 (s.bget p dev blockno)) ∧
      ∀ b ∈ s.order, (s.buf b).busy = true → ∃ c', c.brelse b = some c' ∧ Shows c' (s.brelse p b) :=
  ⟨h.bget p, fun _ hb hbusy => h.brelse hb p hbusy⟩

/-- `calls_refine` after `binit`: a buffer is taken, and released. -/
theorem calls_refine_start : ∃ c c' : Bcache Nat,
    Shows c ((initial (fun _ _ => 0) 0).bget 0 1 7) ∧ c.brelse 0 = some c' ∧
      Shows c' (((initial (fun _ _ => 0) 0).bget 0 1 7).brelse 0 0) := by
  have h := (calls_refine (shows_start ⟨fun _ => none, fun _ => none⟩ (fun _ _ => 0) 0) 0).1 1 7
  obtain ⟨c', hc', h'⟩ := (calls_refine h 0).2 0 (by decide) (by decide)
  exact ⟨_, c', h, hc', h'⟩

/-! ## Recency -/

variable {s s' : State α}

/-- The list, in the order of the last release. -/
structure Sorted (s : State α) (l : List BufId) : Prop where
  list : s.cache.list.Spells l
  all : ∀ b, b ∈ l
  sorted : l.Pairwise s.Recent

theorem sorted_start (C : Circular BufId) (disk : UInt32 → UInt32 → α) (v : α) :
    Sorted (start C disk v) (List.finRange NBUF).reverse :=
  ⟨spells_binit C, fun b => by simp, pairwise_of_forall fun _ _ => le_rfl⟩

/-- A release makes the buffer the first. -/
theorem Sorted.brelse (h : Sorted s l) (hc : s.cache.brelse b = some c) :
    Sorted ⟨c, b :: s.releases⟩ (b :: l.erase b) := by
  unfold Bcache.brelse at hc
  split at hc
  · cases hc
    have hnot : b ∉ l.erase b := h.list.nodup.not_mem_erase
    refine ⟨(h.list.remove (h.all b)).insert hnot, fun a => ?_, pairwise_cons.2 ⟨?_, ?_⟩⟩
    · rcases eq_or_ne a b with rfl | hab
      · exact mem_cons_self
      · exact mem_cons_of_mem _ ((mem_erase_of_ne hab).2 (h.all a))
    · intro a _
      simp [State.Recent]
    · refine (h.sorted.sublist erase_sublist).imp_of_mem fun ha hd hle => ?_
      have hne {a : BufId} (ha : a ∈ l.erase b) : b ≠ a := fun heq => hnot (heq ▸ ha)
      unfold State.Recent at hle ⊢
      rw [idxOf_cons_ne _ (hne ha), idxOf_cons_ne _ (hne hd)]
      exact Nat.succ_le_succ hle
  · cases hc

theorem Sorted.next (h : Sorted s l) (hs : next s o = some s') : ∃ l', Sorted s' l' := by
  cases o with
  | bget dev blockno =>
    have hlist : s'.cache.list = s.cache.list ∧ s'.releases = s.releases := by
      have hsame := bget_list s.cache dev blockno
      change (match s.cache.bget dev blockno with
        | (.noBuffers, _) | (.running, _) => none
        | (_, c) => some { s with cache := c }) = some s' at hs
      split at hs
      · cases hs
      · cases hs
      · next c _ _ hbget =>
        cases hs
        rw [hbget] at hsame
        exact ⟨hsame, rfl⟩
    refine ⟨l, hlist.1 ▸ h.list, h.all, h.sorted.imp fun {a b} hle => ?_⟩
    unfold State.Recent
    rw [hlist.2]
    exact hle
  | brelse b =>
    obtain ⟨c, hc, rfl⟩ := Option.map_eq_some_iff.1 hs
    exact ⟨_, h.brelse hc⟩
  | flags b valid dirty =>
    cases hs
    exact ⟨l, h.list, h.all, h.sorted⟩

/-- The buffer that a search from the end finds is the last of those it looks for. -/
theorem Sorted.victim (h : Sorted s l) (hv : s.cache.victim = some (some b)) :
    Idle (s.cache.buf b) ∧ ∀ c, Idle (s.cache.buf c) → s.Recent c b := by
  rw [victim_eq h.list] at hv
  obtain ⟨hb, as, bs, hl, has⟩ := List.find?_eq_some_iff_append.1 (Option.some.inj hv)
  refine ⟨by simpa [Idle] using hb, fun c hc => ?_⟩
  have hmem : c ∈ as ++ b :: bs := hl ▸ mem_reverse.2 (h.all c)
  have hnot : c ∉ as := fun hmem => by simpa [hc.1, hc.2] using has c hmem
  have hsorted := h.sorted
  rw [← reverse_reverse l, hl, reverse_append, reverse_cons, append_assoc] at hsorted
  rcases mem_cons.1 ((mem_append.1 hmem).resolve_left hnot) with rfl | hbs
  · exact le_refl _
  · exact (pairwise_append.1 hsorted).2.2 c (mem_reverse.2 hbs) b (by simp)

theorem Sorted.lists (h : Sorted s l) : Arranged s := by
  refine ⟨⟨l, h.list, fun b => count_eq_one_of_mem h.list.nodup (h.all b), h.sorted⟩, ?_, ?_⟩
  · intro dev blockno b hb
    have hlookup := lookup_eq h.list dev blockno
    cases hfind : l.find? fun b => decide ((s.cache.buf b).Caches dev blockno) with
    | none => exact absurd (decide_eq_true hb) (List.find?_eq_none.1 hfind b (h.all b))
    | some c =>
      rw [hfind] at hlookup
      have hc := List.find?_some hfind
      refine ⟨c, of_decide_eq_true hc, ?_⟩
      unfold Bcache.bget
      rw [hlookup]
      dsimp only
      split
      · exact .inr rfl
      · exact .inl rfl
  · intro dev blockno hno
    have hlookup := lookup_eq h.list dev blockno
    rw [List.find?_eq_none.2 fun b _ hb => hno b (of_decide_eq_true hb)] at hlookup
    unfold Bcache.bget
    rw [hlookup]
    have hvictim := victim_eq h.list
    cases hfind : l.reverse.find? fun b => !(s.cache.buf b).busy && !(s.cache.buf b).dirty with
    | some b =>
      rw [hfind] at hvictim
      rw [hvictim]
      exact .inl ⟨b, rfl, h.victim hvictim⟩
    | none =>
      rw [hfind] at hvictim
      rw [hvictim]
      refine .inr ⟨rfl, fun b hb => ?_⟩
      exact List.find?_eq_none.1 hfind b (mem_reverse.2 (h.all b)) (by simp [hb.1, hb.2])

end

/-- After any sequence of calls, the list is in the order of the last releases. -/
theorem arranged {s : State α} (h : (system α).Reach s) : Arranged s := by
  have hsorted : ∃ l, Sorted s l := by
    refine System.Reach.invariant (I := fun s => ∃ l, Sorted s l) ?_ ?_ h
    · rintro _ ⟨C, disk, v, rfl⟩
      exact ⟨_, sorted_start C disk v⟩
    · rintro s o s' ⟨l, hl⟩ hs
      exact hl.next hs
  obtain ⟨l, hl⟩ := hsorted
  exact hl.lists

/-- Two buffers are taken and given back, the first one first. -/
theorem arranged_two : ∃ s : State Unit, (system Unit).Reach s ∧ s.releases = [1, 0] ∧
    s.cache.list.next none = some 1 ∧ (s.cache.bget 1 7).1 = .miss 2 ∧ Arranged s := by
  obtain ⟨s, hreach, hs⟩ := (system Unit).exists_run next
    (start ⟨fun _ => none, fun _ => none⟩ (fun _ _ => ()) ())
    [.bget 1 5, .bget 1 6, .brelse 0, .brelse 1]
    (Q := fun s => s.releases = [1, 0] ∧ s.cache.list.next none = some 1 ∧
      (s.cache.bget 1 7).1 = .miss 2) rfl ⟨_, _, _, rfl⟩ (by decide +kernel)
  exact ⟨s, hreach, hs.1, hs.2.1, hs.2.2, arranged hreach⟩

end Msboss.Bio.Lru
