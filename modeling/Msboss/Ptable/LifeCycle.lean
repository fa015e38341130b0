import Msboss.Ptable.Calls

/-!
# The life of a process

What holds of the process table in every run with fewer than `2 ^ 31` forks (`LifeCycle`): pids tell
live processes apart, a parent is a process that has not exited, a zombie stays one until its parent
waits for it, and `wait` gives up only if there is nothing to wait for or the caller was killed.

`Tidy` is the invariant. Its main part, `Table.Ok`, is about the table as who is whose child and
which slots are in use. Most steps leave that as it is, and `Tidy.same` covers them all; what is
left are the steps of `fork`, the end of `exit`, and the reaping of a child, each an operation on a
`Table`. -/

namespace Msboss.Ptable

open Function State

/-! ## The property -/

/-- There is a process in the slot. -/
def State.Live (s : State) (p : Slot) : Prop := (s.proc p).state ≠ .unused

/-- What the calls promise. -/
structure LifeCycle (s : State) : Prop where
  pids : ∀ {p q : Slot}, s.Live p → s.Live q → (s.proc p).pid = (s.proc q).pid → p = q
  parents : ∀ {q r : Slot}, s.Live q → q ≠ 0 → (s.proc q).parent = some r →
    (s.proc r).state ≠ .unused ∧ (s.proc r).state ≠ .zombie
  /-- No process is returned twice, and its pid is not used again. -/
  once : s.reaped.Nodup
  gone : ∀ {q : Slot}, s.Live q → (s.proc q).pid ∉ s.reaped
  /-- A process is returned to its parent, which is the one that forked it or `init`, and its slot
  is free then. -/
  reaps : ∀ {p q : Slot}, s.At p .waiting → (s.scan p).1 = .reaped q →
    (s.proc q).state = .zombie ∧ (s.proc q).parent = some p ∧
      ((s.proc p).pid = (s.proc q).origin ∨ p = 0) ∧ ((s.scan p).2.proc q).state = .unused ∧
      (s.scan p).2.reaped = s.reaped ++ [(s.proc q).pid]
  /-- Nothing else ends a zombie. -/
  lasts : ∀ {a : Act} {s' : State} {q : Slot}, next s a = some s' → (s.proc q).state = .zombie →
    (s'.proc q).state ≠ .zombie → ∃ p, a = .scan p ∧ (s.scan p).1 = .reaped q
  fails : ∀ {p : Slot}, s.At p .waiting → (s.scan p).1 = .failed →
    (∀ q, (s.proc q).parent ≠ some p) ∨ (s.proc p).killed = true ∧ (s.proc p).hit = true

/-- There are fewer than `2 ^ 31` calls of `fork`. -/
def FewForks (s : State) : Act → Prop
  | .fork _ => s.forks + 1 < 2 ^ 31
  | _ => True

instance (s : State) (a : Act) : Decidable (FewForks s a) := by
  unfold FewForks
  split <;> infer_instance

/-! ## The table -/

/-- The states of a process that has started and not exited are all one here. -/
inductive Kind
  | unused
  | embryo
  | active
  | zombie
  deriving DecidableEq

def ProcState.kind : ProcState → Kind
  | .unused => .unused
  | .embryo => .embryo
  | .sleeping | .runnable | .running => .active
  | .zombie => .zombie

/-- The slot that a `fork` under way has taken. -/
def Code.slot : Code → Option Slot
  | .taken q | .linked q => some q
  | _ => none

/-- What matters of a record: whether there is a process, who it is and whose child, and which slot
it has taken. -/
structure Entry where
  kind : Kind
  pid : UInt32
  parent : Option Slot
  origin : UInt32
  slot : Option Slot

def Proc.entry (P : Proc) : Entry where
  kind := P.state.kind
  pid := P.pid
  parent := P.parent
  origin := P.origin
  slot := P.code.slot

/-- The table, abstractly. -/
structure Table where
  entry : Slot → Entry
  nextpid : UInt32
  reaped : List UInt32

def State.table (s : State) : Table where
  entry p := (s.proc p).entry
  nextpid := s.nextpid
  reaped := s.reaped

namespace Table

/-- `allocproc` takes `q` for `p`. -/
def take (t : Table) (p q : Slot) : Table :=
  { t with
    entry := fun r =>
      if r = p then { t.entry p with slot := some q }
      else if r = q then { t.entry q with kind := .embryo, pid := t.nextpid, slot := none }
      else t.entry r
    nextpid := t.nextpid + 1 }

/-- `fork`, called by `p`, is done with `q`, which is out of use again or has started. -/
def settle (t : Table) (p q : Slot) (k : Kind) : Table :=
  { t with
    entry := fun r =>
      if r = p then { t.entry p with slot := none }
      else if r = q then { t.entry q with kind := k }
      else t.entry r }

/-- `fork` links `q` to its parent `p`. -/
def link (t : Table) (p q : Slot) : Table :=
  { t with
    entry := fun r =>
      if r = q then { t.entry q with parent := some p, origin := (t.entry p).pid }
      else t.entry r }

/-- Process `p` exits and its children go to `init`. -/
def die (t : Table) (p : Slot) : Table :=
  { t with
    entry := fun r => { t.entry r with
      kind := if r = p then .zombie else (t.entry r).kind
      parent := if (t.entry r).parent = some p then some 0 else (t.entry r).parent } }

/-- Some `wait` returns the pid of `q`. -/
def reap (t : Table) (q : Slot) : Table :=
  { t with
    entry := fun r =>
      if r = q then { t.entry q with kind := .unused, pid := 0, parent := none } else t.entry r
    reaped := t.reaped ++ [(t.entry q).pid] }

/-- The invariant. -/
structure Ok (t : Table) : Prop where
  below : ∀ {q : Slot}, (t.entry q).kind ≠ .unused → (t.entry q).pid < t.nextpid
  distinct : ∀ {p q : Slot}, (t.entry p).kind ≠ .unused → (t.entry q).kind ≠ .unused →
    (t.entry p).pid = (t.entry q).pid → p = q
  past : ∀ {v : UInt32}, v ∈ t.reaped → v < t.nextpid
  gone : ∀ {q : Slot}, (t.entry q).kind ≠ .unused → (t.entry q).pid ∉ t.reaped
  once : t.reaped.Nodup
  orphan : ∀ {q : Slot}, (t.entry q).kind = .unused → (t.entry q).parent = none
  parent : ∀ {q r : Slot}, (t.entry q).parent = some r → (t.entry r).kind = .active ∧
    ((t.entry r).pid = (t.entry q).origin ∨ r = 0)
  init : (t.entry 0).kind = .active
  taken : ∀ {p q : Slot}, (t.entry p).slot = some q →
    (t.entry p).kind = .active ∧ (t.entry q).kind = .embryo
  claim : ∀ {p p' q : Slot}, (t.entry p).slot = some q → (t.entry p').slot = some q → p = p'

variable {t : Table} {p q : Slot}

/-- The new pid is none that is or was in use. -/
theorem Ok.take (h : t.Ok) (hp : (t.entry p).kind = .active) (hq : (t.entry q).kind = .unused)
    (hn : t.nextpid.toNat + 1 < 2 ^ 32) : (t.take p q).Ok := by
  have hlt {x : UInt32} (hx : x ≤ t.nextpid) : x < t.nextpid + 1 := by
    rw [UInt32.lt_iff_toNat_lt, UInt32.toNat_add, UInt32.toNat_one, Nat.mod_eq_of_lt hn]
    exact Nat.lt_succ_of_le (UInt32.le_iff_toNat_le.1 hx)
  have hnew {r : Slot} (hr : (t.entry r).kind ≠ .unused) : (t.entry r).pid ≠ t.nextpid := fun he =>
    absurd (h.below hr) (by rw [he]; exact UInt32.lt_irrefl _)
  refine ⟨fun {r} hr => ?_, fun {r r'} => ?_, fun hv => hlt (UInt32.le_of_lt (h.past hv)),
    fun {r} hr => ?_, h.once, fun {r} => ?_, fun {r r'} => ?_, ?_, fun {r r'} => ?_,
      fun {r r' x} => ?_⟩
  · have := @h.below r
    simp only [Table.take] at hr ⊢
    grind
  · have := @h.distinct r r'
    simp only [Table.take]
    grind
  · have hpast : t.nextpid ∉ t.reaped := fun hv => absurd (h.past hv) (UInt32.lt_irrefl _)
    have := @h.gone r
    simp only [Table.take] at hr ⊢
    grind
  · have := @h.orphan r
    simp only [Table.take]
    grind
  · have := @h.parent r r'
    simp only [Table.take]
    grind
  · have := h.init
    simp only [Table.take]
    grind
  · have := @h.taken r r'
    simp only [Table.take]
    grind
  · have := @h.claim r r' x
    have := @h.taken r x
    have := @h.taken r' x
    simp only [Table.take]
    grind

/-- `fork` is done with an embryo: it has started, or it is out of use, without a parent. -/
theorem Ok.settle (h : t.Ok) (hp : (t.entry p).slot = some q)
    (hk : k = .active ∨ k = .unused ∧ (t.entry q).parent = none) : (t.settle p q k).Ok := by
  obtain ⟨hpa, hqe⟩ := h.taken hp
  refine ⟨fun {r} => ?_, fun {r r'} => ?_, h.past, fun {r} => ?_, h.once, fun {r} => ?_,
    fun {r r'} => ?_, ?_, fun {r r'} => ?_, fun {r r' x} => ?_⟩
  · have := @h.below r
    simp only [Table.settle]
    grind
  · have := @h.distinct r r'
    simp only [Table.settle]
    grind
  · have := @h.gone r
    simp only [Table.settle]
    grind
  · have := @h.orphan r
    simp only [Table.settle]
    grind
  · have := @h.parent r r'
    simp only [Table.settle]
    grind
  · have := h.init
    simp only [Table.settle]
    grind
  · have := @h.taken r r'
    have := @h.claim r p r'
    simp only [Table.settle]
    grind
  · have := @h.claim r r' x
    simp only [Table.settle]
    grind

theorem Ok.link (h : t.Ok) (hp : (t.entry p).slot = some q) : (t.link p q).Ok := by
  obtain ⟨hpa, hqe⟩ := h.taken hp
  refine ⟨fun {r} => ?_, fun {r r'} => ?_, h.past, fun {r} => ?_, h.once, fun {r} => ?_,
    fun {r r'} => ?_, ?_, fun {r r'} => ?_, fun {r r' x} => ?_⟩
  · have := @h.below r
    simp only [Table.link]
    grind
  · have := @h.distinct r r'
    simp only [Table.link]
    grind
  · have := @h.gone r
    simp only [Table.link]
    grind
  · have := @h.orphan r
    simp only [Table.link]
    grind
  · have := @h.parent r r'
    simp only [Table.link]
    grind
  · have := h.init
    simp only [Table.link]
    grind
  · have := @h.taken r r'
    simp only [Table.link]
    grind
  · have := @h.claim r r' x
    simp only [Table.link]
    grind

/-- Whoever had `p` for a parent has `init`, which does not exit. -/
theorem Ok.die (h : t.Ok) (hp : (t.entry p).kind = .active) (hs : (t.entry p).slot = none)
    (h0 : p ≠ 0) : (t.die p).Ok := by
  have hinit := h.init
  refine ⟨fun {r} => ?_, fun {r r'} => ?_, h.past, fun {r} => ?_, h.once, fun {r} => ?_,
    fun {r r'} => ?_, ?_, fun {r r'} => ?_, h.claim⟩
  · have := @h.below r
    simp only [Table.die]
    grind
  · have := @h.distinct r r'
    simp only [Table.die]
    grind
  · have := @h.gone r
    simp only [Table.die]
    grind
  · have := @h.orphan r
    simp only [Table.die]
    grind
  · have := @h.parent r r'
    simp only [Table.die]
    grind
  · simp only [Table.die]
    grind
  · have := @h.taken r r'
    simp only [Table.die]
    grind

/-- A zombie has no children. -/
theorem Ok.reap (h : t.Ok) (hq : (t.entry q).kind = .zombie) : (t.reap q).Ok := by
  have hlive : (t.entry q).kind ≠ .unused := by rw [hq]; decide
  refine ⟨fun {r} => ?_, fun {r r'} => ?_, fun {v} => ?_, fun {r} => ?_, ?_, fun {r} => ?_,
    fun {r r'} => ?_, ?_, fun {r r'} => ?_, fun {r r' x} => ?_⟩
  · have := @h.below r
    simp only [Table.reap]
    grind
  · have := @h.distinct r r'
    simp only [Table.reap]
    grind
  · have := @h.past v
    have := h.below hlive
    simp only [Table.reap, List.mem_append, List.mem_singleton]
    grind
  · have := @h.gone r
    have := @h.distinct r q
    simp only [Table.reap, List.mem_append, List.mem_singleton]
    grind
  · exact h.once.append (List.nodup_singleton _)
      (List.disjoint_singleton.2 (h.gone hlive))
  · have := @h.orphan r
    simp only [Table.reap]
    grind
  · have := @h.parent r r'
    simp only [Table.reap]
    grind
  · have := h.init
    simp only [Table.reap]
    grind
  · have := @h.taken r r'
    simp only [Table.reap]
    grind
  · have := @h.claim r r' x
    simp only [Table.reap]
    grind

end Table

/-! ## The steps -/

/-- The invariant of the system: that of its table, and what the calls under way rely on. -/
structure Tidy (s : State) : Prop where
  table : s.table.Ok
  nextpid : s.nextpid.toNat ≤ s.forks + 2 ∧ s.forks < 2 ^ 31
  init : (s.proc 0).code ≠ .exiting
  unlinked : ∀ {p q : Slot}, (s.proc p).code = .taken q → (s.proc q).parent = none
  waiting : ∀ {p : Slot}, (s.proc p).code = .waiting → (s.proc p).killed = true →
    (s.proc p).hit = true

section
variable {s s' : State} {p q : Slot} {P : Proc}

theorem set_apply (s : State) (p : Slot) (P : Proc) (r : Slot) :
    (s.set p P).proc r = if r = p then P else s.proc r :=
  update_apply ..

/-- Steps that change nothing in the table. -/
theorem Tidy.same (h : Tidy s) (ht : s'.table = s.table)
    (hf : s.forks ≤ s'.forks ∧ s'.forks < 2 ^ 31) (hinit : (s'.proc 0).code ≠ .exiting)
    (htaken : ∀ {p q}, (s'.proc p).code = .taken q → (s.proc p).code = .taken q)
    (hw : ∀ {p}, (s'.proc p).code = .waiting → (s'.proc p).killed = true →
      (s'.proc p).hit = true) : Tidy s' := by
  have hpar (r : Slot) : (s'.proc r).parent = (s.proc r).parent :=
    congrArg (fun t => (t.entry r).parent) ht
  have hnext : s'.nextpid = s.nextpid := congrArg Table.nextpid ht
  refine ⟨ht ▸ h.table, ?_, hinit, fun hc => ?_, hw⟩
  · rw [hnext]
    exact ⟨h.nextpid.1.trans (Nat.add_le_add_right hf.1 2), hf.2⟩
  · rw [hpar]
    exact h.unlinked (htaken hc)

/-- Steps of one process that change nothing in the table. -/
theorem Tidy.set (h : Tidy s) (he : P.entry = (s.proc p).entry)
    (hcode : P.code = (s.proc p).code ∨ P.code = .exiting ∧ p ≠ 0 ∨ P.code = .waiting ∨
      P.code = .user)
    (hw : P.code = .waiting → P.killed = true → P.hit = true) : Tidy (s.set p P) := by
  have ht : (s.set p P).table = s.table := by
    simp only [State.table, State.set, Table.mk.injEq, and_true]
    funext r
    rcases eq_or_ne r p with rfl | hr
    · rw [update_self, he]
    · rw [update_of_ne hr]
  refine h.same ht ⟨le_rfl, h.nextpid.2⟩ ?_ (fun {r q} hr => ?_) fun {r} hr hk => ?_
  · have := h.init
    rw [set_apply]
    grind
  · rw [set_apply] at hr
    grind
  · have := @h.waiting r
    rw [set_apply] at hr hk ⊢
    grind

theorem woken_fields (c : Chan) (P : Proc) : (woken c P).entry = P.entry ∧
    (woken c P).code = P.code ∧ (woken c P).killed = P.killed ∧
    (woken c P).hit = P.hit ∧ (woken c P).parent = P.parent := by
  unfold woken
  split
  · next h => exact ⟨by rw [Proc.entry, Proc.entry, h.1]; rfl, rfl, rfl, rfl, rfl⟩
  · exact ⟨rfl, rfl, rfl, rfl, rfl⟩

theorem table_wakeup1 (s : State) (c : Chan) : (s.wakeup1 c).table = s.table := by
  simp only [State.table, wakeup1, Table.mk.injEq, and_true]
  exact funext fun r => (woken_fields c _).1

theorem Tidy.wakeup1 (h : Tidy s) (c : Chan) : Tidy (s.wakeup1 c) := by
  have hc (r : Slot) := woken_fields c (s.proc r)
  refine h.same (table_wakeup1 s c) ⟨le_rfl, h.nextpid.2⟩ ?_ (fun {r q} hr => ?_)
    fun {r} hr hk => ?_
  · exact (hc 0).2.1.trans_ne h.init
  · exact (hc r).2.1.symm.trans hr
  · exact (hc r).2.2.2.1.trans
      (h.waiting ((hc r).2.1.symm.trans hr) ((hc r).2.2.1.symm.trans hk))

theorem kind_of_running (h : (s.proc p).state = .running) : (s.table.entry p).kind = .active := by
  show (s.proc p).state.kind = _
  rw [h]
  rfl

/-- The table after a step that changes the records of two slots. -/
theorem table_two (P Q : Proc) (hp : P.entry = e)
    (hq : Q.entry = e') (hs : ∀ r, s'.proc r = if r = p then P else if r = q then Q else s.proc r)
    (hn : s'.nextpid = n) (hl : s'.reaped = l) : s'.table =
      { entry := fun r => if r = p then e else if r = q then e' else s.table.entry r
        nextpid := n, reaped := l } := by
  simp only [State.table, Table.mk.injEq, hn, hl, and_true]
  funext r
  rw [hs]
  split
  · exact hp
  · split
    · exact hq
    · rfl

/-- `fork` takes the slot `q`. -/
theorem Tidy.take (h : Tidy s) (hrun : (s.proc p).state = .running)
    (hq : (s.proc q).state = .unused) (hf : s.forks + 1 < 2 ^ 31)
    (hs : ∀ r, s'.proc r = if r = p then { s.proc p with code := .taken q } else
      if r = q then
        { s.proc q with state := .embryo, pid := s.nextpid, code := .user, hit := false }
      else s.proc r) (hn : s'.nextpid = s.nextpid + 1) (hl : s'.reaped = s.reaped)
    (hfk : s'.forks = s.forks + 1) : Tidy s' := by
  have hqk : (s.table.entry q).kind = .unused := by
    show (s.proc q).state.kind = _
    rw [hq]
    rfl
  have hnext := h.nextpid
  have hlt : s.nextpid.toNat + 1 < 2 ^ 32 := by omega
  have ht : s'.table = s.table.take p q := table_two _ _ rfl rfl hs hn hl
  refine ⟨ht ▸ h.table.take (kind_of_running hrun) hqk hlt, ?_, ?_, fun {r x} hr => ?_,
    fun {r} hr hk => ?_⟩
  · rw [hn, hfk, UInt32.toNat_add, UInt32.toNat_one, Nat.mod_eq_of_lt hlt]
    omega
  · have := h.init
    rw [hs]
    grind
  · have h1 := h.table.orphan hqk
    have h2 := @h.unlinked r x
    rw [hs] at hr ⊢
    grind [State.table, Proc.entry]
  · have := @h.waiting r
    rw [hs] at hr hk ⊢
    grind

theorem Tidy.fork (h : Tidy s) (hp : s.Enters p) (hf : s.forks + 1 < 2 ^ 31) : Tidy (s.fork p) := by
  obtain ⟨⟨hrun, hcode⟩, -⟩ := hp
  unfold State.fork State.allocproc
  cases hfind : (List.finRange NPROC).find? fun q => (s.proc q).state = .unused with
  | none => exact h.same rfl ⟨Nat.le_succ _, hf⟩ h.init id h.waiting
  | some q =>
    have hq : (s.proc q).state = .unused := by simpa using List.find?_some hfind
    have hpq : p ≠ q := by
      rintro rfl
      rw [hrun] at hq
      cases hq
    refine h.take hrun hq hf (fun r => ?_) rfl rfl rfl
    simp only [State.set, update_apply, if_neg hpq]

/-- `fork` is done with `q`. -/
theorem Tidy.settle (h : Tidy s) (hp : (s.proc p).code.slot = some q)
    (hc : c.kind = .active ∨ c.kind = .unused ∧ (s.proc q).parent = none)
    (hs : ∀ r, s'.proc r = if r = p then { s.proc p with code := .user } else
      if r = q then { s.proc q with state := c } else s.proc r)
    (hn : s'.nextpid = s.nextpid) (hl : s'.reaped = s.reaped) (hfk : s'.forks = s.forks) :
    Tidy s' := by
  have ht : s'.table = s.table.settle p q c.kind := table_two _ _ rfl rfl hs hn hl
  refine ⟨ht ▸ h.table.settle hp hc, by rw [hn, hfk]; exact h.nextpid, ?_, fun {r x} hr => ?_,
    fun {r} hr hk => ?_⟩
  · have := h.init
    rw [hs]
    grind
  · have := @h.unlinked r x
    rw [hs] at hr ⊢
    grind
  · have := @h.waiting r
    rw [hs] at hr hk ⊢
    grind

theorem ne_of_slot (h : Tidy s) (hp : (s.proc p).code.slot = some q) : p ≠ q := by
  rintro rfl
  obtain ⟨h1, h2⟩ := h.table.taken hp
  rw [h1] at h2
  cases h2

theorem Tidy.forkFails (h : Tidy s) (hp : (s.proc p).code = .taken q) : Tidy (s.forkFails p q) := by
  have hslot : (s.proc p).code.slot = some q := by rw [hp]; rfl
  refine h.settle (c := .unused) hslot (.inr ⟨rfl, h.unlinked hp⟩) (fun r => ?_) rfl rfl rfl
  simp only [State.forkFails, State.set, update_apply]

theorem Tidy.forkDone (h : Tidy s) (hp : (s.proc p).code = .linked q) : Tidy (s.forkDone p q) := by
  have hslot : (s.proc p).code.slot = some q := by rw [hp]; rfl
  refine h.settle (c := .runnable) hslot (.inl rfl) (fun r => ?_) rfl rfl rfl
  simp only [State.forkDone, State.set, update_apply]

theorem Tidy.forkLinks (h : Tidy s) (hp : (s.proc p).code = .taken q) : Tidy (s.forkLinks p q) := by
  have hslot : (s.proc p).code.slot = some q := by rw [hp]; rfl
  have hpq := ne_of_slot h hslot
  have hs (r : Slot) : (s.forkLinks p q).proc r = if r = p then { s.proc p with code := .linked q }
      else if r = q then { s.proc q with parent := some p, origin := (s.proc p).pid }
      else s.proc r := by
    simp only [State.forkLinks, State.set, update_apply]
  have ht : (s.forkLinks p q).table = s.table.link p q := by
    have htwo := table_two _ _ rfl rfl hs rfl rfl
    refine htwo.trans ?_
    simp only [Table.link, Table.mk.injEq]
    refine ⟨funext fun r => ?_, rfl, rfl⟩
    split
    · next hr =>
      rw [if_neg (by rw [hr]; exact hpq), hr]
      simp only [State.table, Proc.entry, hp, Code.slot]
    · rfl
  refine ⟨ht ▸ h.table.link hslot, h.nextpid, ?_, fun {r x} hr => ?_, fun {r} hr hk => ?_⟩
  · have := h.init
    rw [hs]
    grind
  · have h1 := @h.unlinked r x
    have h2 := @h.table.claim r p q
    rw [hs] at hr ⊢
    grind [State.table, Proc.entry, Code.slot]
  · have := @h.waiting r
    rw [hs] at hr hk ⊢
    grind

/-- What `exit` leaves of a record, up to who sleeps. -/
theorem reparent_fields (s : State) (p r : Slot) : ((s.reparent p).proc r).entry =
        { (s.proc r).entry with
          parent := if (s.proc r).parent = some p then some 0 else (s.proc r).parent } ∧
      ((s.reparent p).proc r).code = (s.proc r).code ∧
      ((s.reparent p).proc r).killed = (s.proc r).killed ∧
      ((s.reparent p).proc r).hit = (s.proc r).hit := by
  unfold reparent
  have hr : (if (s.proc r).parent = some p then { s.proc r with parent := some 0 }
      else s.proc r).entry =
      { (s.proc r).entry with
        parent := if (s.proc r).parent = some p then some 0 else (s.proc r).parent } := by
    split <;> rfl
  simp only
  split
  · simp only [wakeup1]
    obtain ⟨h1, h2, h3, h4, -⟩ := woken_fields (.proc 0)
      (if (s.proc r).parent = some p then { s.proc r with parent := some 0 } else s.proc r)
    refine ⟨h1.trans hr, h2.trans ?_, h3.trans ?_, h4.trans ?_⟩ <;> split <;> rfl
  · refine ⟨hr, ?_, ?_, ?_⟩ <;> simp only <;> split <;> rfl

theorem reparent_rest (s : State) (p : Slot) : (s.reparent p).nextpid = s.nextpid ∧
    (s.reparent p).reaped = s.reaped ∧ (s.reparent p).forks = s.forks := by
  unfold reparent
  simp only
  split <;> exact ⟨rfl, rfl, rfl⟩

/-- `exit` after it has woken the parent. -/
theorem Tidy.die (h : Tidy s) (hrun : (s.proc p).state.kind = .active)
    (hcode : (s.proc p).code = .exiting) :
    Tidy ((s.reparent p).set p { (s.reparent p).proc p with state := .zombie }) := by
  have hp0 : p ≠ 0 := by
    rintro rfl
    exact h.init hcode
  have hf (r : Slot) := reparent_fields s p r
  obtain ⟨hn, hl, hfk⟩ := reparent_rest s p
  have hslot : (s.table.entry p).slot = none := by
    show (s.proc p).code.slot = none
    rw [hcode]
    rfl
  have ht : ((s.reparent p).set p { (s.reparent p).proc p with state := .zombie }).table =
      s.table.die p := by
    simp only [State.table, State.set, Table.die, Table.mk.injEq, hn, hl, and_true]
    refine funext fun r => ?_
    rcases eq_or_ne r p with rfl | hr
    · rw [update_self, if_pos rfl]
      have := (hf r).1
      simp only [Proc.entry, Entry.mk.injEq] at this ⊢
      exact ⟨rfl, this.2⟩
    · rw [update_of_ne hr, if_neg hr]
      exact (hf r).1
  refine ⟨ht ▸ h.table.die hrun hslot hp0, ?_, ?_, fun {r x} hr => ?_, fun {r} hr hk => ?_⟩
  · show (s.reparent p).nextpid.toNat ≤ (s.reparent p).forks + 2 ∧ (s.reparent p).forks < 2 ^ 31
    rw [hn, hfk]
    exact h.nextpid
  · have h1 := h.init
    have h2 := (hf 0).2.1
    rw [set_apply, if_neg hp0.symm, h2]
    exact h1
  · have h1 := @h.unlinked r x
    have h2 := (hf r).2.1
    have h3 := congrArg Entry.parent (hf x).1
    rw [set_apply] at hr ⊢
    grind [Proc.entry]
  · have h1 := @h.waiting r
    have h2 := hf r
    rw [set_apply] at hr hk ⊢
    grind

theorem Tidy.exited (h : Tidy s) (hp : s.At p .exiting) : Tidy (s.exited p) := by
  simp only [State.exited]
  have hkind := kind_of_running hp.1
  cases (s.proc p).parent with
  | none => exact h.die hkind hp.2
  | some r =>
    have hw := h.wakeup1 (.proc r)
    obtain ⟨he, hcode, -⟩ := woken_fields (.proc r) (s.proc p)
    have hk : ((s.wakeup1 (.proc r)).proc p).state.kind = .active :=
      (congrArg Entry.kind he).trans hkind
    have hc : ((s.wakeup1 (.proc r)).proc p).code = .exiting := hcode.trans hp.2
    exact hw.die hk hc

/-- What a pass of `wait` comes to. -/
theorem scan_reaped (h : (s.scan p).1 = .reaped q) :
    (s.proc q).parent = some p ∧ (s.proc q).state = .zombie ∧ (s.scan p).2 =
        let s1 := s.set q
          { s.proc q with state := .unused, pid := 0, parent := none, killed := false }
        { s1.set p { s1.proc p with code := .user } with
          reaped := s.reaped ++ [(s.proc q).pid] } := by
  unfold State.scan at h ⊢
  split at h
  · next q' hfind =>
    cases h
    have := List.find?_some hfind
    simp only [decide_eq_true_eq] at this
    exact ⟨this.1, this.2, rfl⟩
  · split at h <;> cases h

theorem scan_failed (h : (s.scan p).1 = .failed) :
    ((∀ q, (s.proc q).parent ≠ some p) ∨ (s.proc p).killed = true) ∧
      (s.scan p).2 = s.set p { s.proc p with code := .user } := by
  unfold State.scan at h ⊢
  split at h
  · cases h
  · split at h
    · next hc => exact ⟨hc, by rw [if_pos hc]⟩
    · cases h

theorem scan_asleep (h : (s.scan p).1 = .asleep) :
    (s.scan p).2 = s.set p { s.proc p with state := .sleeping, chan := some (.proc p) } := by
  unfold State.scan at h ⊢
  split at h
  · cases h
  · split at h
    · cases h
    · next hc => rw [if_neg hc]

theorem Tidy.scan (h : Tidy s) (hp : s.At p .waiting) : Tidy (s.scan p).2 := by
  obtain ⟨hrun, hcode⟩ := hp
  cases hw : (s.scan p).1 with
  | failed =>
    rw [(scan_failed hw).2]
    exact h.set (by simp [Proc.entry, hcode, Code.slot]) (.inr (.inr (.inr rfl))) nofun
  | asleep =>
    rw [scan_asleep hw]
    exact h.set (by simp [Proc.entry, hrun, ProcState.kind]) (.inl rfl) h.waiting
  | reaped q =>
    obtain ⟨hpar, hz, hs⟩ := scan_reaped hw
    have hpq : p ≠ q := by
      rintro rfl
      rw [hrun] at hz
      cases hz
    have hqk : (s.table.entry q).kind = .zombie := by
      show (s.proc q).state.kind = _
      rw [hz]
      rfl
    have hproc (r : Slot) : (s.scan p).2.proc r =
        if r = p then { s.proc p with code := .user } else
        if r = q then { s.proc q with state := .unused, pid := 0, parent := none, killed := false }
        else s.proc r := by
      rw [hs]
      simp only [State.set, update_apply, if_neg hpq]
    have ht : (s.scan p).2.table = s.table.reap q := by
      refine (table_two _ _ rfl rfl hproc (congrArg State.nextpid hs)
        (congrArg State.reaped hs)).trans ?_
      simp only [Table.reap, Table.mk.injEq]
      refine ⟨funext fun r => ?_, rfl, rfl⟩
      split
      · next hr =>
        rw [if_neg (by rw [hr]; exact hpq), hr]
        simp only [State.table, Proc.entry, hcode, Code.slot]
      · rfl
    refine ⟨ht ▸ h.table.reap hqk, by rw [hs]; exact h.nextpid, ?_, fun {r x} hr => ?_,
      fun {r} hr hk => ?_⟩
    · have := h.init
      rw [hproc]
      grind
    · have := @h.unlinked r x
      rw [hproc] at hr ⊢
      grind
    · have := @h.waiting r
      rw [hproc] at hr hk ⊢
      grind

theorem Tidy.kill (h : Tidy s) (pid : UInt32) : Tidy (s.kill pid) := by
  unfold State.kill
  split
  · exact h
  refine h.set ?_ (.inl rfl) fun _ _ => rfl
  simp only [Proc.entry, Entry.mk.injEq, and_true]
  split
  · next hs => rw [hs]; rfl
  · rfl

/-- Every step keeps the invariant. -/
theorem Tidy.step (h : Tidy s) (hf : FewForks s a) (hs : next s a = some s') :
    Tidy s' := by
  cases step_of_next hs with
  | fork hp => exact h.fork hp hf
  | forkFails _ hcode => exact h.forkFails hcode
  | forkLinks _ hcode => exact h.forkLinks hcode
  | forkDone _ hcode => exact h.forkDone hcode
  | exit hp =>
    exact h.set (by simp [Proc.entry, hp.1.2, Code.slot]) (.inr (.inl ⟨rfl, hp.2⟩)) nofun
  | exited hp => exact h.exited hp
  | wait hp =>
    exact h.set (by simp [Proc.entry, hp.1.2, Code.slot]) (.inr (.inr (.inl rfl)))
      fun _ hkill => absurd hkill (by rw [hp.2]; decide)
  | scan hp => exact h.scan hp
  | kill => exact h.kill _
  | fault hp => exact h.set rfl (.inl rfl) fun hw => by rw [hp.2] at hw; cases hw
  | dispatch hp | yield hp =>
    exact h.set (by simp [Proc.entry, hp, ProcState.kind]) (.inl rfl) h.waiting
  | sleep hp => exact h.set (by simp [Proc.entry, hp.1, ProcState.kind]) (.inl rfl) h.waiting
  | wakeup => exact h.wakeup1 _

/-! ## What ends a zombie -/

theorem zombie_set (hq : (s.proc q).state = .zombie)
    (hp : (s.proc p).state ≠ .zombie ∨ P.state = .zombie) :
    ((s.set p P).proc q).state = .zombie := by
  rw [set_apply]
  grind

theorem zombie_wakeup1 (c : Chan) (hq : (s.proc q).state = .zombie) :
    ((s.wakeup1 c).proc q).state = .zombie := by
  simp only [wakeup1, woken]
  grind

theorem zombie_reparent (p : Slot) (hq : (s.proc q).state = .zombie) :
    ((s.reparent p).proc q).state = .zombie := by
  have h : ((s.reparent p).proc q).state.kind = (s.proc q).state.kind :=
    congrArg Entry.kind (reparent_fields s p q).1
  rw [hq] at h
  cases hs : ((s.reparent p).proc q).state <;> rw [hs] at h <;> first | rfl | cases h

/-- Steps of `fork` on two slots that are not zombies. -/
theorem zombie_two (hq : (s.proc q).state = .zombie)
    (hp : (s.proc p).state ≠ .zombie) (hr : (s.proc r).state ≠ .zombie) :
    (((s.set r Q).set p P).proc q).state = .zombie := by
  simp only [set_apply]
  grind

theorem zombie_fork (p : Slot) (hp : (s.proc p).state = .running)
    (hq : (s.proc q).state = .zombie) : ((s.fork p).proc q).state = .zombie := by
  unfold State.fork State.allocproc
  cases hfind : (List.finRange NPROC).find? fun q => (s.proc q).state = .unused with
  | none => exact hq
  | some r =>
    have hr : (s.proc r).state = .unused := by simpa using List.find?_some hfind
    simp only [State.set, update_apply]
    grind

/-- A zombie is one until some `wait` finds it. -/
theorem zombie_step (h : Tidy s) (hs : next s a = some s') (hq : (s.proc q).state = .zombie) :
    (s'.proc q).state = .zombie ∨ ∃ p, a = .scan p ∧ (s.scan p).1 = .reaped q := by
  have hrun {p : Slot} (hp : (s.proc p).state = .running) : (s.proc p).state ≠ .zombie := by
    rw [hp]
    decide
  have htaken {p r : Slot} (hp : (s.proc p).code.slot = some r) : (s.proc r).state ≠ .zombie := by
    intro hz
    have hk : (s.proc r).state.kind = .embryo := (h.table.taken hp).2
    rw [hz] at hk
    cases hk
  cases step_of_next hs with
  | fork hp => exact .inl (zombie_fork _ hp.1.1 hq)
  | forkFails hp hcode | forkLinks hp hcode | forkDone hp hcode =>
    exact .inl (zombie_two hq (hrun hp) (htaken (by rw [hcode]; rfl)))
  | exit hp => exact .inl (zombie_set hq (.inl (hrun hp.1.1)))
  | @exited p hp =>
    refine .inl (zombie_set (zombie_reparent p ?_) (.inr rfl))
    split
    · exact zombie_wakeup1 _ hq
    · exact hq
  | wait hp => exact .inl (zombie_set hq (.inl (hrun hp.1.1)))
  | @scan p hp =>
    cases hw : (s.scan p).1 with
    | failed =>
      rw [(scan_failed hw).2]
      exact .inl (zombie_set hq (.inl (hrun hp.1)))
    | asleep =>
      rw [scan_asleep hw]
      exact .inl (zombie_set hq (.inl (hrun hp.1)))
    | reaped r =>
      rcases eq_or_ne r q with rfl | hr
      · exact .inr ⟨p, rfl, hw⟩
      · rw [(scan_reaped hw).2.2]
        simp only [State.set, update_apply]
        have := hrun hp.1
        grind
  | kill =>
    unfold State.kill
    split
    · exact .inl hq
    · simp only [set_apply]
      grind
  | fault hp | sleep hp => exact .inl (zombie_set hq (.inl (hrun hp.1)))
  | dispatch hp => exact .inl (zombie_set hq (.inl (by rw [hp]; decide)))
  | yield hp => exact .inl (zombie_set hq (.inl (hrun hp)))
  | wakeup => exact .inl (zombie_wakeup1 _ hq)

/-! ## The result -/

theorem tidy_initial : Tidy initial := by
  have hkind (r : Slot) : (initial.table.entry r).kind = if r = 0 then .active else .unused := by
    simp only [initial, State.table]
    split <;> rfl
  have hpid : (initial.table.entry 0).pid = 1 := rfl
  have hparent (r : Slot) : (initial.table.entry r).parent = none := by
    simp only [initial, State.table]
    split <;> rfl
  have hslot (r : Slot) : (initial.table.entry r).slot = none := by
    simp only [initial, State.table]
    split <;> rfl
  have hcode (r : Slot) : (initial.proc r).code = .user := by
    simp only [initial]
    split <;> rfl
  have hlive {r : Slot} (hr : (initial.table.entry r).kind ≠ .unused) : r = 0 := by
    by_contra h0
    exact hr (by rw [hkind, if_neg h0])
  refine ⟨⟨fun hr => ?_, fun hp hq _ => (hlive hp).trans (hlive hq).symm, nofun, fun _ => nofun,
    .nil, fun _ => hparent _, fun hr => ?_, ?_, fun hr => ?_, fun hr => ?_⟩, ?_, ?_, fun hr => ?_,
    fun hr => ?_⟩
  · rw [hlive hr, hpid]
    decide
  · rw [hparent] at hr
    cases hr
  · rw [hkind, if_pos rfl]
  · rw [hslot] at hr
    cases hr
  · rw [hslot] at hr
    cases hr
  · decide
  · rw [hcode]
    nofun
  · rw [hcode] at hr
    cases hr
  · rw [hcode] at hr
    cases hr

theorem kind_of_live (h : s.Live p) : (s.table.entry p).kind ≠ .unused := by
  intro hk
  apply h
  have hk' : (s.proc p).state.kind = .unused := hk
  cases hs : (s.proc p).state <;> rw [hs] at hk' <;> first | rfl | cases hk'

/-- What the invariant says of the calls. -/
theorem Tidy.lifeCycle (h : Tidy s) : LifeCycle s where
  pids hp hq := h.table.distinct (kind_of_live hp) (kind_of_live hq)
  parents {q r} _ _ hr := by
    have hk : (s.proc r).state.kind = .active := (h.table.parent hr).1
    constructor <;> rintro hs <;> rw [hs] at hk <;> cases hk
  once := h.table.once
  gone hq := h.table.gone (kind_of_live hq)
  reaps {p q} hp hw := by
    obtain ⟨hpar, hz, hs⟩ := scan_reaped hw
    have hpq : q ≠ p := by
      rintro rfl
      rw [hp.1] at hz
      cases hz
    refine ⟨hz, hpar, (h.table.parent hpar).2, ?_, ?_⟩
    · rw [hs]
      simp only [State.set, update_apply, if_neg hpq, if_pos]
    · rw [hs]
  lasts hs hq hne := (zombie_step h hs hq).resolve_left hne
  fails hp hw := by
    obtain ⟨hno | hkill, -⟩ := scan_failed hw
    · exact .inl hno
    · exact .inr ⟨hkill, h.waiting hp.2 hkill⟩

end

/-- **Processes are made, reparented and reaped properly**, in every interleaving of calls with
fewer than `2 ^ 31` forks. -/
theorem life_cycle {s : State} (h : (system.restrict FewForks).Reach s) : LifeCycle s := by
  have hI : Tidy s := by
    refine h.invariant (I := Tidy) (fun s hi => ?_) fun s a s' hI hs => ?_
    · rw [show s = initial from hi]
      exact tidy_initial
    · exact hI.step hs.1 hs.2
  exact hI.lifeCycle

/-- `init` forks a child, which exits, and waits for it. -/
def forkExitWait : List Act :=
  [.dispatch 0, .fork 0, .forkLinks 0, .forkDone 0, .dispatch 1, .exit 1, .exited 1,
    .wait 0, .scan 0]

/-- `life_cycle` on the run of `forkExitWait`. -/
theorem life_cycle_forkExitWait : ∃ s, (system.restrict FewForks).Reach s ∧ s.reaped = [2] ∧
    LifeCycle s := by
  obtain ⟨s, hreach, h1⟩ := system.exists_reach FewForks next initial forkExitWait
    (Q := fun s => s.reaped = [2]) rfl rfl (by decide +kernel)
  exact ⟨s, hreach, h1, life_cycle hreach⟩

end Msboss.Ptable
