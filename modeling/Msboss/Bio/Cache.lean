import Msboss.Param
import Msboss.Lib.System

/-!
# The buffer cache

`bget`, `bread`, `bwrite` and `brelse` of `bio.c` with `log_write` and `iderw`, called by any number
of processes. A pass of `bget` over the list is one step, as is a transfer of `iderw`; in between a
process may sleep, and what it finds when it scans again is whatever the others have left. A commit
of the log is a process that calls these functions in turn: `write_log` and `install_trans` read two
buffers, copy one to the other and write it, and it is the write that lets a pinned buffer go.

`Transparent` is what the cache promises. The block contents that its users agree on are a history:
`released` is what was in the buffer of a block when it was last released. The invariant `Sound`
says where these contents are to be found: in the buffer of the block, if it has one that no process
holds; on the disk, if it has none or one that is not valid yet; and on both, if the buffer may be
recycled.
-/

namespace Msboss.Bio

open Function

/-! ## The model -/

/-- A buffer, as its index in `bcache.buf`. -/
abbrev BufId := Fin NBUF

instance : NeZero NBUF := ⟨by decide⟩

/-- `struct buf`, with its flags apart. -/
structure Buf (α : Type) where
  busy : Bool
  valid : Bool
  dirty : Bool
  dev : UInt32
  blockno : UInt32
  data : α

/-- The device of a buffer that was never used. -/
def noDev : UInt32 := -1

/-- The panics of the modelled functions. -/
inductive Panic
  /-- `bget: no buffers` -/
  | noBuffers
  | bwrite
  | brelse
  /-- `iderw: buf not busy` -/
  | notBusy
  /-- `iderw: nothing to do` -/
  | nothingToDo
  deriving DecidableEq, Repr

/-- Where a process is in the calls of the cache. -/
inductive Pc
  | out
  /-- In `bget`, at `loop`. -/
  | loop (dev blockno : UInt32)
  /-- In `bget`, asleep on the buffer. -/
  | asleep (b : BufId) (dev blockno : UInt32)
  /-- In `bread`, with the buffer that `bget` returned. -/
  | got (b : BufId) (dev blockno : UInt32)
  /-- In `bwrite`, at the call of `iderw`. -/
  | writing (b : BufId)
  deriving DecidableEq, Repr

/-- The buffers, the list from `head.next` on, the disk and the processes, with the buffers that a
process has got from `bread` and not released yet; and two histories, the contents of each block
when its buffer was last released, and which buffers were modified since they last were as on the
disk. -/
structure State (α : Type) where
  buf : BufId → Buf α
  order : List BufId
  disk : UInt32 → UInt32 → α
  pc : Nat → Pc
  held : Nat → Finset BufId
  panic : Option Panic
  released : UInt32 → UInt32 → α
  unsaved : BufId → Bool

variable {α : Type}

/-- After `binit`. -/
def initial (disk : UInt32 → UInt32 → α) (v : α) : State α where
  buf _ := { busy := false, valid := false, dirty := false, dev := noDev, blockno := 0, data := v }
  order := (List.finRange NBUF).reverse
  disk := disk
  pc _ := .out
  held _ := ∅
  panic := none
  released := disk
  unsaved _ := false

/-- The blocks after a write. -/
def put (f : UInt32 → UInt32 → α) (dev blockno : UInt32) (v : α) : UInt32 → UInt32 → α :=
  fun d n => if d = dev ∧ n = blockno then v else f d n

/-- The buffer is the one of the block. -/
def Buf.Caches (B : Buf α) (dev blockno : UInt32) : Prop := B.dev = dev ∧ B.blockno = blockno

instance (B : Buf α) (dev blockno : UInt32) : Decidable (B.Caches dev blockno) :=
  inferInstanceAs (Decidable (_ ∧ _))

namespace State

def goto (s : State α) (p : Nat) (c : Pc) : State α := { s with pc := update s.pc p c }

def setBuf (s : State α) (b : BufId) (B : Buf α) : State α :=
  { s with buf := update s.buf b B }

def stop (s : State α) (e : Panic) : State α := { s with panic := some e }

/-- Where a process is after `wakeup(b)`. -/
def woken (b : BufId) : Pc → Pc
  | .asleep c dev blockno => if c = b then .loop dev blockno else .asleep c dev blockno
  | c => c

/-- `wakeup(b)`. -/
def wakeup (s : State α) (b : BufId) : State α := { s with pc := fun q => woken b (s.pc q) }

/-- A pass of `bget` under the lock, with the sleep at its end if the buffer is busy. -/
def bget (s : State α) (p : Nat) (dev blockno : UInt32) : State α :=
  match s.order.find? fun b => (s.buf b).Caches dev blockno with
  | some b =>
    if (s.buf b).busy then s.goto p (.asleep b dev blockno)
    else (s.setBuf b { s.buf b with busy := true }).goto p (.got b dev blockno)
  | none =>
    match s.order.reverse.find? fun b => !(s.buf b).busy && !(s.buf b).dirty with
    | some b =>
      (s.setBuf b { s.buf b with dev, blockno, busy := true, valid := false, dirty := false }).goto
        p (.got b dev blockno)
    | none => s.stop .noBuffers

/-- `iderw(b)`, which a process calls at `p` and goes on at `c`. -/
def iderw (s : State α) (p : Nat) (b : BufId) (c : Pc) : State α :=
  let B := s.buf b
  if !B.busy then s.stop .notBusy
  else if B.valid && !B.dirty then s.stop .nothingToDo
  else if B.dirty then
    { (s.setBuf b { B with valid := true, dirty := false }).wakeup b with
      disk := put s.disk B.dev B.blockno B.data
      unsaved := update s.unsaved b false }.goto p c
  else ((s.setBuf b { B with valid := true, data := s.disk B.dev B.blockno }).wakeup b).goto p c

/-- The first step of `bwrite(b)`. -/
def bwrite (s : State α) (p : Nat) (b : BufId) : State α :=
  if (s.buf b).busy then (s.setBuf b { s.buf b with dirty := true }).goto p (.writing b)
  else s.stop .bwrite

/-- What `log_write(b)` does to the buffer. -/
def log_write (s : State α) (b : BufId) : State α := s.setBuf b { s.buf b with dirty := true }

/-- `brelse(b)`. -/
def brelse (s : State α) (p : Nat) (b : BufId) : State α :=
  let B := s.buf b
  if B.busy then
    { (s.setBuf b { B with busy := false }).wakeup b with
      order := b :: s.order.erase b
      held := update s.held p (s.held p \ {b})
      released := put s.released B.dev B.blockno B.data
      unsaved := update s.unsaved b false }
  else s.stop .brelse

/-- A process changes the data of a buffer. -/
def modify (s : State α) (b : BufId) (v : α) : State α :=
  { s.setBuf b { s.buf b with data := v } with unsaved := update s.unsaved b true }

/-- Process `p` is in no call and has the buffer. -/
def Free (s : State α) (p : Nat) (b : BufId) : Prop := s.pc p = .out ∧ b ∈ s.held p

instance (s : State α) (p : Nat) (b : BufId) : Decidable (s.Free p b) :=
  inferInstanceAs (Decidable (_ ∧ _))

end State

/-- The steps. -/
inductive Act (α : Type)
  /-- A call of `bread`. -/
  | bread (p : Nat) (dev blockno : UInt32)
  /-- A pass of `bget`. -/
  | bget (p : Nat)
  /-- A transfer for `bread` or `bwrite`. -/
  | iderw (p : Nat)
  /-- The return of `bread`. -/
  | ret (p : Nat)
  | modify (p : Nat) (b : BufId) (v : α)
  | log_write (p : Nat) (b : BufId)
  | bwrite (p : Nat) (b : BufId)
  | brelse (p : Nat) (b : BufId)
  /-- `kill` makes a process that sleeps go on. -/
  | kill (p : Nat)

/-- The step of a machine that has not panicked. -/
def next? (s : State α) : Act α → Option (State α)
  | .bread p dev blockno => if s.pc p = .out then some (s.goto p (.loop dev blockno)) else none
  | .bget p => match s.pc p with
    | .loop dev blockno => some (s.bget p dev blockno)
    | _ => none
  | .iderw p => match s.pc p with
    | .got b dev blockno =>
      if (s.buf b).valid then none else some (s.iderw p b (.got b dev blockno))
    | .writing b => some (s.iderw p b .out)
    | _ => none
  | .ret p => match s.pc p with
    | .got b _ _ =>
      if (s.buf b).valid then
        some ({ s with held := update s.held p (insert b (s.held p)) }.goto p .out)
      else none
    | _ => none
  | .modify p b v => if s.Free p b then some (s.modify b v) else none
  | .log_write p b => if s.Free p b then some (s.log_write b) else none
  | .bwrite p b => if s.Free p b then some (s.bwrite p b) else none
  | .brelse p b => if s.Free p b then some (s.brelse p b) else none
  | .kill p => match s.pc p with
    | .asleep _ dev blockno => some (s.goto p (.loop dev blockno))
    | _ => none

/-- A step; a panic stops every process. -/
def next (s : State α) (a : Act α) : Option (State α) := if s.panic = none then next? s a else none

/-- Every interleaving of the calls, from any disk. -/
def system (α : Type) : System (State α) (Act α) :=
    .ofNext (fun s => ∃ disk v, s = initial disk v) next

/-- The buffers are those of devices, and a process that has modified a buffer calls `bwrite` or
`log_write` before it releases it. -/
def Saves (s : State α) : Act α → Prop
  | .bread _ dev _ => dev ≠ noDev
  | .brelse _ b => s.unsaved b = true → (s.buf b).dirty = true
  | _ => True

instance (s : State α) (a : Act α) : Decidable (Saves s a) := by
  cases a <;> simp only [Saves] <;> infer_instance

/-! ## The property -/

/-- Process `p` has got the buffer and not released it. -/
def State.Holds (s : State α) (p : Nat) (b : BufId) : Prop :=
  b ∈ s.held p ∨ ∃ dev blockno, s.pc p = .got b dev blockno

/-- A `bread(dev, blockno)` of process `p` returns the buffer. -/
def State.Returns (s : State α) (p : Nat) (dev blockno : UInt32) (b : BufId) : Prop :=
  s.pc p = .got b dev blockno ∧ (s.buf b).valid = true

/-- What the cache promises. -/
structure Transparent (s : State α) : Prop where
  unique : ∀ {b c : BufId} {dev blockno}, dev ≠ noDev → (s.buf b).Caches dev blockno →
    (s.buf c).Caches dev blockno → b = c
  exclusive : ∀ {p q b}, s.Holds p b → s.Holds q b → p = q
  busy : ∀ {p b}, s.Holds p b → (s.buf b).busy = true
  fresh : ∀ {p dev blockno b}, s.Returns p dev blockno b →
    (s.buf b).Caches dev blockno ∧ (s.buf b).data = s.released dev blockno

/-! ## Where the contents of a block are -/

/-- A buffer, of a block with the given contents on the disk and for its users. -/
structure Buf.Good (B : Buf α) (disk contents : α) (unsaved : Bool) : Prop where
  idle : B.busy = false → B.valid = true ∧ B.data = contents ∧ unsaved = false
  synced : B.valid = true → B.dirty = false → unsaved = false → disk = B.data
  invalid : B.valid = false → B.dirty = false ∧ disk = contents

/-- What holds of the buffers and the disk. -/
structure Stored (s : State α) : Prop where
  order : ∀ b, b ∈ s.order
  unique : ∀ {b c : BufId} {dev blockno}, dev ≠ noDev → (s.buf b).Caches dev blockno →
    (s.buf c).Caches dev blockno → b = c
  good : ∀ {b dev blockno}, dev ≠ noDev → (s.buf b).Caches dev blockno →
    (s.buf b).Good (s.disk dev blockno) (s.released dev blockno) (s.unsaved b)
  uncached : ∀ {dev blockno}, dev ≠ noDev → (∀ b, ¬ (s.buf b).Caches dev blockno) →
    s.disk dev blockno = s.released dev blockno

/-- What holds of the buffers that processes use. -/
structure Used (s : State α) : Prop where
  asked : ∀ {p dev blockno}, s.pc p = .loop dev blockno ∨ (∃ b, s.pc p = .asleep b dev blockno) →
    dev ≠ noDev
  got : ∀ {p b dev blockno}, s.pc p = .got b dev blockno → dev ≠ noDev ∧
    (s.buf b).Caches dev blockno ∧
    ((s.buf b).valid = true → (s.buf b).data = s.released dev blockno)
  held : ∀ {p b}, b ∈ s.held p → (s.buf b).dev ≠ noDev ∧ (s.buf b).valid = true
  busy : ∀ {p b}, s.Holds p b → (s.buf b).busy = true
  exclusive : ∀ {p q b}, s.Holds p b → s.Holds q b → p = q
  apart : ∀ {p b dev blockno}, s.pc p = .got b dev blockno → b ∉ s.held p
  writing : ∀ {p b}, s.pc p = .writing b → b ∈ s.held p ∧ (s.buf b).dirty = true

section
variable {s s' : State α} {p q : Nat} {b c : BufId} {dev blockno : UInt32}

/-- A step that changes one buffer, not the block it is for, and this block. -/
theorem Stored.update (h : Stored s) (horder : ∀ c, c ∈ s'.order)
    (hbuf : s'.buf = update s.buf b B) (hunsaved : ∀ c, c ≠ b → s'.unsaved c = s.unsaved c)
    (hdev : B.dev = (s.buf b).dev ∧ B.blockno = (s.buf b).blockno)
    (hdisk : ∀ {dev blockno}, ¬ (s.buf b).Caches dev blockno →
      s'.disk dev blockno = s.disk dev blockno ∧ s'.released dev blockno = s.released dev blockno)
    (hgood : ∀ {dev blockno}, dev ≠ noDev → (s.buf b).Caches dev blockno →
      B.Good (s'.disk dev blockno) (s'.released dev blockno) (s'.unsaved b)) : Stored s' := by
  have hb : s'.buf b = B := by rw [hbuf, update_self]
  have hother {c : BufId} (hc : c ≠ b) : s'.buf c = s.buf c := by
    rw [hbuf, update_of_ne hc]
  have hcaches {c : BufId} {dev blockno : UInt32} :
      (s'.buf c).Caches dev blockno ↔ (s.buf c).Caches dev blockno := by
    rcases eq_or_ne c b with rfl | hc
    · rw [hb, Buf.Caches, Buf.Caches, hdev.1, hdev.2]
    · rw [hother hc]
  refine ⟨horder, fun hd h1 h2 => h.unique hd (hcaches.1 h1) (hcaches.1 h2),
    fun {c d n} hd hc => ?_,
    fun {d n} hd hno => ?_⟩
  · have hc' := hcaches.1 hc
    rcases eq_or_ne c b with rfl | hcb
    · rw [hb]
      exact hgood hd hc'
    · have hnot : ¬ (s.buf b).Caches d n := fun hb => hcb (h.unique hd hc' hb)
      rw [hother hcb, hunsaved c hcb, (hdisk hnot).1, (hdisk hnot).2]
      exact h.good hd hc'
  · have hnot : ¬ (s.buf b).Caches d n := fun hb => hno b (hcaches.2 hb)
    rw [(hdisk hnot).1, (hdisk hnot).2]
    exact h.uncached hd fun c hc => hno c (hcaches.2 hc)

/-- A step that changes no buffer. -/
theorem Stored.same (h : Stored s) (hbuf : s'.buf = s.buf) (horder : s'.order = s.order)
    (hdisk : s'.disk = s.disk) (hrel : s'.released = s.released) (huns : s'.unsaved = s.unsaved) :
    Stored s' := by
  obtain ⟨h1, h2, h3, h4⟩ := h
  constructor
  · rwa [horder]
  · rwa [hbuf]
  · rwa [hbuf, hdisk, hrel, huns]
  · rwa [hbuf, hdisk, hrel]

/-- The block of a buffer that may be recycled is as on the disk. -/
theorem Stored.recyclable (h : Stored s) (hbusy : (s.buf b).busy = false)
    (hdirty : (s.buf b).dirty = false) (hd : dev ≠ noDev) (hc : (s.buf b).Caches dev blockno) :
    s.disk dev blockno = s.released dev blockno := by
  have hg := h.good hd hc
  obtain ⟨hv, hdata, hu⟩ := hg.idle hbusy
  rw [hg.synced hv hdirty hu, hdata]

/-- `bget` recycles a buffer for a block that has none. -/
theorem Stored.recycle (h : Stored s) (hbusy : (s.buf b).busy = false)
    (hdirty : (s.buf b).dirty = false) (hno : ∀ c, ¬ (s.buf c).Caches dev blockno)
    (hd : dev ≠ noDev) : Stored (s.setBuf b
      { s.buf b with dev, blockno, busy := true, valid := false, dirty := false }) := by
  have hcaches {c : BufId} {d n : UInt32} (hc : ((s.setBuf b { s.buf b with
        dev, blockno, busy := true, valid := false, dirty := false }).buf c).Caches d n) :
      c = b ∧ d = dev ∧ n = blockno ∨ c ≠ b ∧ (s.buf c).Caches d n := by
    rcases eq_or_ne c b with rfl | hcb
    · simp only [State.setBuf, update_self, Buf.Caches] at hc
      exact .inl ⟨rfl, hc.1.symm, hc.2.symm⟩
    · simp only [State.setBuf, update_of_ne hcb] at hc
      exact .inr ⟨hcb, hc⟩
  refine ⟨h.order, fun {c c' d n} hd' h1 h2 => ?_, fun {c d n} hd' hc => ?_,
    fun {d n} hd' hno' => ?_⟩
  · rcases hcaches h1 with ⟨rfl, rfl, rfl⟩ | ⟨hcb, h1'⟩
    · rcases hcaches h2 with ⟨rfl, -, -⟩ | ⟨-, h2'⟩
      · rfl
      · exact absurd h2' (hno c')
    · rcases hcaches h2 with ⟨rfl, rfl, rfl⟩ | ⟨-, h2'⟩
      · exact absurd h1' (hno c)
      · exact h.unique hd' h1' h2'
  · rcases hcaches hc with ⟨rfl, rfl, rfl⟩ | ⟨hcb, hc⟩
    · simp only [State.setBuf, update_self]
      exact ⟨nofun, nofun, fun _ => ⟨rfl, h.uncached hd hno⟩⟩
    · simp only [State.setBuf, update_of_ne hcb]
      exact h.good hd' hc
  · by_cases hb : (s.buf b).Caches d n
    · exact h.recyclable hbusy hdirty hd' hb
    refine h.uncached hd' fun c hc => ?_
    rcases eq_or_ne c b with rfl | hcb
    · exact hb hc
    · refine hno' c ?_
      simpa only [State.setBuf, update_of_ne hcb] using hc

/-- A step in which processes go on without getting a buffer. -/
theorem Used.goto (h : Used s) {c : Nat → Pc}
    (hasked : ∀ {q dev blockno}, c q = .loop dev blockno ∨ (∃ b, c q = .asleep b dev blockno) →
      dev ≠ noDev)
    (hgot : ∀ {q b dev blockno}, c q = .got b dev blockno → s.pc q = .got b dev blockno)
    (hwriting : ∀ {q b}, c q = .writing b → s.pc q = .writing b) : Used { s with pc := c } := by
  have hholds {q : Nat} {b : BufId} (hq : State.Holds { s with pc := c } q b) : s.Holds q b := by
    rcases hq with hq | ⟨d, n, hq⟩
    · exact .inl hq
    · exact .inr ⟨d, n, hgot hq⟩
  exact ⟨hasked, fun hq => h.got (hgot hq), h.held, fun hq => h.busy (hholds hq),
    fun hp hq => h.exclusive (hholds hp) (hholds hq), fun hq => h.apart (hgot hq),
    fun hq => h.writing (hwriting hq)⟩

theorem woken_cases (b : BufId) (c : Pc) :
    State.woken b c = c ∨ ∃ dev blockno, c = .asleep b dev blockno ∧
      State.woken b c = .loop dev blockno := by
  cases c with
  | asleep b' dev blockno =>
    simp only [State.woken]
    split
    · next hb => exact .inr ⟨dev, blockno, by rw [hb], rfl⟩
    · exact .inl rfl
  | out | loop | got | writing => exact .inl rfl

theorem Used.wakeup (h : Used s) (b : BufId) : Used (s.wakeup b) := by
  refine h.goto (fun {q d n} hq => ?_) (fun {q c d n} hq => ?_) fun {q c} hq => ?_
  · rcases woken_cases b (s.pc q) with he | ⟨d', n', hs, he⟩
    · rw [he] at hq
      exact h.asked hq
    · rw [he] at hq
      obtain ⟨⟨⟩⟩ | ⟨b', ⟨⟩⟩ := hq
      exact h.asked (.inr ⟨b, hs⟩)
  · rcases woken_cases b (s.pc q) with he | ⟨d', n', -, he⟩ <;> rw [he] at hq
    · exact hq
    · cases hq
  · rcases woken_cases b (s.pc q) with he | ⟨d', n', -, he⟩ <;> rw [he] at hq
    · exact hq
    · cases hq

/-- One process goes on without getting a buffer. -/
theorem Used.goto_one (h : Used s) {c : Pc} (hasked : ∀ {dev blockno},
      c = .loop dev blockno ∨ (∃ b, c = .asleep b dev blockno) → dev ≠ noDev)
    (hgot : ∀ {b dev blockno}, c ≠ .got b dev blockno) (hwriting : ∀ {b}, c ≠ .writing b) :
    Used (s.goto p c) := by
  refine h.goto (fun {q d n} hq => ?_) (fun {q b d n} hq => ?_) fun {q b} hq => ?_
  · rw [update_apply] at hq
    split at hq
    · exact hasked hq
    · exact h.asked hq
  · rw [update_apply] at hq
    split at hq
    · exact absurd hq hgot
    · exact hq
  · rw [update_apply] at hq
    split at hq
    · exact absurd hq hwriting
    · exact hq

/-- `bget` takes a buffer that no process has. -/
theorem Used.take (h : Used s) (hbusy : (s.buf b).busy = false) (hB : B.busy = true)
    (hd : dev ≠ noDev) (hc : B.Caches dev blockno)
    (hdata : B.valid = true → B.data = s.released dev blockno) :
    Used ((s.setBuf b B).goto p (.got b dev blockno)) := by
  have hne {q : Nat} {c : BufId} (hq : s.Holds q c) : c ≠ b := by
    rintro rfl
    rw [h.busy hq] at hbusy
    cases hbusy
  have hbuf {c : BufId} (hcb : c ≠ b) : update s.buf b B c = s.buf c :=
    update_of_ne hcb _ _
  have hpc {q : Nat} (hq : q ≠ p) :
      update s.pc p (.got b dev blockno) q = s.pc q := update_of_ne hq _ _
  have hholds {q : Nat} {c : BufId} (hq : ((s.setBuf b B).goto p (.got b dev blockno)).Holds q c) :
      q = p ∧ c = b ∨ c ≠ b ∧ s.Holds q c := by
    rcases hq with hq | ⟨d, n, hq⟩
    · exact .inr ⟨hne (.inl hq), .inl hq⟩
    rcases eq_or_ne q p with rfl | hqp
    · simp only [State.goto, update_self] at hq
      cases hq
      exact .inl ⟨rfl, rfl⟩
    · simp only [State.goto, hpc hqp, State.setBuf] at hq
      exact .inr ⟨hne (.inr ⟨d, n, hq⟩), .inr ⟨d, n, hq⟩⟩
  constructor
  case asked =>
    intro q d n hq
    rcases eq_or_ne q p with rfl | hqp
    · simp [State.goto] at hq
    · simp only [State.goto, hpc hqp, State.setBuf] at hq
      exact h.asked hq
  case got =>
    intro q c d n hq
    rcases eq_or_ne q p with rfl | hqp
    · simp only [State.goto, update_self] at hq
      cases hq
      simp only [State.goto, State.setBuf, update_self]
      exact ⟨hd, hc, hdata⟩
    · simp only [State.goto, hpc hqp, State.setBuf] at hq
      have hcb : c ≠ b := hne (.inr ⟨d, n, hq⟩)
      simp only [State.goto, State.setBuf, hbuf hcb]
      exact h.got hq
  case held =>
    intro q c hq
    have hcb : c ≠ b := hne (q := q) (.inl hq)
    simp only [State.goto, State.setBuf, hbuf hcb]
    exact h.held hq
  case busy =>
    intro q c hq
    rcases hholds hq with ⟨-, rfl⟩ | ⟨hcb, hq⟩
    · simpa only [State.goto, State.setBuf, update_self] using hB
    · simp only [State.goto, State.setBuf, hbuf hcb]
      exact h.busy hq
  case exclusive =>
    intro q r c hq hr
    rcases hholds hq with ⟨rfl, rfl⟩ | ⟨hcb, hq'⟩
    · rcases hholds hr with ⟨rfl, -⟩ | ⟨hcb, -⟩
      · rfl
      · exact absurd rfl hcb
    · rcases hholds hr with ⟨-, hcb'⟩ | ⟨-, hr'⟩
      · exact absurd hcb' hcb
      · exact h.exclusive hq' hr'
  case apart =>
    intro q c d n hq
    rcases eq_or_ne q p with rfl | hqp
    · simp only [State.goto, update_self] at hq
      cases hq
      exact fun hb => hne (q := q) (.inl hb) rfl
    · simp only [State.goto, hpc hqp, State.setBuf] at hq
      exact h.apart hq
  case writing =>
    intro q c hq
    rcases eq_or_ne q p with rfl | hqp
    · simp [State.goto] at hq
    simp only [State.goto, hpc hqp, State.setBuf] at hq
    have hw := h.writing hq
    have hcb : c ≠ b := hne (q := q) (.inl hw.1)
    simp only [State.goto, State.setBuf, hbuf hcb]
    exact hw

/-- What process `p`, which has the buffer, may do with it and go on to. -/
structure Touches (s : State α) (p : Nat) (b : BufId) (B : Buf α) (c : Pc) : Prop where
  busy : B.busy = true
  valid : B.valid = true
  same : B.dev = (s.buf b).dev ∧ B.blockno = (s.buf b).blockno
  got : ∀ {c' dev blockno}, c = .got c' dev blockno → s.pc p = c ∧ c' = b ∧
    B.data = s.released dev blockno
  writing : ∀ {c'}, c = .writing c' → c' = b ∧ b ∈ s.held p ∧ B.dirty = true
  awake : ∀ {e dev blockno}, c ≠ .loop dev blockno ∧ c ≠ .asleep e dev blockno

theorem Used.touch (h : Used s) (hp : s.Holds p b) (ht : Touches s p b B (s'.pc p))
    (hbuf : s'.buf = update s.buf b B) (hheld : s'.held = s.held)
    (hrel : s'.released = s.released) (hpc : ∀ q, q ≠ p → s'.pc q = s.pc q) : Used s' := by
  have hb : s'.buf b = B := by rw [hbuf, update_self]
  have hother {c : BufId} (hc : c ≠ b) : s'.buf c = s.buf c := by
    rw [hbuf, update_of_ne hc]
  have hne {q : Nat} {c : BufId} (hq : s.Holds q c) (hqp : q ≠ p) : c ≠ b := by
    rintro rfl
    exact hqp (h.exclusive hq hp)
  have hholds {q : Nat} {c : BufId} (hq : s'.Holds q c) : s.Holds q c := by
    rcases hq with hq | ⟨d, n, hq⟩
    · exact .inl (hheld ▸ hq)
    · rcases eq_or_ne q p with rfl | hqp
      · exact .inr ⟨d, n, (ht.got hq).1.trans hq⟩
      · exact .inr ⟨d, n, (hpc q hqp).symm.trans hq⟩
  constructor
  case asked =>
    intro q d n hq
    rcases eq_or_ne q p with rfl | hqp
    · rcases hq with hq | ⟨c, hq⟩
      · exact absurd hq (ht.awake (e := b)).1
      · exact absurd hq ht.awake.2
    · rw [hpc q hqp] at hq
      exact h.asked hq
  case got =>
    intro q c d n hq
    rw [hrel]
    rcases eq_or_ne q p with rfl | hqp
    · obtain ⟨hs, rfl, hdata⟩ := ht.got hq
      obtain ⟨hd, hc, -⟩ := h.got (hs.trans hq)
      rw [hb]
      exact ⟨hd, ⟨ht.same.1.trans hc.1, ht.same.2.trans hc.2⟩, fun _ => hdata⟩
    · rw [hpc q hqp] at hq
      rw [hother (hne (.inr ⟨d, n, hq⟩) hqp)]
      exact h.got hq
  case held =>
    intro q c hq
    rw [hheld] at hq
    rcases eq_or_ne c b with rfl | hcb
    · rw [hb, ht.same.1]
      exact ⟨(h.held hq).1, ht.valid⟩
    · rw [hother hcb]
      exact h.held hq
  case busy =>
    intro q c hq
    rcases eq_or_ne c b with rfl | hcb
    · rw [hb]
      exact ht.busy
    · rw [hother hcb]
      exact h.busy (hholds hq)
  case exclusive => exact fun hq hr => h.exclusive (hholds hq) (hholds hr)
  case apart =>
    intro q c d n hq
    rw [hheld]
    rcases eq_or_ne q p with rfl | hqp
    · exact h.apart ((ht.got hq).1.trans hq)
    · exact h.apart ((hpc q hqp).symm.trans hq)
  case writing =>
    intro q c hq
    rw [hheld]
    rcases eq_or_ne q p with rfl | hqp
    · obtain ⟨rfl, hin, hdirty⟩ := ht.writing hq
      rw [hb]
      exact ⟨hin, hdirty⟩
    · have hw := h.writing ((hpc q hqp).symm.trans hq)
      rw [hother (hne (.inl hw.1) hqp)]
      exact hw

/-! ## The steps -/

theorem put_of_caches {B : Buf α} (v : α) (hc : B.Caches dev blockno) :
    put f B.dev B.blockno v dev blockno = v := if_pos ⟨hc.1.symm, hc.2.symm⟩

theorem put_of_not_caches {B : Buf α} (v : α)
    (hc : ¬ B.Caches dev blockno) : put f B.dev B.blockno v dev blockno = f dev blockno :=
  if_neg fun h => hc ⟨h.1.symm, h.2.symm⟩

/-- The invariant. -/
structure Sound (s : State α) : Prop where
  stored : Stored s
  used : Used s

theorem Sound.stop (h : Sound s) (e : Panic) : Sound (s.stop e) :=
  ⟨h.stored.same rfl rfl rfl rfl rfl, h.used.asked, h.used.got, h.used.held, h.used.busy,
    h.used.exclusive, h.used.apart, h.used.writing⟩

theorem Sound.goto (h : Sound s) {c : Pc} (hasked : ∀ {dev blockno},
      c = .loop dev blockno ∨ (∃ b, c = .asleep b dev blockno) → dev ≠ noDev)
    (hgot : ∀ {b dev blockno}, c ≠ .got b dev blockno) (hwriting : ∀ {b}, c ≠ .writing b) :
    Sound (s.goto p c) :=
  ⟨h.stored.same rfl rfl rfl rfl rfl, h.used.goto_one hasked hgot hwriting⟩

theorem Sound.goto_loop (h : Sound s) (hd : dev ≠ noDev) :
    Sound (s.goto p (.loop dev blockno)) := by
  refine h.goto (fun {d n} hq => ?_) nofun nofun
  obtain ⟨⟨⟩⟩ | ⟨b, ⟨⟩⟩ := hq
  exact hd

theorem Sound.wakeup (h : Sound s) (b : BufId) : Sound (s.wakeup b) :=
  ⟨h.stored.same rfl rfl rfl rfl rfl, h.used.wakeup b⟩

theorem Sound.bget (h : Sound s) (hp : s.pc p = .loop dev blockno) :
    Sound (s.bget p dev blockno) := by
  have hd : dev ≠ noDev := h.used.asked (.inl hp)
  unfold State.bget
  split
  · next b hfind =>
    have hc : (s.buf b).Caches dev blockno := by simpa using List.find?_some hfind
    split
    · refine h.goto (fun {d n} hq => ?_) nofun nofun
      obtain ⟨⟨⟩⟩ | ⟨b', ⟨⟩⟩ := hq
      exact hd
    next hb =>
    have hbusy : (s.buf b).busy = false := Bool.eq_false_iff.2 hb
    refine ⟨?_, h.used.take hbusy rfl hd hc fun _ =>
      ((h.stored.good hd hc).idle hbusy).2.1⟩
    refine h.stored.update h.stored.order rfl (fun _ _ => rfl) ⟨rfl, rfl⟩ (fun _ => ⟨rfl, rfl⟩)
      fun {d n} hd' hc' => ?_
    have hg := h.stored.good hd' hc'
    exact ⟨nofun, hg.synced, hg.invalid⟩
  · next hnone =>
    have hno (c : BufId) : ¬ (s.buf c).Caches dev blockno := by
      have := List.find?_eq_none.1 hnone c (h.stored.order c)
      simpa using this
    split
    · next b hfind =>
      have hb : (s.buf b).busy = false ∧ (s.buf b).dirty = false := by
        simpa using List.find?_some hfind
      refine ⟨(h.stored.recycle hb.1 hb.2 hno hd).same rfl rfl rfl rfl rfl, ?_⟩
      exact h.used.take hb.1 rfl hd ⟨rfl, rfl⟩ nofun
    · exact h.stop _

theorem pc_wakeup {c : Pc} (hp : s.pc p = c) (hc : ∀ d n, c ≠ .asleep b d n) :
    (s.wakeup b).pc p = c := by
  rcases woken_cases b (s.pc p) with he | ⟨d, n, hs, -⟩
  · exact he.trans hp
  · exact absurd (hp.symm.trans hs) (hc d n)

/-- `iderw` for a `bread` that found the buffer not valid. -/
theorem Sound.iderw_read (h : Sound s) (hp : s.pc p = .got b dev blockno)
    (hv : (s.buf b).valid = false) : Sound (s.iderw p b (.got b dev blockno)) := by
  obtain ⟨hd, hc, -⟩ := h.used.got hp
  have hbusy := h.used.busy (.inr ⟨dev, blockno, hp⟩)
  obtain ⟨hdirty, hdisk⟩ := (h.stored.good hd hc).invalid hv
  have hs : s.iderw p b (.got b dev blockno) = ((s.wakeup b).setBuf b
      { s.buf b with valid := true, data := s.disk (s.buf b).dev (s.buf b).blockno }).goto p
      (.got b dev blockno) := by
    have h1 : ¬ (!(s.buf b).busy) = true := by simp [hbusy]
    have h2 : ¬ ((s.buf b).valid && !(s.buf b).dirty) = true := by simp [hv]
    have h3 : ¬ (s.buf b).dirty = true := by simp [hdirty]
    simp only [State.iderw, if_neg h1, if_neg h2, if_neg h3]
    rfl
  have hw := h.wakeup b
  have hpw : (s.wakeup b).pc p = .got b dev blockno := pc_wakeup hp nofun
  rw [hs]
  refine ⟨hw.stored.update hw.stored.order rfl (fun _ _ => rfl) ⟨rfl, rfl⟩ (fun _ => ⟨rfl, rfl⟩)
    fun {d n} hd' hc' => ⟨fun hb => ?_, fun _ _ _ => ?_, nofun⟩,
    hw.used.touch (.inr ⟨dev, blockno, hpw⟩)
      (B := { s.buf b with valid := true, data := s.disk (s.buf b).dev (s.buf b).blockno })
      ⟨hbusy, rfl, ⟨rfl, rfl⟩, fun {c d n} hq => ?_, fun {c} hq => ?_, ?_⟩ rfl rfl rfl
      fun q hq => update_of_ne hq _ _⟩
  · exact absurd (hbusy.symm.trans hb) nofun
  · obtain ⟨rfl, rfl⟩ : (s.buf b).Caches d n := hc'
    rfl
  · simp only [State.goto, update_self] at hq ⊢
    cases hq
    refine ⟨hpw, rfl, ?_⟩
    show s.disk (s.buf b).dev (s.buf b).blockno = s.released dev blockno
    rw [hc.1, hc.2, hdisk]
  · simp [State.goto] at hq
  · simp [State.goto]

/-- `iderw` for a `bwrite`. -/
theorem Sound.iderw_write (h : Sound s) (hp : s.pc p = .writing b) : Sound (s.iderw p b .out) := by
  obtain ⟨hheld, hdirty⟩ := h.used.writing hp
  have hbusy := h.used.busy (.inl hheld)
  have hs : s.iderw p b .out = { (s.wakeup b).setBuf b
        { s.buf b with valid := true, dirty := false } with
      disk := put s.disk (s.buf b).dev (s.buf b).blockno (s.buf b).data
      unsaved := update s.unsaved b false }.goto p .out := by
    have h1 : ¬ (!(s.buf b).busy) = true := by simp [hbusy]
    have h2 : ¬ ((s.buf b).valid && !(s.buf b).dirty) = true := by simp [hdirty]
    simp only [State.iderw, if_neg h1, if_neg h2, if_pos hdirty]
    rfl
  have hw := h.wakeup b
  rw [hs]
  refine ⟨hw.stored.update hw.stored.order rfl (fun c hc => update_of_ne hc _ _)
    ⟨rfl, rfl⟩ (fun hc => ⟨put_of_not_caches _ hc, rfl⟩) fun {d n} hd' hc' =>
      ⟨fun hb => ?_, fun _ _ _ => put_of_caches _ hc', nofun⟩,
    hw.used.touch (.inl hheld) (B := { s.buf b with valid := true, dirty := false })
      ⟨hbusy, rfl, ⟨rfl, rfl⟩, fun {c d n} hq => ?_, fun {c} hq => ?_, ?_⟩ rfl rfl rfl
      fun q hq => update_of_ne hq _ _⟩
  · exact absurd (hbusy.symm.trans hb) nofun
  · simp [State.goto] at hq
  · simp [State.goto] at hq
  · simp [State.goto]

/-- Process `p`, in no call, changes a buffer that it has, and goes on to `bwrite` if it is dirty
then. -/
theorem Sound.change (h : Sound s) (hp : s.Free p b)
    (hbusy : B.busy = (s.buf b).busy) (hvalid : B.valid = (s.buf b).valid)
    (hdev : B.dev = (s.buf b).dev ∧ B.blockno = (s.buf b).blockno)
    (hsync : B.dirty = true ∨ u = true) (hbuf : s'.buf = update s.buf b B)
    (hrest : s'.order = s.order ∧ s'.disk = s.disk ∧ s'.held = s.held ∧ s'.released = s.released)
    (hunsaved : s'.unsaved = update s.unsaved b u) (hpc : ∀ q, q ≠ p → s'.pc q = s.pc q)
    (hout : s'.pc p = .out ∨ s'.pc p = .writing b ∧ B.dirty = true) : Sound s' := by
  obtain ⟨horder, hdisk, hheld, hrel⟩ := hrest
  have hb : (s.buf b).busy = true := h.used.busy (.inl hp.2)
  have hv : (s.buf b).valid = true := (h.used.held hp.2).2
  refine ⟨h.stored.update (horder ▸ h.stored.order) hbuf (fun c hc => ?_) hdev
    (fun _ => ⟨by rw [hdisk], by rw [hrel]⟩) fun {d n} hd' hc' =>
      ⟨fun hb' => ?_, fun _ hd hu => ?_, fun hv' => ?_⟩,
    h.used.touch (.inl hp.2) ⟨hbusy.trans hb, hvalid.trans hv, hdev, fun {c d n} hq => ?_,
      fun {c} hq => ?_, ?_⟩ hbuf hheld hrel hpc⟩
  · rw [hunsaved, update_of_ne hc]
  · rw [hbusy, hb] at hb'
    cases hb'
  · rw [hunsaved, update_self] at hu
    rcases hsync with hs | hs
    · rw [hs] at hd
      cases hd
    · rw [hs] at hu
      cases hu
  · rw [hvalid, hv] at hv'
    cases hv'
  · rcases hout with ho | ⟨ho, -⟩ <;> rw [ho] at hq <;> cases hq
  · rcases hout with ho | ⟨ho, hdirty⟩ <;> rw [ho] at hq <;> cases hq
    exact ⟨rfl, hp.2, hdirty⟩
  · rcases hout with ho | ⟨ho, -⟩ <;> rw [ho] <;> exact ⟨nofun, nofun⟩

/-- `bread` returns the buffer. -/
theorem Sound.ret (h : Sound s) (hp : s.pc p = .got b dev blockno) (hv : (s.buf b).valid = true) :
    Sound ({ s with held := update s.held p (insert b (s.held p)) }.goto p .out) := by
  refine ⟨h.stored.same rfl rfl rfl rfl rfl, ?_⟩
  have hpc {q : Nat} (hq : q ≠ p) : update s.pc p .out q = s.pc q :=
    update_of_ne hq _ _
  have hheld {q : Nat} {c : BufId}
      (hq : c ∈ update s.held p (insert b (s.held p)) q) : q = p ∧ c = b ∨ c ∈ s.held q := by
    rw [update_apply] at hq
    split at hq
    · next hqp =>
      subst hqp
      rcases Finset.mem_insert.1 hq with hq | hq
      · exact .inl ⟨rfl, hq⟩
      · exact .inr hq
    · exact .inr hq
  have hgot {q : Nat} {c : BufId} {d n : UInt32} (hq : update s.pc p .out q = .got c d n) :
      q ≠ p ∧ s.pc q = .got c d n := by
    rcases eq_or_ne q p with rfl | hqp
    · rw [update_self] at hq
      cases hq
    · exact ⟨hqp, (hpc hqp).symm.trans hq⟩
  have hholds {q : Nat} {c : BufId} (hq : State.Holds
      ({ s with held := update s.held p (insert b (s.held p)) }.goto p .out) q c) :
      s.Holds q c := by
    rcases hq with hq | ⟨d, n, hq⟩
    · rcases hheld hq with ⟨rfl, rfl⟩ | hq
      · exact .inr ⟨dev, blockno, hp⟩
      · exact .inl hq
    · exact .inr ⟨d, n, (hgot hq).2⟩
  constructor
  case asked =>
    intro q d n hq
    rcases eq_or_ne q p with rfl | hqp
    · simp [State.goto] at hq
    · simp only [State.goto, hpc hqp] at hq
      exact h.used.asked hq
  case got => exact fun hq => h.used.got (hgot hq).2
  case held =>
    intro q c hq
    rcases hheld hq with ⟨-, rfl⟩ | hq
    · obtain ⟨hd, hc, -⟩ := h.used.got hp
      exact ⟨fun hdev => hd (hc.1.symm.trans hdev), hv⟩
    · exact h.used.held hq
  case busy => exact fun hq => h.used.busy (hholds hq)
  case exclusive => exact fun hq hr => h.used.exclusive (hholds hq) (hholds hr)
  case apart =>
    intro q c d n hq
    obtain ⟨hqp, hq⟩ := hgot hq
    intro hc
    rcases hheld hc with ⟨hq', -⟩ | hc
    · exact hqp hq'
    · exact h.used.apart hq hc
  case writing =>
    intro q c hq
    rcases eq_or_ne q p with rfl | hqp
    · simp [State.goto] at hq
    · simp only [State.goto, hpc hqp] at hq
      obtain ⟨h1, h2⟩ := h.used.writing hq
      refine ⟨?_, h2⟩
      simpa only [State.goto, update_of_ne hqp] using h1

/-- Process `p` no longer has the buffer. -/
theorem Used.release (h : Used s) (hp : s.Free p b) (hbuf : s'.buf = update s.buf b B)
    (hheld : s'.held = update s.held p (s.held p \ {b})) (hpc : s'.pc = s.pc)
    (hrel : ∀ {dev blockno}, dev ≠ noDev → ¬ (s.buf b).Caches dev blockno →
      s'.released dev blockno = s.released dev blockno)
    (hunique : ∀ {c dev blockno}, dev ≠ noDev → (s.buf b).Caches dev blockno →
      (s.buf c).Caches dev blockno → c = b) : Used s' := by
  have hother {c : BufId} (hc : c ≠ b) : s'.buf c = s.buf c := by
    rw [hbuf, update_of_ne hc]
  have hin {q : Nat} {c : BufId} : c ∈ s'.held q ↔ c ∈ s.held q ∧ ¬ (q = p ∧ c = b) := by
    rw [hheld, update_apply]
    split
    · next hq => simp [hq]
    · next hq => simp [hq]
  have hholds {q : Nat} {c : BufId} (hq : s'.Holds q c) : s.Holds q c ∧ c ≠ b := by
    rcases hq with hq | ⟨d, n, hq⟩
    · obtain ⟨hq, hne⟩ := hin.1 hq
      refine ⟨.inl hq, ?_⟩
      rintro rfl
      exact hne ⟨h.exclusive (.inl hq) (.inl hp.2), rfl⟩
    rw [hpc] at hq
    refine ⟨.inr ⟨d, n, hq⟩, ?_⟩
    rintro rfl
    obtain rfl : q = p := h.exclusive (.inr ⟨d, n, hq⟩) (.inl hp.2)
    exact absurd (hp.1.symm.trans hq) nofun
  constructor
  case asked =>
    rw [hpc]
    exact h.asked
  case got =>
    intro q c d n hq
    have hcb := (hholds (.inr ⟨d, n, hq⟩)).2
    rw [hpc] at hq
    obtain ⟨hd, hc, hdata⟩ := h.got hq
    rw [hother hcb, hrel hd fun hb => hcb (hunique hd hb hc)]
    exact ⟨hd, hc, hdata⟩
  case held =>
    intro q c hq
    rw [hother (hholds (.inl hq)).2]
    exact h.held (hin.1 hq).1
  case busy =>
    intro q c hq
    obtain ⟨hq, hcb⟩ := hholds hq
    rw [hother hcb]
    exact h.busy hq
  case exclusive => exact fun hq hr => h.exclusive (hholds hq).1 (hholds hr).1
  case apart =>
    intro q c d n hq hc
    rw [hpc] at hq
    exact h.apart hq (hin.1 hc).1
  case writing =>
    intro q c hq
    rw [hpc] at hq
    obtain ⟨hc, hdirty⟩ := h.writing hq
    have hne : ¬ (q = p ∧ c = b) := by
      rintro ⟨rfl, -⟩
      exact absurd (hp.1.symm.trans hq) nofun
    have hc' : c ∈ s'.held q := hin.2 ⟨hc, hne⟩
    rw [hother (hholds (.inl hc')).2]
    exact ⟨hc', hdirty⟩

theorem Sound.brelse (h : Sound s) (hp : s.Free p b)
    (hsaved : s.unsaved b = true → (s.buf b).dirty = true) : Sound (s.brelse p b) := by
  have hbusy := h.used.busy (.inl hp.2)
  obtain ⟨hdev, hvalid⟩ := h.used.held hp.2
  have hs : s.brelse p b = { (s.wakeup b).setBuf b { s.buf b with busy := false } with
      order := b :: s.order.erase b
      held := update s.held p (s.held p \ {b})
      released := put s.released (s.buf b).dev (s.buf b).blockno (s.buf b).data
      unsaved := update s.unsaved b false } := by
    simp only [State.brelse, if_pos hbusy]
    rfl
  have hw := h.wakeup b
  have hpw : (s.wakeup b).Free p b := ⟨pc_wakeup hp.1 nofun, hp.2⟩
  rw [hs]
  refine ⟨hw.stored.update (fun c => ?_) rfl (fun c hc => update_of_ne hc _ _) ⟨rfl, rfl⟩
    (fun hc => ⟨rfl, put_of_not_caches _ hc⟩) fun {d n} hd' hc' =>
      ⟨fun _ => ?_, fun _ hd _ => ?_, ?_⟩,
    hw.used.release hpw rfl rfl rfl (fun _ hc => put_of_not_caches _ hc)
      fun hd' hb hc => hw.stored.unique hd' hc hb⟩
  · rcases eq_or_ne c b with rfl | hcb
    · exact List.mem_cons_self
    · exact List.mem_cons_of_mem _ ((List.mem_erase_of_ne hcb).2 (h.stored.order c))
  · exact ⟨hvalid, (put_of_caches _ hc').symm, update_self ..⟩
  · have hu : s.unsaved b = false := by
      rw [← Bool.not_eq_true]
      intro hu
      exact absurd ((hsaved hu).symm.trans hd) nofun
    exact (h.stored.good hd' hc').synced hvalid hd hu
  · exact fun hv => absurd (hvalid.symm.trans hv) nofun

/-- Every step keeps the invariant. -/
theorem Sound.step (h : Sound s) (hg : Saves s a) (hs : next s a = some s') : Sound s' := by
  obtain ⟨-, hs⟩ : s.panic = none ∧ next? s a = some s' := by simpa [next] using hs
  cases a with
  | bread p dev blockno =>
    obtain ⟨-, rfl⟩ : s.pc p = .out ∧ _ = s' := by simpa [next?] using hs
    exact h.goto_loop hg
  | bget p =>
    simp only [next?] at hs
    split at hs <;> cases hs
    next hp => exact h.bget hp
  | iderw p =>
    simp only [next?] at hs
    split at hs
    · next b dev blockno hp =>
      split at hs <;> cases hs
      next hv => exact h.iderw_read hp (Bool.eq_false_iff.2 hv)
    · next b hp =>
      cases hs
      exact h.iderw_write hp
    · cases hs
  | ret p =>
    simp only [next?] at hs
    split at hs
    · next b dev blockno hp =>
      split at hs <;> cases hs
      next hv => exact h.ret hp hv
    · cases hs
  | modify p b v =>
    obtain ⟨hp, rfl⟩ : s.Free p b ∧ s.modify b v = s' := by simpa [next?] using hs
    exact h.change hp (B := { s.buf b with data := v }) rfl rfl ⟨rfl, rfl⟩ (.inr rfl)
      rfl ⟨rfl, rfl, rfl, rfl⟩ rfl (fun _ _ => rfl)
      (.inl hp.1)
  | log_write p b =>
    obtain ⟨hp, rfl⟩ : s.Free p b ∧ s.log_write b = s' := by simpa [next?] using hs
    exact h.change hp (B := { s.buf b with dirty := true }) rfl rfl ⟨rfl, rfl⟩ (.inl rfl)
      rfl ⟨rfl, rfl, rfl, rfl⟩
      (update_eq_self b s.unsaved).symm (fun _ _ => rfl) (.inl hp.1)
  | bwrite p b =>
    obtain ⟨hp, rfl⟩ : s.Free p b ∧ s.bwrite p b = s' := by simpa [next?] using hs
    have hbusy := h.used.busy (.inl hp.2)
    rw [State.bwrite, if_pos hbusy]
    exact h.change hp (B := { s.buf b with dirty := true }) rfl rfl ⟨rfl, rfl⟩ (.inl rfl)
      rfl ⟨rfl, rfl, rfl, rfl⟩
      (update_eq_self b s.unsaved).symm (fun q hq => update_of_ne hq _ _)
      (.inr ⟨update_self .., rfl⟩)
  | brelse p b =>
    obtain ⟨hp, rfl⟩ : s.Free p b ∧ s.brelse p b = s' := by simpa [next?] using hs
    exact h.brelse hp hg
  | kill p =>
    simp only [next?] at hs
    split at hs <;> cases hs
    next hp => exact h.goto_loop (h.used.asked (.inr ⟨_, hp⟩))

end

theorem sound_initial (disk : UInt32 → UInt32 → α) (v : α) : Sound (initial disk v) := by
  have hno {b : BufId} {dev blockno : UInt32} (hd : dev ≠ noDev) :
      ¬ ((initial disk v).buf b).Caches dev blockno := fun hc => hd hc.1.symm
  have hholds {p : Nat} {b : BufId} : ¬ (initial disk v).Holds p b := by
    rintro (hp | ⟨d, n, hp⟩)
    · cases hp
    · cases hp
  refine ⟨⟨fun b => ?_, fun hd hb => absurd hb (hno hd), fun hd hb => absurd hb (hno hd),
    fun _ _ => rfl⟩, ?_, nofun, nofun, fun hp => absurd hp hholds,
      fun hp => absurd hp hholds, nofun,
    nofun⟩
  · exact List.mem_reverse.2 (List.mem_finRange b)
  · rintro p d n (⟨⟨⟩⟩ | ⟨b, ⟨⟩⟩)

/-- **The cache is transparent**, in every interleaving of calls on devices in which every buffer
that was modified is written or logged before it is released. -/
theorem transparent {s : State α} (h : ((system α).restrict Saves).Reach s) : Transparent s := by
  have hI : Sound s := by
    refine h.invariant (I := Sound) (fun s hi => ?_) fun s a s' hI hs => ?_
    · obtain ⟨disk, v, rfl⟩ := hi
      exact sound_initial disk v
    · exact hI.step hs.1 hs.2
  refine ⟨hI.stored.unique, hI.used.exclusive, hI.used.busy, fun hr => ?_⟩
  obtain ⟨-, hc, hdata⟩ := hI.used.got hr.1
  exact ⟨hc, hdata hr.2⟩

/-- Process 1 waits for the buffer of a block that process 0 reads, changes and logs. -/
def readChangeRead : List (Act Nat) :=
  [.bread 0 1 5, .bget 0, .bread 1 1 5, .bget 1, .iderw 0, .ret 0, .modify 0 0 7, .log_write 0 0,
    .brelse 0 0, .bget 1]

/-- `transparent` on the run of `readChangeRead`. -/
theorem transparent_readChangeRead : ∃ s : State Nat, ((system Nat).restrict Saves).Reach s ∧
    s.Returns 1 1 5 0 ∧ (s.buf 0).data = 7 ∧ Transparent s := by
  obtain ⟨s, hreach, h1, h2, h3⟩ := (system Nat).exists_reach Saves next (initial (fun _ _ => 3) 0)
    readChangeRead (Q := fun s => s.pc 1 = .got 0 1 5 ∧ (s.buf 0).valid = true ∧ (s.buf 0).data = 7)
    rfl ⟨_, _, rfl⟩ (by decide +kernel)
  exact ⟨s, hreach, ⟨h1, h2⟩, h3, transparent hreach⟩

end Msboss.Bio
