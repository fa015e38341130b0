import Msboss.Lib.System
import Msboss.Lib.Ring

/-!
# Pipes

`pipewrite`, `piperead` and `pipeclose` of `pipe.c` on one pipe, by any number of processes. A call
holds `p->lock` from its `acquire` to its `release`, except while it sleeps; what it does in between
is taken one loop iteration at a time. A process that is woken, or killed in its sleep, wants the
lock again and goes on with the test it went to sleep in.

The pipe is a ring buffer with wrapping counters, so its contents are told by the library
(`Ring.Queue`) from two histories: the bytes that writers have stored and the bytes that readers
have been given. `Sound` is kept by every step, and `fifo` reads the guarantees off it. So is
`NoneMissed`: who sleeps has something to wait for, or will be woken by the process that has the
lock (`no_wakeup_lost`).
-/

namespace Msboss.Pipes

open Function

/-- Bytes in the buffer of a pipe. -/
def PIPESIZE : Nat := 512

/-- `struct pipe`, but for its lock. -/
structure Pipe extends Ring UInt8 where
  readopen : Bool
  writeopen : Bool

/-- Where a call tests whether it can go on, and sleeps if not. -/
inductive Gate
  /-- `pipewrite(p, addr, n)` with `i` bytes stored. -/
  | fill (addr : Nat → UInt8) (n : Int) (i : Nat)
  /-- `piperead(p, _, n)` before it has read anything. -/
  | drain (n : Int)

/-- What a process is doing. -/
inductive Pc
  /-- It is in no call on the pipe. -/
  | idle
  /-- It wants the lock. -/
  | wants (g : Gate)
  /-- It has the lock. -/
  | holds (g : Gate)
  /-- It sleeps, on `&p->nwrite` in `fill` and on `&p->nread` in `drain`. -/
  | asleep (g : Gate)
  /-- It has the lock and has copied `i` bytes of `n`. -/
  | copying (n : Int) (i : Nat)

/-- What becomes of a process whose state is set to `RUNNABLE`. -/
def Pc.woken : Pc → Pc
  | .asleep g => .wants g
  | c => c

/-- The two channels. -/
inductive Chan
  | nread
  | nwrite
  deriving DecidableEq

/-- The channel a call sleeps on. -/
def Gate.chan : Gate → Chan
  | .fill .. => .nwrite
  | .drain _ => .nread

/-- The pipe, its lock, the processes, and what has been stored and given to readers. -/
structure State where
  pipe : Pipe
  lock : Option Nat
  pc : Nat → Pc
  killed : Nat → Bool
  stored : List UInt8
  given : List UInt8

namespace State

/-- Process `p` goes on at `c`. -/
def goto (s : State) (p : Nat) (c : Pc) : State := { s with pc := update s.pc p c }

/-- `wakeup(chan)`. -/
def wakeup (s : State) (c : Chan) : State :=
  { s with
    pc := fun q => match s.pc q with
      | .asleep g => if g.chan = c then .wants g else .asleep g
      | x => x }

/-- Process `p` releases the lock and goes on at `c`: to sleep, or out of the call. -/
def release (s : State) (p : Nat) (c : Pc) : State := { s.goto p c with lock := none }

/-- What process `p`, which has the lock, does next, and the value it returns if it leaves the
call. -/
def run (s : State) (p : Nat) : Option (State × Option Int) :=
  match s.pc p with
  | .holds (.fill addr n i) =>
    if i < n then
      if s.pipe.nwrite = s.pipe.nread + UInt32.ofNat PIPESIZE then
        if s.pipe.readopen = false ∨ s.killed p then some (s.release p .idle, some (-1))
        else some ((s.wakeup .nread).release p (.asleep (.fill addr n i)), none)
      else
        some ({ s.goto p (.holds (.fill addr n (i + 1))) with
          pipe := { s.pipe with toRing := s.pipe.push PIPESIZE (addr i) }
          stored := s.stored ++ [addr i] }, none)
    else some ((s.wakeup .nread).release p .idle, some n)
  | .holds (.drain n) =>
    if s.pipe.nread = s.pipe.nwrite ∧ s.pipe.writeopen then
      if s.killed p then some (s.release p .idle, some (-1))
      else some (s.release p (.asleep (.drain n)), none)
    else some (s.goto p (.copying n 0), none)
  | .copying n i =>
    if i < n ∧ s.pipe.nread ≠ s.pipe.nwrite then
      some ({ s.goto p (.copying n (i + 1)) with
        pipe := { s.pipe with toRing := s.pipe.pop }
        given := s.given ++ [s.pipe.front PIPESIZE] }, none)
    else some ((s.wakeup .nwrite).release p .idle, some i)
  | _ => none

/-- `pipeclose(p, writable)`, but for the `kfree`. -/
def pipeclose (s : State) (writable : Bool) : State :=
  if writable then { s with pipe := { s.pipe with writeopen := false } }.wakeup .nread
  else { s with pipe := { s.pipe with readopen := false } }.wakeup .nwrite

end State

/-- The steps. -/
inductive Act
  | pipewrite (p : Nat) (addr : Nat → UInt8) (n : Int)
  | piperead (p : Nat) (n : Int)
  | acquire (p : Nat)
  | run (p : Nat)
  | pipeclose (writable : Bool)
  | kill (p : Nat)

/-- The step `a`, if it is possible. -/
def next (s : State) : Act → Option State
  | .pipewrite p addr n =>
    match s.pc p with
    | .idle => some (s.goto p (.wants (.fill addr n 0)))
    | _ => none
  | .piperead p n =>
    match s.pc p with
    | .idle => some (s.goto p (.wants (.drain n)))
    | _ => none
  | .acquire p =>
    match s.pc p, s.lock with
    | .wants g, none => some { s.goto p (.holds g) with lock := some p }
    | _, _ => none
  | .run p => (s.run p).map Prod.fst
  | .pipeclose writable => if s.lock = none then some (s.pipeclose writable) else none
  | .kill p => some
    { s with
      killed := update s.killed p true
      pc := update s.pc p (s.pc p).woken }

/-- The pipe that `pipealloc` makes. -/
structure Fresh (s : State) : Prop where
  nread : s.pipe.nread = 0
  nwrite : s.pipe.nwrite = 0
  readopen : s.pipe.readopen = true
  writeopen : s.pipe.writeopen = true
  lock : s.lock = none
  pc : ∀ p, s.pc p = .idle
  stored : s.stored = []
  given : s.given = []

/-- Every interleaving of the calls on a new pipe. -/
def system : System State Act := .ofNext Fresh next

/-! ## The guarantees -/

/-- The call that process `p` is in, a read of `n` bytes, returns the value `v` now. -/
def State.ReadReturns (s : State) (p : Nat) (n v : Int) : Prop :=
  ((∃ i, s.pc p = .copying n i) ∨ s.pc p = .holds (.drain n)) ∧
    ∃ s', s.run p = some (s', some v)

/-- What the users of a pipe rely on. -/
structure Fifo (s : State) : Prop where
  /-- The buffer never holds more than it has room for. -/
  bounded : (s.pipe.nwrite - s.pipe.nread).toNat ≤ PIPESIZE
  /-- Readers get what writers have stored, in that order. -/
  order : s.given <+: s.stored
  /-- What they have not got is in the buffer. -/
  kept : s.stored.length = s.given.length + (s.pipe.nwrite - s.pipe.nread).toNat
  /-- A read ends with 0 bytes at the end of the file only. -/
  eof : ∀ {p : Nat} {n : Int}, s.ReadReturns p n 0 → 0 < n →
    s.pipe.nread = s.pipe.nwrite ∧ s.pipe.writeopen = false

/-! ## The invariant -/

/-- The buffer is the queue of what is stored and not given yet; who is inside has the lock; and a
read that starts to copy finds something, or the other end closed. -/
structure Sound (s : State) : Prop where
  queue : s.pipe.toRing.Queue PIPESIZE s.stored s.given
  holds : ∀ {p : Nat} {g : Gate}, s.pc p = .holds g → s.lock = some p
  copying : ∀ {p : Nat} {n : Int} {i : Nat}, s.pc p = .copying n i → s.lock = some p
  start : ∀ {p : Nat} {n : Int}, s.pc p = .copying n 0 →
    s.pipe.nread ≠ s.pipe.nwrite ∨ s.pipe.writeopen = false

section
variable {s s' : State} {p q : Nat} {c : Pc}

theorem Fresh.sound (h : Fresh s) : Sound s where
  queue := by
    rw [h.stored, h.given]
    exact .init h.nread h.nwrite
  holds hp := by rw [h.pc] at hp; cases hp
  copying hp := by rw [h.pc] at hp; cases hp
  start hp := by rw [h.pc] at hp; cases hp

theorem woken_holds : c.woken = .holds g ↔ c = .holds g := by
  cases c <;> simp [Pc.woken]

theorem woken_copying : c.woken = .copying n i ↔ c = .copying n i := by
  cases c <;> simp [Pc.woken]

/-- `wakeup` lets nobody in. -/
theorem wakeup_holds : (s.wakeup ch).pc p = .holds g ↔ s.pc p = .holds g := by
  simp only [State.wakeup]
  split
  · split <;> simp_all
  · rfl

theorem wakeup_copying : (s.wakeup ch).pc p = .copying n i ↔ s.pc p = .copying n i := by
  simp only [State.wakeup]
  split
  · split <;> simp_all
  · rfl

/-- Nobody but `p` is inside while `p` has the lock. -/
structure Alone (s : State) (p : Nat) : Prop where
  holds : ∀ {q : Nat} {g : Gate}, s.pc q = .holds g → q = p
  copying : ∀ {q : Nat} {n : Int} {i : Nat}, s.pc q = .copying n i → q = p

theorem Sound.alone (h : Sound s) (hl : s.lock = some p) : Alone s p where
  holds hq := by simpa [hl] using (h.holds hq).symm
  copying hq := by simpa [hl] using (h.copying hq).symm

theorem Alone.wakeup (h : Alone s p) (ch : Chan) : Alone (s.wakeup ch) p where
  holds hq := h.holds (wakeup_holds.1 hq)
  copying hq := h.copying (wakeup_copying.1 hq)

/-- Process `p` leaves the pipe alone: it lets go of the lock. -/
theorem Sound.release (hq : s.pipe.toRing.Queue PIPESIZE s.stored s.given) (ha : Alone s p)
    (hc : ∀ g, c ≠ .holds g) (hc' : ∀ n i, c ≠ .copying n i) : Sound (s.release p c) := by
  have hpc (q : Nat) : (s.release p c).pc q = if q = p then c else s.pc q :=
    update_apply ..
  refine ⟨hq, fun {q g} h => ?_, fun {q n i} h => ?_, fun {q n} h => ?_⟩ <;>
    rw [hpc] at h <;> split at h
  · exact absurd h (hc g)
  · next hne => exact absurd (ha.holds h) hne
  · exact absurd h (hc' n i)
  · next hne => exact absurd (ha.copying h) hne
  · exact absurd h (hc' n 0)
  · next hne => exact absurd (ha.copying h) hne

/-- A process that is not inside does something that does not let it in. -/
theorem Sound.outside (h : Sound s) {c : Nat → Pc} (hh : ∀ q g, c q = .holds g → s.pc q = .holds g)
    (hc : ∀ q n i, c q = .copying n i → s.pc q = .copying n i) :
    Sound { s with pc := c, killed := k } where
  queue := h.queue
  holds hq := h.holds (hh _ _ hq)
  copying hq := h.copying (hc _ _ _ hq)
  start hq := h.start (hc _ _ _ hq)

theorem Sound.goto_wants (h : Sound s) (g : Gate) : Sound (s.goto p (.wants g)) := by
  refine h.outside (k := s.killed) (fun q g' hq => ?_) fun q n i hq => ?_ <;>
    rw [update_apply] at hq <;> split at hq
  · cases hq
  · exact hq
  · cases hq
  · exact hq

/-- Process `p` goes on with the lock, to `c`. -/
theorem Sound.inside (hl : s.lock = some p) (ha : Alone s p) (hq : r.Queue PIPESIZE stored given)
    (hc : ∀ n, c = .copying n 0 → r.nread ≠ r.nwrite ∨ s.pipe.writeopen = false) :
    Sound { s.goto p c with pipe := { s.pipe with toRing := r }, stored, given } := by
  have hpc (q : Nat) : (s.goto p c).pc q = if q = p then c else s.pc q :=
    update_apply ..
  refine ⟨hq, fun {q g} h => ?_, fun {q n i} h => ?_, fun {q n} h => ?_⟩ <;>
    simp only [hpc] at h <;> split at h
  · next he => rw [he]; exact hl
  · next hne => exact absurd (ha.holds h) hne
  · next he => rw [he]; exact hl
  · next hne => exact absurd (ha.copying h) hne
  · exact hc n h
  · next hne => exact absurd (ha.copying h) hne

/-- What the process with the lock does. -/
theorem Sound.run {v : Option Int} (h : Sound s) (hr : s.run p = some (s', v)) : Sound s' := by
  have hN : PIPESIZE < 2 ^ 32 := by decide
  have hdvd : PIPESIZE ∣ 2 ^ 32 := by decide
  unfold State.run at hr
  split at hr
  · -- `pipewrite`
    next addr n i hp =>
    have hl := h.holds hp
    have ha := h.alone hl
    split at hr
    · split at hr
      · split at hr <;> cases hr
        · exact .release h.queue ha (fun _ => nofun) fun _ _ => nofun
        · exact .release h.queue (ha.wakeup _) (fun _ => nofun) fun _ _ => nofun
      next hfull =>
      cases hr
      have hroom : s.stored.length < s.given.length + PIPESIZE :=
        lt_of_le_of_ne h.queue.size (mt (h.queue.full_iff hN).2 hfull)
      exact .inside hl ha (h.queue.push hdvd hroom _) fun _ => nofun
    · cases hr
      exact .release h.queue (ha.wakeup _) (fun _ => nofun) fun _ _ => nofun
  · -- `piperead`, before the copy
    next n hp =>
    have hl := h.holds hp
    have ha := h.alone hl
    split at hr
    · split at hr <;> cases hr <;>
        exact .release h.queue ha (fun _ => nofun) fun _ _ => nofun
    next hgo =>
    cases hr
    refine .inside hl ha h.queue fun _ _ => ?_
    rw [not_and_or, Bool.not_eq_true] at hgo
    exact hgo
  · -- `piperead`, the copy
    next n i hp =>
    have hl := h.copying hp
    have ha := h.alone hl
    split at hr
    · next hgo =>
      cases hr
      have hne : s.given ≠ s.stored := mt (h.queue.empty_iff hN).2 hgo.2
      exact .inside hl ha (h.queue.pop hdvd hne) fun _ => nofun
    · cases hr
      exact .release h.queue (ha.wakeup _) (fun _ => nofun) fun _ _ => nofun
  · cases hr

theorem Sound.wakeup (h : Sound s) (ch : Chan) : Sound (s.wakeup ch) :=
  h.outside (k := s.killed) (fun _ _ => wakeup_holds.1) fun _ _ _ => wakeup_copying.1

theorem Sound.step {a : Act} (h : Sound s) (hs : next s a = some s') : Sound s' := by
  cases a with
  | pipewrite p addr n =>
    simp only [next] at hs
    split at hs <;> cases hs
    exact h.goto_wants _
  | piperead p n =>
    simp only [next] at hs
    split at hs <;> cases hs
    exact h.goto_wants _
  | acquire p =>
    simp only [next] at hs
    split at hs <;> cases hs
    next g hp hl =>
    -- nobody is inside, since nobody has the lock
    have ha : Alone { s with lock := some p } p :=
      ⟨fun hq => by simp [h.holds hq] at hl, fun hq => by simp [h.copying hq] at hl⟩
    exact .inside (s := { s with lock := some p }) rfl ha h.queue fun _ => nofun
  | run p =>
    obtain ⟨⟨s1, v⟩, hr, rfl⟩ := Option.map_eq_some_iff.1 hs
    exact h.run hr
  | pipeclose writable =>
    simp only [next] at hs
    split at hs <;> cases hs
    unfold State.pipeclose
    split
    · have hw : Sound { s with pipe := { s.pipe with writeopen := false } } :=
        ⟨h.queue, h.holds, h.copying, fun _ => .inr rfl⟩
      exact hw.wakeup _
    · have hw : Sound { s with pipe := { s.pipe with readopen := false } } :=
        ⟨h.queue, h.holds, h.copying, h.start⟩
      exact hw.wakeup _
  | kill p =>
    cases hs
    refine h.outside (fun q g hq => ?_) fun q n i hq => ?_ <;>
      rw [update_apply] at hq <;> split at hq
    · next he => rw [he]; exact woken_holds.1 hq
    · exact hq
    · next he => rw [he]; exact woken_copying.1 hq
    · exact hq

/-- A read that returns 0 has found the end of the file. -/
theorem Sound.eof (h : Sound s) (hr : s.ReadReturns p n 0) (hn : 0 < n) :
    s.pipe.nread = s.pipe.nwrite ∧ s.pipe.writeopen = false := by
  obtain ⟨⟨i, hp⟩ | hp, s', hrun⟩ := hr
  · simp only [State.run, hp] at hrun
    split at hrun
    · cases hrun
    next hstop =>
    simp only [Option.some.injEq, Prod.mk.injEq, Nat.cast_eq_zero] at hrun
    obtain ⟨-, rfl⟩ := hrun
    have hempty : s.pipe.nread = s.pipe.nwrite := by
      by_contra hne
      exact hstop ⟨hn, hne⟩
    exact ⟨hempty, (h.start hp).resolve_left (not_not.2 hempty)⟩
  · simp only [State.run, hp] at hrun
    split at hrun
    · split at hrun <;> simp at hrun
    · simp at hrun

end

/-- **Pipes are loss-free bounded queues**, in every interleaving of calls on them. -/
theorem fifo {s : State} (h : system.Reach s) : Fifo s := by
  have hI : Sound s := h.invariant (I := Sound) (fun _ hf => Fresh.sound hf) fun _ _ _ hI hs =>
    hI.step hs
  have hcount := hI.queue.count (by decide)
  have hle := hI.queue.order.length_le
  refine ⟨?_, hI.queue.order, ?_, fun hr hn => hI.eof hr hn⟩
  · rw [hcount]
    exact Nat.sub_le_iff_le_add'.2 hI.queue.size
  · rw [hcount]
    exact (Nat.add_sub_cancel' hle).symm

/-- A new pipe. -/
def created : State where
  pipe := { data := fun _ => 0, nread := 0, nwrite := 0, readopen := true, writeopen := true }
  lock := none
  pc _ := .idle
  killed _ := false
  stored := []
  given := []

/-- Process 2 reads one of the two bytes that process 1 writes. -/
def writeRead : List Act :=
  [.piperead 2 1, .acquire 2, .run 2, .pipewrite 1 (fun i => if i = 0 then 104 else 105) 2,
    .acquire 1, .run 1, .run 1, .run 1, .acquire 2, .run 2, .run 2, .run 2]

/-- `fifo` on the run of `writeRead`. -/
theorem fifo_writeRead : ∃ s, system.Reach s ∧ s.stored = [104, 105] ∧ s.given = [104] ∧
    Fifo s := by
  have hfresh : Fresh created := ⟨rfl, rfl, rfl, rfl, rfl, fun _ => rfl, rfl, rfl⟩
  obtain ⟨s, hreach, h1, h2⟩ := system.exists_run next created writeRead
    (Q := fun s => s.stored = [104, 105] ∧ s.given = [104]) rfl hfresh (by decide +kernel)
  exact ⟨s, hreach, h1, h2, fifo hreach⟩

/-! ## Sleepers -/

/-- What a process went to sleep for at the gate is still so. -/
@[grind] def Pipe.Stays (b : Pipe) (killed : Bool) : Gate → Prop
  | .fill .. => b.nwrite = b.nread + UInt32.ofNat PIPESIZE ∧ b.readopen = true ∧ killed = false
  | .drain _ => b.nread = b.nwrite ∧ b.writeopen = true ∧ killed = false

/-- The process wakes the sleepers of the gate before it releases the lock. -/
@[grind] def Pc.Wakes (c : Pc) : Gate → Prop
  | .fill .. => ∃ n i, c = .copying n i
  | .drain _ => ∃ addr n i, c = .holds (.fill addr n i)

/-- A writer may have given up, which does not wake the readers of what it has stored. -/
@[grind] def Pipe.GaveUp (b : Pipe) (killed : Nat → Bool) : Gate → Prop
  | .fill .. => False
  | .drain _ => b.readopen = false ∨ ∃ p, killed p = true

/-- Nobody sleeps through what it waits for. -/
def NoneMissed (s : State) : Prop :=
  ∀ q g, s.pc q = .asleep g →
    s.pipe.Stays (s.killed q) g ∨ (∃ p, (s.pc p).Wakes g) ∨ s.pipe.GaveUp s.killed g

section
variable {s s' : State} {p q : Nat} {c : Pc} {g : Gate}

@[grind =] theorem goto_pc : (s.goto p c).pc q = if q = p then c else s.pc q :=
  update_apply ..
@[grind =] theorem release_pc : (s.release p c).pc q = if q = p then c else s.pc q := goto_pc
@[grind =] theorem release_pipe : (s.release p c).pipe = s.pipe := rfl
@[grind =] theorem release_killed : (s.release p c).killed = s.killed := rfl
@[grind =] theorem wakeup_pipe : (s.wakeup ch).pipe = s.pipe := rfl
@[grind =] theorem wakeup_killed : (s.wakeup ch).killed = s.killed := rfl

@[grind =] theorem asleep_wakeup :
    (s.wakeup ch).pc q = .asleep g ↔ s.pc q = .asleep g ∧ g.chan ≠ ch := by
  simp only [State.wakeup]
  split <;> grind

theorem Sound.of_wakes (h : Sound s) (hq : (s.pc q).Wakes g) : s.lock = some q := by
  cases g with
  | fill =>
    obtain ⟨_, _, hq⟩ := hq
    exact h.copying hq
  | drain =>
    obtain ⟨_, _, _, hq⟩ := hq
    exact h.holds hq

/-- Process `p` goes on, not to sleep, and wakes whom it was to wake. -/
theorem NoneMissed.goto (h : NoneMissed s) (hc : ∀ g, c ≠ .asleep g)
    (hw : ∀ g, (s.pc p).Wakes g → c.Wakes g) : NoneMissed (s.goto p c) := by
  intro q g hq
  have hne : q ≠ p := by grind
  refine (h q g (by grind)).imp_right fun h => h.imp_left ?_
  rintro ⟨r, hr⟩
  exact ⟨r, by grind⟩

theorem NoneMissed.run {v : Option Int} (h : NoneMissed s) (hs : Sound s)
    (hr : s.run p = some (s', v)) : NoneMissed s' := by
  intro q g hq
  have hold := h q g
  unfold State.run at hr
  split at hr
  · -- `pipewrite`: nobody takes bytes out
    next addr n i hp =>
    have hnone (r m j) : s.pc r ≠ .copying m j := by grind [(hs.alone (hs.holds hp)).copying]
    split at hr
    · split at hr
      · split at hr <;> cases hr <;> cases g <;> grind [Gate.chan]
      · cases hr
        cases g with
        | fill => grind
        | drain => exact .inr (.inl ⟨p, addr, n, i + 1, update_self ..⟩)
    · cases hr
      cases g <;> grind [Gate.chan]
  · -- `piperead`, before the copy: nobody else is inside
    next n hp =>
    have hnone (r g') : ¬ (s.pc r).Wakes g' := fun hw => by
      cases g' <;> grind [hs.of_wakes hw, hs.holds hp]
    split at hr
    · split at hr <;> cases hr <;> cases g <;> grind
    · cases hr
      exact h.goto (by simp) (fun g hg => absurd hg (hnone p g)) q g hq
  · -- `piperead`, the copy: nobody stores any
    next n i hp =>
    have hnone (r g) : s.pc r ≠ .holds g := by grind [(hs.alone (hs.copying hp)).holds]
    split at hr <;> cases hr
    · next hgo =>
      cases g with
      | fill => exact .inr (.inl ⟨p, n, i + 1, update_self ..⟩)
      | drain m =>
        have hq' : (s.goto p (.copying n (i + 1))).pc q = .asleep (.drain m) := hq
        obtain hstays | ⟨r, _, _, _, hr⟩ | hup := hold (by grind)
        · exact absurd hstays.1 hgo.2
        · exact absurd hr (hnone r _)
        · exact .inr (.inr hup)
    · cases g <;> grind [Gate.chan]
  · cases hr

theorem NoneMissed.step (h : NoneMissed s) (hs : Sound s) (hn : next s a = some s') :
    NoneMissed s' := by
  cases a with
  | run p =>
    obtain ⟨⟨s1, v⟩, hr, rfl⟩ := Option.map_eq_some_iff.1 hn
    exact h.run hs hr
  | pipeclose writable =>
    simp only [next] at hn
    split at hn <;> cases hn
    next hl =>
    have hnone (r g) : ¬ (s.pc r).Wakes g := fun hw => by simp [hs.of_wakes hw] at hl
    unfold State.pipeclose
    split <;> intro q g hq <;> have hold := h q g (asleep_wakeup.1 hq).1 <;> cases g <;>
      grind [Gate.chan]
  | kill p =>
    cases hn
    intro q g hq
    have hne : q ≠ p := by
      rintro rfl
      cases hp : s.pc q <;> simp [hp, Pc.woken] at hq
    simp only [update_of_ne hne] at hq ⊢
    cases g with
    | drain => exact .inr (.inr (.inr ⟨p, update_self ..⟩))
    | fill =>
      refine (h q _ hq).imp_right fun h => .inl ?_
      obtain ⟨r, m, j, hr⟩ := h.resolve_right id
      exact ⟨r, m, j, by rw [update_apply]; grind [Pc.woken]⟩
  | pipewrite | piperead | acquire =>
    simp only [next] at hn
    split at hn <;> cases hn
    exact h.goto (by simp) fun g hw => by cases g <;> simp [*, Pc.Wakes] at hw

end

/-- **No wake-up is lost on a pipe**, but for those that a writer owes that gives up. -/
theorem no_wakeup_lost {s : State} (h : system.Reach s) : NoneMissed s := by
  have hI : Sound s ∧ NoneMissed s := by
    refine h.invariant (I := fun s => Sound s ∧ NoneMissed s) (fun s hf => ?_)
      fun s a s' hI hs => ?_
    · refine ⟨Fresh.sound hf, fun q g hq => ?_⟩
      rw [hf.pc] at hq
      cases hq
    · exact ⟨hI.1.step hs, hI.2.step hI.1 hs⟩
  exact hI.2

/-- The process sleeps in `piperead`. -/
def Pc.reads : Pc → Bool
  | .asleep (.drain _) => true
  | _ => false

/-- Process 1 fills the pipe that process 2 sleeps on, is killed, and gives up. -/
def writerGivesUp : List Act :=
  [.piperead 2 1, .acquire 2, .run 2, .pipewrite 1 (fun _ => 0) 513, .acquire 1] ++
    List.replicate 512 (.run 1) ++ [.kill 1, .run 1]

/-- `no_wakeup_lost` where the reader stays asleep on a full pipe. -/
theorem no_wakeup_lost_writerGivesUp : ∃ s, system.Reach s ∧ s.lock = none ∧
    (s.pc 2).reads = true ∧ s.pipe.nwrite = s.pipe.nread + 512 ∧ NoneMissed s := by
  have hfresh : Fresh created := ⟨rfl, rfl, rfl, rfl, rfl, fun _ => rfl, rfl, rfl⟩
  obtain ⟨s, hreach, h1, h2, h3⟩ := system.exists_run next created writerGivesUp
    (Q := fun s => s.lock = none ∧ (s.pc 2).reads = true ∧ s.pipe.nwrite = s.pipe.nread + 512) rfl
    hfresh (by decide +kernel)
  exact ⟨s, hreach, h1, h2, h3, no_wakeup_lost hreach⟩

end Msboss.Pipes
