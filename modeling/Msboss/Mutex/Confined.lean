import Msboss.Mutex.Waiters

/-!
# What a mutex call may touch

The handle of a mutex call comes from user space as an `int`, and is used as an index without a
check. A call with a handle `m` of the caller that denotes the entry `g` should touch `mxarray[g]`,
the caller's `mxproc[m]` and processes that sleep on `g`, and a call with anything else should touch
nothing. `cvwait` and `cvsignal` are added to the calls here.

`mxrelease`, `cvwait` and `cvsignal` keep to this for a handle in bounds. `mxacquire` sets the lock
of entry `m` where it should be `g`, and `mxdelete` takes the handle of the first process of
`ptable` for the caller's. `confined_iff` says exactly when each call keeps to it.
-/

namespace Msboss.Mutex

open Function State

/-- The mutexes and the processes, with the processes that sleep in `cvwait`, each on `&mxarray[g]`
for some `g`. -/
structure Kernel where
  mux : State
  waits : Slot → Option Mux

namespace Kernel

/-- `cvwait(m)`, called by `p`, up to its `sleep`; nothing follows that. -/
def cvwait (k : Kernel) (p : Slot) (m : Mux) : Kernel :=
  match (k.mux.proc p).mxproc m with
  | none => k
  | some g =>
    if (k.mux.mxarray g).name = 0 then k
    else { k with waits := update k.waits p (some g) }

/-- `cvsignal(m)`, called by `p`. -/
def cvsignal (k : Kernel) (p : Slot) (m : Mux) : Kernel :=
  match (k.mux.proc p).mxproc m with
  | none => k
  | some g =>
    if (k.mux.mxarray g).name = 0 then k
    else { k with waits := fun q => if k.waits q = some g then none else k.waits q }

/-- `mxacquire(m)`, called by `p`, goes on after its `sleep` on `g`. -/
def resume (k : Kernel) (p : Slot) (m g : Mux) : Kernel := { k with mux := k.mux.resume p m g }

end Kernel

/-- The calls that take a handle. -/
inductive Func
  | mxacquire
  | mxrelease
  | mxdelete
  | cvwait
  | cvsignal
  deriving DecidableEq, Repr

/-- A call with a handle in bounds, up to its end or its `sleep`. -/
def Kernel.run (k : Kernel) (p : Slot) (m : Mux) : Func → Kernel
  | .mxacquire => { k with mux := k.mux.mxacquire p m }
  | .mxrelease => { k with mux := k.mux.mxrelease p m }
  | .mxdelete => { k with mux := k.mux.mxdelete m }
  | .cvwait => k.cvwait p m
  | .cvsignal => k.cvsignal p m

/-- An `int` as an index of `mxproc`; none, if it is outside the bounds. Every call starts with the
element at this index. -/
def index (muxid : BitVec 32) : Option Mux :=
  if h : 0 ≤ muxid.toInt ∧ muxid.toInt.toNat < MUX_MAXNUM then some ⟨muxid.toInt.toNat, h.2⟩
  else none

/-- Between `k` and `k'` nothing has changed. -/
structure Unchanged (k k' : Kernel) : Prop where
  entries : ∀ g, k'.mux.mxarray g = k.mux.mxarray g
  handles : ∀ q i, (k'.mux.proc q).mxproc i = (k.mux.proc q).mxproc i
  sleepers : ∀ q, (k'.mux.proc q).pc = (k.mux.proc q).pc
  waiters : ∀ q, k'.waits q = k.waits q

/-- Between `k` and `k'` only the entry `g`, the handle `m` of `p` and processes that wait for `g`
have changed, and `p` itself may have gone to sleep on `g`. -/
structure Within (p : Slot) (m g : Mux) (k k' : Kernel) : Prop where
  entries : ∀ g', g' ≠ g → k'.mux.mxarray g' = k.mux.mxarray g'
  handles : ∀ q i, (q, i) ≠ (p, m) → (k'.mux.proc q).mxproc i = (k.mux.proc q).mxproc i
  sleepers : ∀ q, (k'.mux.proc q).pc = (k.mux.proc q).pc ∨ (k.mux.proc q).pc.waits g ∨
    q = p ∧ (k'.mux.proc q).pc.sleepsOn g
  waiters : ∀ q, k'.waits q = k.waits q ∨ k.waits q = some g ∨ q = p ∧ k'.waits q = some g

/-- The call, up to its end or its `sleep`, changes only what it may. -/
def Keeps (k : Kernel) (p : Slot) (m : Mux) (f : Func) : Prop :=
  match (k.mux.proc p).mxproc m with
  | none => Unchanged k (k.run p m f)
  | some g => Within p m g k (k.run p m f)

/-- If the call sleeps in `mxacquire`, the rest of it changes only what it may, in whatever state it
is woken. -/
def KeepsWoken (k : Kernel) (p : Slot) (m : Mux) (f : Func) : Prop :=
  ∀ g, ((k.run p m f).mux.proc p).pc = .asleep m g →
    ∀ k2 : Kernel, (k2.mux.proc p).pc = .woken m g → Within p m g k2 (k2.resume p m g)

/-- The call keeps to the caller's handle: it indexes no array outside its bounds, and changes only
what it may. -/
def Confined (k : Kernel) (p : Slot) (f : Func) (muxid : BitVec 32) : Prop :=
  ∃ m, index muxid = some m ∧ Keeps k p m f ∧ KeepsWoken k p m f

/-- What a call with the handle `m` has to meet to keep to it. -/
def Fits (k : Kernel) (p : Slot) (m : Mux) : Func → Prop
  | .mxacquire => ∀ g ∈ (k.mux.proc p).mxproc m, (k.mux.mxarray g).name ≠ 0 →
      m = g ∨ (k.mux.mxarray g).lock = false ∧ (k.mux.mxarray m).lock = true
  | .mxdelete => p = 0 ∨ ∀ g ∈ (k.mux.proc 0).mxproc m, (k.mux.mxarray g).name = 0
  | _ => True

/-- The process `p` is woken in `mxacquire(m)` for `g` while the entry `m` is not locked. -/
def Kernel.woken (k : Kernel) (p : Slot) (m g : Mux) : Kernel where
  mux := (k.mux.xchg m false).setProc p { k.mux.proc p with pc := .woken m g }
  waits := k.waits

section
variable {k k' : Kernel} {p : Slot} {m g : Mux}

theorem Unchanged.refl (k : Kernel) : Unchanged k k :=
  ⟨fun _ => rfl, fun _ _ => rfl, fun _ => rfl, fun _ => rfl⟩

theorem Within.refl (p : Slot) (m g : Mux) (k : Kernel) : Within p m g k k :=
  ⟨fun _ _ => rfl, fun _ _ _ => rfl, fun _ => .inl rfl, fun _ => .inl rfl⟩

/-- A call that changes nothing keeps to any handle. -/
theorem keeps_of_eq (h : k.run p m f = k) : Keeps k p m f := by
  unfold Keeps
  rw [h]
  split
  · exact .refl k
  · exact .refl p m _ k

/-- Only the rest of `mxacquire` comes after a `sleep`. -/
theorem keepsWoken_of_run (h : ((k.run p m f).mux.proc p).pc = .run) : KeepsWoken k p m f := by
  intro g hg
  rw [h] at hg
  cases hg

/-- Setting the lock of an entry that may change, or is locked. -/
theorem xchg_entry (s : State) (hm : m = g ∨ (s.mxarray m).lock = true) (g' : Mux) (hg' : g' ≠ g) :
    (s.xchg m true).mxarray g' = s.mxarray g' := by
  unfold xchg
  rcases eq_or_ne g' m with rfl | hne
  · have hl := hm.resolve_left hg'
    rw [setEntry_mxarray, update_self, ← hl]
  · rw [setEntry_mxarray, update_of_ne hne]

/-- An entry whose lock is set changes if it was not locked. -/
theorem xchg_ne (s : State) (hl : (s.mxarray m).lock = false) :
    (s.xchg m true).mxarray m ≠ s.mxarray m := by
  intro heq
  have := congrArg Entry.lock heq
  rw [xchg, setEntry_mxarray, update_self, hl] at this
  cases this

theorem enter_mxproc (s : State) (p q : Slot) (g : Mux) :
    ((s.enter p g).proc q).mxproc = (s.proc q).mxproc := by
  unfold enter
  rcases eq_or_ne q p with rfl | hq
  · simp
  · simp [hq]

theorem enter_pc (s : State) (g : Mux) (hq : q ≠ p) :
    ((s.enter p g).proc q).pc = (s.proc q).pc := by
  simp [enter, hq]

theorem enter_pc_self (s : State) (p : Slot) (g : Mux) : ((s.enter p g).proc p).pc = .run := by
  simp [enter]

theorem leave_mxproc (s : State) (p q : Slot) (g : Mux) :
    ((s.leave p g).proc q).mxproc = (s.proc q).mxproc := by
  unfold leave
  rcases eq_or_ne q p with rfl | hq
  · simp
  · simp [hq]

theorem wakeup_mxproc (s : State) (g : Mux) (q : Slot) :
    ((s.wakeup g).proc q).mxproc = (s.proc q).mxproc := by
  unfold wakeup
  dsimp only
  split
  · split <;> rfl
  · rfl

/-! ## The calls -/

/-- `mxacquire` enters a mutex and sets a lock. -/
theorem within_lockEnter (hm : m = g ∨ (s.mxarray m).lock = true)
    (hp : (s.proc p).pc = .run ∨ (s.proc p).pc.waits g) :
    Within p m g ⟨s, w⟩ ⟨(s.xchg m true).enter p g, w⟩ where
  entries g' hg' := xchg_entry s hm g' hg'
  handles q i _ := by rw [enter_mxproc]; rfl
  sleepers q := by
    rcases eq_or_ne q p with rfl | hq
    · rcases hp with hp | hp
      · refine .inl ?_
        rw [enter_pc_self]
        exact hp.symm
      · exact .inr (.inl hp)
    · refine .inl ?_
      rw [enter_pc _ _ hq]
      rfl
  waiters _ := .inl rfl

theorem mxacquire_confined (hp : (k.mux.proc p).pc = .run) :
    Keeps k p m .mxacquire ∧ KeepsWoken k p m .mxacquire ↔ Fits k p m .mxacquire := by
  cases hg : (k.mux.proc p).mxproc m with
  | none =>
    have hrun : k.run p m .mxacquire = k := by simp only [Kernel.run, mxacquire, hg]
    refine ⟨fun _ g hg' => ?_, fun _ => ⟨keeps_of_eq hrun, keepsWoken_of_run (by rwa [hrun])⟩⟩
    rw [hg] at hg'
    cases hg'
  | some g =>
    have hkeeps : Keeps k p m .mxacquire ↔ Within p m g k (k.run p m .mxacquire) := by
      unfold Keeps
      rw [hg]
    have hfits : Fits k p m .mxacquire ↔ ((k.mux.mxarray g).name ≠ 0 →
        m = g ∨ (k.mux.mxarray g).lock = false ∧ (k.mux.mxarray m).lock = true) :=
      ⟨fun h => h g hg, fun h g' hg' => by
        obtain rfl : g = g' := by rw [hg] at hg'; exact Option.some.inj hg'
        exact h⟩
    rw [hkeeps, hfits]
    by_cases hn : (k.mux.mxarray g).name = 0
    · have hrun : k.run p m .mxacquire = { k with mux := k.mux.enter p g } := by
        simp only [Kernel.run, mxacquire, hg, hn, if_true]
      refine ⟨fun _ h0 => absurd hn h0, fun _ => ⟨?_, keepsWoken_of_run ?_⟩⟩
      · rw [hrun]
        refine ⟨fun _ _ => rfl, fun q i _ => by rw [enter_mxproc], fun q => .inl ?_,
          fun _ => .inl rfl⟩
        rcases eq_or_ne q p with rfl | hq
        · rw [enter_pc_self, hp]
        · rw [enter_pc _ _ hq]
      · rw [hrun]
        exact enter_pc_self ..
    cases hl : (k.mux.mxarray g).lock with
    | true =>
      have hrun : k.run p m .mxacquire =
          { k with mux := k.mux.setProc p { k.mux.proc p with pc := .asleep m g } } := by
        simp only [Kernel.run, mxacquire, hg, hn, hl, if_true, if_false]
      have hpc : ((k.run p m .mxacquire).mux.proc p).pc = .asleep m g := by rw [hrun]; simp
      constructor
      · rintro ⟨-, hwoken⟩ -
        refine .inl (by_contra fun hne => ?_)
        -- Woken when entry `m` is not locked, the process locks it.
        have hl2 : ((k.woken p m g).mux.mxarray m).lock = false := by
          simp [Kernel.woken, xchg]
        have := (hwoken g hpc (k.woken p m g) (by simp [Kernel.woken])).entries m hne
        exact xchg_ne (k.woken p m g).mux hl2 this
      · intro h
        obtain rfl : m = g := (h hn).resolve_right (by simp)
        refine ⟨?_, fun g' hg' k2 hk2 => ?_⟩
        · rw [hrun]
          refine ⟨fun _ _ => rfl, fun q i _ => ?_, fun q => ?_, fun _ => .inl rfl⟩
          · rcases eq_or_ne q p with rfl | hq
            · simp
            · simp [hq]
          · rcases eq_or_ne q p with rfl | hq
            · exact .inr (.inr ⟨rfl, by simp [Pc.sleepsOn]⟩)
            · exact .inl (by simp [hq])
        · rw [hpc] at hg'
          cases hg'
          exact within_lockEnter (.inl rfl) (.inr (by rw [hk2]; rfl))
    | false =>
      have hrun : k.run p m .mxacquire = { k with mux := (k.mux.xchg m true).enter p g } := by
        simp only [Kernel.run, mxacquire, hg, hn, hl, if_false, Bool.false_eq_true]
      constructor
      · rintro ⟨hwithin, -⟩ -
        by_cases hm : m = g
        · exact .inl hm
        refine .inr ⟨rfl, ?_⟩
        by_contra hlm
        rw [hrun] at hwithin
        exact xchg_ne k.mux (by simpa using hlm) (hwithin.entries m hm)
      · intro h
        refine ⟨?_, keepsWoken_of_run (by rw [hrun]; exact enter_pc_self ..)⟩
        rw [hrun]
        exact within_lockEnter ((h hn).imp id And.right) (.inl hp)

theorem mxrelease_confined (hp : (k.mux.proc p).pc = .run) :
    Keeps k p m .mxrelease ∧ KeepsWoken k p m .mxrelease := by
  cases hg : (k.mux.proc p).mxproc m with
  | none =>
    have hrun : k.run p m .mxrelease = k := by simp only [Kernel.run, mxrelease, hg]
    exact ⟨keeps_of_eq hrun, keepsWoken_of_run (by rwa [hrun])⟩
  | some g =>
    have hkeeps : Keeps k p m .mxrelease ↔ Within p m g k (k.run p m .mxrelease) := by
      unfold Keeps
      rw [hg]
    rw [hkeeps]
    by_cases hn : (k.mux.mxarray g).name = 0
    · have hrun : k.run p m .mxrelease = { k with mux := k.mux.leave p g } := by
        simp only [Kernel.run, mxrelease, hg, hn, if_true]
      refine ⟨?_, keepsWoken_of_run (by rw [hrun]; exact (leave_pc p).trans hp)⟩
      rw [hrun]
      exact ⟨fun _ _ => rfl, fun q i _ => by rw [leave_mxproc], fun q => .inl (leave_pc q),
        fun _ => .inl rfl⟩
    cases hl : (k.mux.mxarray g).lock with
    | true =>
      have hrun : k.run p m .mxrelease = { k with mux := (k.mux.xchg g false).leave p g } := by
        simp only [Kernel.run, mxrelease, hg, hn, hl, if_true, if_false]
      refine ⟨?_, keepsWoken_of_run (by rw [hrun]; exact (leave_pc p).trans hp)⟩
      rw [hrun]
      refine ⟨fun g' hg' => ?_, fun q i _ => by rw [leave_mxproc]; rfl,
        fun q => .inl (leave_pc q),
        fun _ => .inl rfl⟩
      exact update_of_ne hg' ..
    | false =>
      have hrun : k.run p m .mxrelease = { k with mux := (k.mux.wakeup g).leave p g } := by
        simp only [Kernel.run, mxrelease, hg, hn, hl, if_false, Bool.false_eq_true]
      have hwake (q : Slot) := wakeup_pc (s := k.mux) (g := g) q
      refine ⟨?_, keepsWoken_of_run ?_⟩
      · rw [hrun]
        refine ⟨fun _ _ => rfl, fun q i _ => by rw [leave_mxproc, wakeup_mxproc], fun q => ?_,
          fun _ => .inl rfl⟩
        rw [leave_pc]
        rcases hwake q with he | ⟨m', hq, -⟩
        · exact .inl he
        · exact .inr (.inl (by rw [hq]; rfl))
      · rw [hrun]
        refine (leave_pc p).trans ?_
        rcases hwake p with he | ⟨m', hq, -⟩
        · exact he.trans hp
        · rw [hp] at hq
          cases hq

theorem mxdelete_confined (hp : (k.mux.proc p).pc = .run) :
    Keeps k p m .mxdelete ∧ KeepsWoken k p m .mxdelete ↔ Fits k p m .mxdelete := by
  have hpc : ((k.run p m .mxdelete).mux.proc p).pc = .run := (mxdelete_proc m p).1.trans hp
  rw [and_iff_left (keepsWoken_of_run hpc)]
  cases hg : (k.mux.proc 0).mxproc m with
  | none =>
    have hrun : k.run p m .mxdelete = k := by simp only [Kernel.run, mxdelete, hg]
    refine ⟨fun _ => .inr fun g hg' => ?_, fun _ => keeps_of_eq hrun⟩
    rw [hg] at hg'
    cases hg'
  | some g =>
    by_cases hn : (k.mux.mxarray g).name = 0
    · have hrun : k.run p m .mxdelete = k := by
        simp only [Kernel.run, mxdelete, hg, hn, if_true]
      refine ⟨fun _ => .inr fun g' hg' => ?_, fun _ => keeps_of_eq hrun⟩
      rw [hg] at hg'
      cases hg'
      exact hn
    have hgone : ((k.run p m .mxdelete).mux.proc 0).mxproc m = none := by
      simp [Kernel.run, mxdelete, hg, hn]
    constructor
    · intro hkeeps
      refine .inl (by_contra fun h0 => ?_)
      have hne : ((0 : Slot), m) ≠ (p, m) := fun he => h0 (Prod.mk.inj he).1.symm
      -- The handle of the first process has gone, and it is not the caller's.
      have hsame : ((k.run p m .mxdelete).mux.proc 0).mxproc m = (k.mux.proc 0).mxproc m := by
        unfold Keeps at hkeeps
        split at hkeeps
        · exact hkeeps.handles 0 m
        · exact hkeeps.handles 0 m hne
      rw [hgone, hg] at hsame
      cases hsame
    · rintro (rfl | hall)
      · unfold Keeps
        rw [hg]
        refine ⟨fun g' hg' => ?_, fun q i hqi => ?_, fun q => .inl (mxdelete_proc m q).1,
          fun _ => .inl rfl⟩
        · simp [Kernel.run, mxdelete, hg, hn, hg']
        · rcases eq_or_ne q 0 with rfl | hq
          · have hi : i ≠ m := fun he => hqi (by rw [he])
            simp [Kernel.run, mxdelete, hg, hn, hi]
          · simp [Kernel.run, mxdelete, hg, hn, hq]
      · exact absurd (hall g hg) hn

/-- `cvwait` and `cvsignal` leave the mutexes alone, and move no process but on `g`. -/
theorem cv_confined (hp : (k.mux.proc p).pc = .run) (hmux : (k.run p m f).mux = k.mux)
    (hnone : (k.mux.proc p).mxproc m = none → k.run p m f = k)
    (hwaits : ∀ g, (k.mux.proc p).mxproc m = some g → ∀ q, (k.run p m f).waits q = k.waits q ∨
      k.waits q = some g ∨ q = p ∧ (k.run p m f).waits q = some g) :
    Keeps k p m f ∧ KeepsWoken k p m f := by
  refine ⟨?_, keepsWoken_of_run (by rwa [hmux])⟩
  cases hg : (k.mux.proc p).mxproc m with
  | none => exact keeps_of_eq (hnone hg)
  | some g =>
    unfold Keeps
    rw [hg]
    exact ⟨fun _ _ => by rw [hmux], fun _ _ _ => by rw [hmux], fun _ => .inl (by rw [hmux]),
      hwaits g hg⟩

theorem cvwait_confined (hp : (k.mux.proc p).pc = .run) :
    Keeps k p m .cvwait ∧ KeepsWoken k p m .cvwait := by
  refine cv_confined hp ?_ (fun hg => ?_) fun g hg q => ?_
  · unfold Kernel.run Kernel.cvwait
    dsimp only
    split
    · rfl
    · split <;> rfl
  · simp only [Kernel.run, Kernel.cvwait, hg]
  · simp only [Kernel.run, Kernel.cvwait, hg]
    split
    · exact .inl rfl
    · rcases eq_or_ne q p with rfl | hq
      · exact .inr (.inr ⟨rfl, update_self ..⟩)
      · exact .inl (update_of_ne hq ..)

theorem cvsignal_confined (hp : (k.mux.proc p).pc = .run) :
    Keeps k p m .cvsignal ∧ KeepsWoken k p m .cvsignal := by
  refine cv_confined hp ?_ (fun hg => ?_) fun g hg q => ?_
  · unfold Kernel.run Kernel.cvsignal
    dsimp only
    split
    · rfl
    · split <;> rfl
  · simp only [Kernel.run, Kernel.cvsignal, hg]
  · simp only [Kernel.run, Kernel.cvsignal, hg]
    split
    · exact .inl rfl
    · dsimp only
      split
      · next hq => exact .inr (.inl hq)
      · exact .inl rfl

end

/-- A call by a process that runs keeps to the caller's handle exactly if the handle is in bounds
and
* in `mxacquire`, if it denotes a named entry, it numbers that entry, or the entry it numbers is
  locked already and the one it denotes is not,
* in `mxdelete`, the caller is the first process of `ptable`, or that process has no such handle, or
  only one on an entry without a name. -/
theorem confined_iff {k : Kernel} {p : Slot} (hp : (k.mux.proc p).pc = .run) (f : Func)
    (muxid : BitVec 32) : Confined k p f muxid ↔ ∃ m, index muxid = some m ∧ Fits k p m f := by
  refine exists_congr fun m => and_congr_right fun _ => ?_
  cases f with
  | mxacquire => exact mxacquire_confined hp
  | mxrelease => exact iff_of_true (mxrelease_confined hp) trivial
  | mxdelete => exact mxdelete_confined hp
  | cvwait => exact iff_of_true (cvwait_confined hp) trivial
  | cvsignal => exact iff_of_true (cvsignal_confined hp) trivial

/-- The first process has a mutex, which a second one has too, after another one. -/
def shared : Kernel where
  mux :=
    ((((initial.setProc 1 (.clear .run)).initmutex 0 100).2.initmutex 1 200).2.initmutex 1 100).2
  waits _ := none

/-- `confined_iff` for `mxdelete(0)`, called by the first process. -/
theorem confined_iff_first : (shared.mux.proc 0).pc = .run ∧ Confined shared 0 .mxdelete 0 :=
  ⟨by decide +kernel,
    (confined_iff (by decide +kernel) .mxdelete 0).2 ⟨0, by decide +kernel, .inl rfl⟩⟩

/-- `mxdelete(0)`, called by the second process, deletes the handle of the first one; its
`mxacquire(0)` looks at one mutex and locks the other; and nothing stops a call with `-1`. -/
theorem not_confined : (shared.mux.proc 1).pc = .run ∧ ¬ Confined shared 1 .mxdelete 0 ∧
    ¬ Confined shared 1 .mxacquire 0 ∧ ¬ Confined shared 1 .mxrelease (-1) := by
  have hp : (shared.mux.proc 1).pc = .run := by decide +kernel
  have h0 : index 0 = some 0 := by decide +kernel
  refine ⟨hp, ?_, ?_, ?_⟩
  · rintro ⟨m, hm, h⟩
    cases h0.symm.trans hm
    rcases mxdelete_confined hp |>.1 h with h | h
    · exact absurd h (by decide)
    · exact absurd (h 0 (by decide +kernel)) (by decide +kernel)
  · rintro ⟨m, hm, h⟩
    cases h0.symm.trans hm
    have := (mxacquire_confined hp).1 h 1 (by decide +kernel) (by decide +kernel)
    exact absurd this (by decide +kernel)
  · rintro ⟨m, hm, -⟩
    have : index (-1) = none := by decide +kernel
    rw [this] at hm
    cases hm

end Msboss.Mutex
