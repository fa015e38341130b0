import Msboss.Ptable.LifeCycle

/-!
# What `kill` hits

`kill` looks for the pid in every slot of the table, also in those without a process. These keep the
pid of a `fork` that failed, or have pid `0`; and `allocproc` does not clear `killed`. So `kill(0)`
succeeds, and the process that gets the slot next is killed (`killed_for_nothing`).

`kill` hits the first slot with the pid. If at every call there is a process in that slot, and no
`fork` fails whose child was killed on the way, then `kill` does what it should, and whoever is
killed has been the target of a `kill` or has faulted (`kill_hits_target`).
-/

namespace Msboss.Ptable

open Function State

/-- The first slot whose pid is `pid`. -/
def State.target (s : State) (pid : UInt32) : Option Slot :=
  (List.finRange NPROC).find? fun q => (s.proc q).pid = pid

/-- What `kill(pid)` returns. -/
def State.killReturns (s : State) (pid : UInt32) : Int := if (s.target pid).isSome then 0 else -1

/-- The record of a process that is killed. -/
def Proc.struck (P : Proc) : Proc :=
  { P with
    killed := true
    hit := true
    state := if P.state = .sleeping then .runnable else P.state }

/-- What `kill(pid)` should do: it succeeds if there is such a process, which is then killed and the
only one to change. -/
structure KillsOnly (s : State) (pid : UInt32) : Prop where
  found : s.killReturns pid = 0 ↔ ∃ q, s.Live q ∧ (s.proc q).pid = pid
  only : s.killReturns pid = 0 →
    ∃ q, s.Live q ∧ (s.proc q).pid = pid ∧ s.kill pid = s.set q (s.proc q).struck
  fails : s.killReturns pid ≠ 0 → s.kill pid = s

/-- There is a process in the first slot with the pid. -/
def Aimed (s : State) (pid : UInt32) : Prop := ∀ q ∈ s.target pid, s.Live q

/-- The table, with the slots whose processes have faulted since they were made. -/
structure Traced where
  state : State
  faulted : Slot → Bool

/-- The faults after step `a`. -/
def Traced.faults (x : Traced) : Act → Slot → Bool
  | .fault p => update x.faulted p true
  | .fork _ =>
    match x.state.allocproc with
    | none => x.faulted
    | some (q, _) => update x.faulted q false
  | _ => x.faulted

/-- The step `a`, if it is possible. -/
def Traced.next (x : Traced) (a : Act) : Option Traced :=
  (Ptable.next x.state a).map fun s => { state := s, faulted := x.faults a }

/-- Every interleaving of the steps, with the faults. -/
def traced : System Traced Act :=
  .ofNext (· = { state := initial, faulted := fun _ => false }) Traced.next

/-- A `kill` finds a process, and a `fork` that fails leaves no killed child behind. -/
def HitsProcess (x : Traced) : Act → Prop
  | .kill _ pid => Aimed x.state pid
  | .forkFails p => ∀ q ∈ (x.state.proc p).code.slot, (x.state.proc q).killed = false
  | _ => True

/-- What `kill` promises. -/
structure KillSound (x : Traced) : Prop where
  hits : ∀ pid, Aimed x.state pid → KillsOnly x.state pid
  cause : ∀ q, x.state.Live q → (x.state.proc q).killed = true →
    (x.state.proc q).hit = true ∨ x.faulted q = true

section
variable {s s' : State} {x : Traced} {p q : Slot} {P : Proc} {pid : UInt32}

/-! ## One call -/

theorem target_pid (h : s.target pid = some q) : (s.proc q).pid = pid := by
  have := List.find?_some h
  simpa using this

theorem target_none (h : s.target pid = none) (q : Slot) : (s.proc q).pid ≠ pid := by
  have := List.find?_eq_none.1 h q (List.mem_finRange q)
  simpa using this

theorem kill_none (h : s.target pid = none) : s.kill pid = s := by
  rw [target] at h
  rw [kill, h]

theorem kill_some (h : s.target pid = some q) : s.kill pid = s.set q (s.proc q).struck := by
  rw [target] at h
  rw [kill, h]
  rfl

/-- `kill` does what it should if there is a process in the slot that it finds. -/
theorem Aimed.killsOnly (h : Aimed s pid) : KillsOnly s pid := by
  cases hq : s.target pid with
  | none =>
    have hret : s.killReturns pid = -1 := if_neg (by rw [hq]; exact nofun)
    refine ⟨⟨fun h0 => ?_, ?_⟩, fun h0 => ?_, fun _ => kill_none hq⟩
    · rw [hret] at h0
      cases h0
    · rintro ⟨r, -, hr⟩
      exact absurd hr (target_none hq r)
    · rw [hret] at h0
      cases h0
  | some q =>
    have hret : s.killReturns pid = 0 := if_pos (by rw [hq]; rfl)
    have hlive := h q hq
    exact ⟨⟨fun _ => ⟨q, hlive, target_pid hq⟩, fun _ => hret⟩,
      fun _ => ⟨q, hlive, target_pid hq, kill_some hq⟩, fun hne => absurd hret hne⟩

/-! ## The steps -/

/-- Who is killed is in a slot in use, and has been hit or has faulted. -/
def Blamed (P : Proc) (faulted : Bool) : Prop :=
  P.killed = true → P.state ≠ .unused ∧ (P.hit = true ∨ faulted = true)

/-- What most steps leave of a record. -/
structure Steady (P P' : Proc) : Prop where
  killed : P'.killed = P.killed
  hit : P'.hit = P.hit
  live : P.killed = true → P.state ≠ .unused → P'.state ≠ .unused

theorem Steady.blamed (h : Steady P P') (hP : Blamed P b) : Blamed P' b := by
  intro hk
  rw [h.killed] at hk
  obtain ⟨hlive, hcause⟩ := hP hk
  rw [h.hit]
  exact ⟨h.live hk hlive, hcause⟩

theorem Steady.refl (P : Proc) : Steady P P := ⟨rfl, rfl, fun _ => id⟩

theorem Steady.trans (h : Steady P P') (h' : Steady P' P'') : Steady P P'' :=
  ⟨h'.killed.trans h.killed, h'.hit.trans h.hit,
    fun hk hl => h'.live (h.killed.trans hk) (h.live hk hl)⟩

theorem steady_set (h : Steady (s.proc p) P) (r : Slot) : Steady (s.proc r)
    ((s.set p P).proc r) := by
  rw [set_apply]
  split
  · next hr => exact hr ▸ h
  · exact .refl _

theorem steady_woken (c : Chan) (P : Proc) : Steady P (woken c P) := by
  unfold woken
  split
  · exact ⟨rfl, rfl, fun _ _ => nofun⟩
  · exact .refl P

theorem steady_reparent (p r : Slot) : Steady (s.proc r) ((s.reparent p).proc r) := by
  have hparent : Steady (s.proc r) (if (s.proc r).parent = some p then
      { s.proc r with parent := some 0 } else s.proc r) := by
    split
    · exact ⟨rfl, rfl, fun _ => id⟩
    · exact .refl _
  unfold reparent
  dsimp only
  split
  · exact hparent.trans (steady_woken _ _)
  · exact hparent

theorem Steady.exited {t : State} (h : Steady (s.proc r) (t.proc r)) (p : Slot) : Steady (s.proc r)
    (((t.reparent p).set p { (t.reparent p).proc p with state := .zombie }).proc r) := by
  refine (h.trans (steady_reparent p r)).trans (steady_set ?_ r)
  exact ⟨rfl, rfl, fun _ _ h => by cases h⟩

theorem steady_exited (p r : Slot) : Steady (s.proc r) ((s.exited p).proc r) := by
  unfold exited
  split
  · exact Steady.exited (steady_woken _ _) p
  · exact Steady.exited (.refl _) p

/-- The slot that `allocproc` takes is not in use. -/
theorem allocproc_some (h : s.allocproc = some (q, s')) : (s.proc q).state = .unused ∧
    s' = { s.set q { s.proc q with state := .embryo, pid := s.nextpid, code := .user, hit := false }
      with nextpid := s.nextpid + 1 } := by
  unfold allocproc at h
  split at h
  · cases h
  · next r hfind =>
    cases h
    have := List.find?_some hfind
    exact ⟨by simpa using this, rfl⟩

theorem allocproc_forks (n : Nat) : ({ s with forks := n }).allocproc =
    s.allocproc.map fun r => (r.1, { r.2 with forks := n }) := by
  unfold allocproc
  dsimp only
  cases List.find? (fun q => decide ((s.proc q).state = .unused)) (List.finRange NPROC) <;> rfl

theorem blamed_fork (h : ∀ r, Blamed (x.state.proc r) (x.faulted r)) (p r : Slot) :
    Blamed ((x.state.fork p).proc r) (x.faults (.fork p) r) := by
  unfold fork Traced.faults
  rw [allocproc_forks]
  cases halloc : x.state.allocproc with
  | none => exact h r
  | some y =>
    obtain ⟨q, s1⟩ := y
    obtain ⟨hq, rfl⟩ := allocproc_some halloc
    have hkilled : (x.state.proc q).killed = false := by
      by_contra hk
      exact (h q (by simpa using hk)).1 hq
    have htaken : Blamed ((x.state.set q
        { x.state.proc q with
          state := .embryo
          pid := x.state.nextpid
          code := .user
          hit := false }).proc r) (update x.faulted q false r) := by
      rw [set_apply]
      split
      · intro hk
        rw [show _ = _ from hkilled] at hk
        cases hk
      · next hr =>
        rw [update_of_ne hr]
        exact h r
    refine Steady.blamed (steady_set ?_ r) htaken
    exact ⟨rfl, rfl, fun _ => id⟩

/-- The blame is kept by every step that finds a process. -/
theorem blamed_step (h : ∀ r, Blamed (x.state.proc r) (x.faulted r))
    (hG : HitsProcess x a) (hs : next x.state a = some s') (r : Slot) :
    Blamed (s'.proc r) (x.faults a r) := by
  cases step_of_next hs with
  | fork => exact blamed_fork h _ r
  | @forkFails p q _ hcode =>
    have hkilled : (x.state.proc q).killed = false := hG q (by rw [hcode]; rfl)
    refine Steady.blamed ?_ (h r)
    unfold forkFails
    have hfreed : Steady (x.state.proc r)
        ((x.state.set q { x.state.proc q with state := .unused }).proc r) := by
      refine steady_set ?_ r
      exact ⟨rfl, rfl, fun hk => absurd hk (by rw [hkilled]; decide)⟩
    rw [set_apply]
    split
    · next hr => exact hr ▸ ⟨rfl, rfl, fun _ => id⟩
    · exact hfreed
  | forkLinks =>
    refine Steady.blamed ?_ (h r)
    unfold forkLinks
    rw [set_apply]
    split
    · next hr => exact hr ▸ ⟨rfl, rfl, fun _ => id⟩
    · refine steady_set ?_ r
      exact ⟨rfl, rfl, fun _ => id⟩
  | forkDone =>
    refine Steady.blamed ?_ (h r)
    unfold forkDone
    rw [set_apply]
    split
    · next hr => exact hr ▸ ⟨rfl, rfl, fun _ => id⟩
    · refine steady_set ?_ r
      exact ⟨rfl, rfl, fun _ _ h => by cases h⟩
  | exit | wait =>
    refine (steady_set ?_ r).blamed (h r)
    exact ⟨rfl, rfl, fun _ => id⟩
  | exited => exact (steady_exited _ r).blamed (h r)
  | @scan p =>
    cases hres : (x.state.scan p).1 with
    | reaped q =>
      obtain ⟨-, -, hscan⟩ := scan_reaped hres
      rw [hscan]
      have hreap : Blamed ((x.state.set q { x.state.proc q with
          state := .unused, pid := 0, parent := none, killed := false }).proc r) (x.faulted r) := by
        rw [set_apply]
        split
        · intro h
          cases h
        · exact h r
      refine Steady.blamed (steady_set ?_ r) hreap
      exact ⟨rfl, rfl, fun _ => id⟩
    | failed =>
      rw [(scan_failed hres).2]
      refine (steady_set ?_ r).blamed (h r)
      exact ⟨rfl, rfl, fun _ => id⟩
    | asleep =>
      rw [scan_asleep hres]
      refine (steady_set ?_ r).blamed (h r)
      exact ⟨rfl, rfl, fun _ _ h => by cases h⟩
  | @kill p pid =>
    cases hq : x.state.target pid with
    | none =>
      rw [kill_none hq]
      exact h r
    | some q =>
      rw [kill_some hq, set_apply]
      split
      · refine fun _ => ⟨?_, .inl rfl⟩
        have hlive : (x.state.proc q).state ≠ .unused := hG q hq
        unfold Proc.struck
        dsimp only
        split
        · intro h
          cases h
        · exact hlive
      · exact h r
  | @fault p hp =>
    rw [set_apply]
    split
    · next hr =>
      refine fun _ => ⟨?_, .inr ?_⟩
      · rw [show _ = _ from hp.1]
        intro h
        cases h
      · rw [hr]
        exact update_self ..
    · next hr =>
      have : x.faults (.fault p) r = x.faulted r := update_of_ne hr ..
      exact this ▸ h r
  | dispatch | yield | sleep =>
    refine (steady_set ?_ r).blamed (h r)
    exact ⟨rfl, rfl, fun _ _ h => by cases h⟩
  | wakeup => exact (steady_woken _ _).blamed (h r)

end

/-- In every run in which each `kill` finds a process and no `fork` fails whose child was killed,
`kill` succeeds exactly if there is such a process, changes only that process, and who is killed has
been the target of a `kill` since it was made, or has faulted. -/
theorem kill_hits_target {x : Traced} (h : (traced.restrict HitsProcess).Reach x) :
    KillSound x := by
  have hI : ∀ r, Blamed (x.state.proc r) (x.faulted r) := by
    refine h.invariant (I := fun x => ∀ r, Blamed (x.state.proc r) (x.faulted r)) (fun x hi r => ?_)
      fun x a x' hI hs r => ?_
    · rw [show x = _ from hi]
      unfold Blamed initial
      dsimp only
      split <;> exact nofun
    · obtain ⟨s', hs', rfl⟩ := Option.map_eq_some_iff.1 hs.2
      exact blamed_step hI hs.1 hs' r
  exact ⟨fun pid hpid => hpid.killsOnly, fun q _ hk => (hI q hk).2⟩

instance (s : State) (pid : UInt32) : Decidable (Aimed s pid) :=
  inferInstanceAs (Decidable (∀ q ∈ s.target pid, (s.proc q).state ≠ .unused))

instance (x : Traced) : (a : Act) → Decidable (HitsProcess x a)
  | .kill _ pid => inferInstanceAs (Decidable (Aimed x.state pid))
  | .forkFails p => inferInstanceAs
      (Decidable (∀ q ∈ (x.state.proc p).code.slot, (x.state.proc q).killed = false))
  | .fork _ | .forkLinks _ | .forkDone _ | .exit _ | .exited _ | .wait _ | .scan _ | .fault _
  | .dispatch _ | .yield _ | .sleep _ _ | .wakeup _ => inferInstanceAs (Decidable True)

/-- `init` forks two children, kills the second, and the first faults; a third `fork` fails. -/
def killAndFault : List Act :=
  [.dispatch 0, .fork 0, .forkLinks 0, .forkDone 0, .fork 0, .forkLinks 0, .forkDone 0, .kill 0 3,
    .dispatch 1, .fault 1, .fork 0, .forkFails 0]

/-- `kill_hits_target` on the run of `killAndFault`. -/
theorem kill_hits_target_killAndFault : ∃ x, (traced.restrict HitsProcess).Reach x ∧
    (x.state.proc 1).killed = true ∧ (x.state.proc 1).hit = false ∧
    (x.state.proc 2).killed = true ∧ (x.state.proc 2).hit = true ∧ KillSound x := by
  obtain ⟨x, hreach, h1, h2, h3, h4⟩ := traced.exists_reach HitsProcess Traced.next
    { state := initial, faulted := fun _ => false } killAndFault
    (Q := fun x => (x.state.proc 1).killed = true ∧ (x.state.proc 1).hit = false ∧
      (x.state.proc 2).killed = true ∧ (x.state.proc 2).hit = true)
    rfl rfl (by decide +kernel)
  exact ⟨x, hreach, h1, h2, h3, h4, kill_hits_target hreach⟩

/-- `init` calls `kill(0)` and then `fork`. -/
def killZero : List Act := [.dispatch 0, .kill 0 0, .fork 0, .forkLinks 0, .forkDone 0]

/-- `kill(0)` succeeds at boot though there is no process with pid `0`, and the child that is forked
next is killed. -/
theorem killed_for_nothing :
    (initial.killReturns 0 = 0 ∧ ¬ ∃ q, initial.Live q ∧ (initial.proc q).pid = 0) ∧
    ∃ x, traced.Reach x ∧ x.state.Live 1 ∧ (x.state.proc 1).killed = true ∧ ¬ KillSound x := by
  refine ⟨⟨by decide +kernel, ?_⟩, ?_⟩
  · rintro ⟨q, hlive, hpid⟩
    have h0 : q = 0 := by
      by_contra hne
      exact hlive (by simp [initial, hne, Proc.fresh])
    rw [h0] at hpid
    cases hpid
  · obtain ⟨x, hreach, h1, h2, h3, h4⟩ := traced.exists_run Traced.next
      { state := initial, faulted := fun _ => false } killZero
      (Q := fun x => (x.state.proc 1).state ≠ .unused ∧ (x.state.proc 1).killed = true ∧
        (x.state.proc 1).hit = false ∧ x.faulted 1 = false)
      rfl rfl (by decide +kernel)
    refine ⟨x, hreach, h1, h2, fun h => ?_⟩
    rcases h.cause 1 h1 h2 with hc | hc
    · rw [h3] at hc
      cases hc
    · rw [h4] at hc
      cases hc

end Msboss.Ptable
