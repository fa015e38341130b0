import Msboss.Mutex.Exclusion
import Msboss.Lib.Tally

/-!
# Who has a mutex

`num_proc` of an entry is the number of handles on it, and the entry is named as long as there is
one. `initmutex` and `mxdelete` keep this (the latter removes a handle of the first process of
`ptable`, whoever calls it, and takes it off the count). `exit` does not: its loop calls `mxdelete`
for the handles of the process, which removes handles of the first process instead, and the
process's own are never taken off the count (`members_leak`). So the counts are right as long as
processes have no handles left when they exit (`members_exact`).
-/

namespace Msboss.Mutex

open Function State Finset

/-- A process in slot `x.1` has a handle `x.2` on the entry `g`. -/
def State.Member (s : State) (g : Mux) (x : Slot × Mux) : Prop :=
  (s.proc x.1).pc ≠ .dead ∧ (s.proc x.1).mxproc x.2 = some g

instance (s : State) (g : Mux) : DecidablePred (s.Member g) :=
  fun _ => inferInstanceAs (Decidable (_ ∧ _))

/-- The number of handles on the entry `g`. -/
def State.members (s : State) (g : Mux) : Nat := (univ.filter (s.Member g)).card

/-- The counts are right, and the entries in use are those that are named. -/
structure MembersExact (s : State) : Prop where
  count : ∀ g, (s.mxarray g).num_proc.toNat = s.members g
  named : ∀ g, (s.mxarray g).name ≠ 0 ↔ 0 < s.members g

/-- One step. `mxdelete` is called with any handle. -/
def anyNext (s : State) : Act → Option State
  | .mxdelete p m => if (s.proc p).pc = .run then some (s.mxdelete m) else none
  | a => next s a

/-- Every sequence of calls, with any handles for `mxdelete`. -/
def anySystem : System State Act := .ofNext (· = initial) anyNext

/-- Names are not null. -/
def Named : Act → Prop
  | .initmutex _ name => name ≠ 0
  | _ => True

/-- Names are not null, and a process that exits has no handles left. -/
def LeavesNone (s : State) : Act → Prop
  | .exit p => ∀ j, (s.proc p).mxproc j = none
  | a => Named a

section
variable {s s' : State} {p : Slot} {m g : Mux}

/-- What `mxdelete` does, if it does anything. -/
theorem mxdelete_some (hm : (s.proc 0).mxproc m = some g) (hn : (s.mxarray g).name ≠ 0) :
    s.mxdelete m = (s.setEntry g (if (s.mxarray g).num_proc - 1 = 0 then .free
        else { s.mxarray g with num_proc := (s.mxarray g).num_proc - 1 })).setProc 0
      { s.proc 0 with mxproc := update (s.proc 0).mxproc m none } := by
  unfold mxdelete
  rw [hm]
  exact if_neg hn

theorem mxdelete_none (hm : (s.proc 0).mxproc m = none) : s.mxdelete m = s := by
  unfold mxdelete
  rw [hm]

/-- What `initmutex` does: nothing, or it returns a handle. -/
theorem initmutex_cases (name : UInt32) : s.initmutex p name = (none, s) ∨
    ∃ i j, s.scan name = some i ∧ s.freeHandle p = some j ∧
      s.initmutex p name = (some j, (s.setEntry i ((s.mxarray i).joined name)).setProc p
        { s.proc p with
          mxproc := update (s.proc p).mxproc j (some i)
          handles := insert j (s.proc p).handles }) := by
  unfold initmutex
  cases hi : s.scan name with
  | none => exact .inl rfl
  | some i =>
    dsimp only
    cases hj : s.freeHandle p with
    | none => exact .inl rfl
    | some j => exact .inr ⟨i, j, rfl, rfl, rfl⟩

theorem freeHandle_none (h : s.freeHandle p = some j) : (s.proc p).mxproc j = none := by
  have := List.find?_some h
  simpa using this

theorem scan_entry (h : s.scan name = some i) :
    (s.mxarray i).name = 0 ∨ (s.mxarray i).name = name := by
  have := List.find?_some h
  simpa using this

/-! ## The count -/

/-- The handles of two states are the same if their processes live or not alike. -/
theorem members_congr (h : ∀ q, ((s'.proc q).pc = .dead ↔ (s.proc q).pc = .dead) ∧
    (s'.proc q).mxproc = (s.proc q).mxproc) (g : Mux) : s'.members g = s.members g := by
  refine congrArg card (filter_congr fun x _ => ?_)
  unfold State.Member
  rw [ne_eq, ne_eq, (h x.1).1, (h x.1).2]

/-- One handle of one process changes. -/
theorem members_change (hpc : ∀ q, (s'.proc q).pc = (s.proc q).pc)
    (hother : ∀ q i, (q, i) ≠ (p, j) → (s'.proc q).mxproc i = (s.proc q).mxproc i)
    (hlive : (s.proc p).pc ≠ .dead) (g : Mux) :
    s'.members g + (if (s.proc p).mxproc j = some g then 1 else 0) =
      s.members g + if (s'.proc p).mxproc j = some g then 1 else 0 := by
  have hchange := card_change (g := s.Member g) (k := s'.Member g) (i := (p, j)) fun x hx => by
    unfold State.Member
    rw [hpc, hother x.1 x.2 hx]
  have hold : s.Member g (p, j) ↔ (s.proc p).mxproc j = some g := and_iff_right hlive
  have hnew : s'.Member g (p, j) ↔ (s'.proc p).mxproc j = some g :=
    and_iff_right (by rw [hpc]; exact hlive)
  unfold members
  simpa only [hold, hnew] using hchange

theorem members_le (s : State) (g : Mux) : s.members g ≤ 640 :=
  (card_filter_le _ _).trans (by
    rw [card_univ, Fintype.card_prod, Fintype.card_fin, Fintype.card_fin]
    decide)

theorem update_prod (hP : ∀ i, i ≠ j → P.mxproc i = (s.proc p).mxproc i) (h : (q, i) ≠ (p, j)) :
    (update s.proc p P q).mxproc i = (s.proc q).mxproc i := by
  by_cases hq : q = p
  · subst hq
    rw [update_self]
    exact hP i fun hi => h (by rw [hi])
  · rw [update_of_ne hq]

/-! ## The steps -/

/-- The invariant: the counts are right, and the first process of `ptable` lives. -/
structure Counted (s : State) : Prop where
  exact : MembersExact s
  first : (s.proc 0).pc ≠ .dead

/-- A step that leaves names, counts and handles alone. -/
theorem Counted.same (h : Counted s) (hent : ∀ g, (s'.mxarray g).num_proc = (s.mxarray g).num_proc ∧
      (s'.mxarray g).name = (s.mxarray g).name)
    (hproc : ∀ q, ((s'.proc q).pc = .dead ↔ (s.proc q).pc = .dead) ∧
      (s'.proc q).mxproc = (s.proc q).mxproc) : Counted s' where
  exact := {
    count := fun g => by rw [members_congr hproc, (hent g).1, h.exact.count]
    named := fun g => by rw [members_congr hproc, (hent g).2, h.exact.named] }
  first h0 := h.first ((hproc 0).1.1 h0)

theorem Counted.initmutex (h : Counted s) (hp : (s.proc p).pc ≠ .dead)
    (hname : name ≠ 0) : Counted (s.initmutex p name).2 := by
  obtain heq | ⟨i, j, hi, hj, heq⟩ := initmutex_cases (s := s) (p := p) name
  · rw [heq]
    exact h
  rw [heq]
  have hnone := freeHandle_none hj
  have hpc : ∀ q, (((s.setEntry i ((s.mxarray i).joined name)).setProc p
      { s.proc p with
        mxproc := update (s.proc p).mxproc j (some i)
        handles := insert j (s.proc p).handles }).proc q).pc = (s.proc q).pc := fun q => by
    rcases eq_or_ne q p with rfl | hq
    · simp
    · simp [hq]
  have hmem := members_change (p := p) (j := j) hpc (fun q i' hne =>
    update_prod (fun i'' hi'' => update_of_ne hi'' ..) hne) hp
  simp only [hnone, setProc_proc, update_self, Option.some.injEq, reduceCtorEq,
    if_false, Nat.add_zero] at hmem
  refine ⟨⟨fun g => ?_, fun g => ?_⟩, by rw [hpc]; exact h.first⟩
  · rw [hmem g]
    rcases eq_or_ne g i with rfl | hg
    · have hcount := h.exact.count g
      have hle := members_le s g
      have hjoin : ((s.mxarray g).joined name).num_proc = (s.mxarray g).num_proc + 1 := by
        unfold Entry.joined
        split <;> rfl
      simp only [setProc_mxarray, setEntry_mxarray, update_self, hjoin,
        UInt32.toNat_add, if_true]
      rw [hcount]
      exact Nat.mod_eq_of_lt (by change s.members g + 1 < 2 ^ 32; omega)
    · simp [hg, Ne.symm hg, h.exact.count g]
  · rw [hmem g]
    rcases eq_or_ne g i with rfl | hg
    · have hjoin : ((s.mxarray g).joined name).name ≠ 0 := by
        unfold Entry.joined
        split
        · exact hname
        · next h0 => exact h0
      simp [hjoin]
    · simp [hg, Ne.symm hg, h.exact.named g]

theorem Counted.mxdelete (h : Counted s) (m : Mux) : Counted (s.mxdelete m) := by
  cases hm : (s.proc 0).mxproc m with
  | none =>
    rw [mxdelete_none hm]
    exact h
  | some g =>
    have hmember : s.Member g (0, m) := ⟨h.first, hm⟩
    have hpos : 0 < s.members g := card_pos.2 ⟨(0, m), by simpa using hmember⟩
    have hn := (h.exact.named g).2 hpos
    have hpc : ∀ q, ((s.mxdelete m).proc q).pc = (s.proc q).pc := fun q => (mxdelete_proc m q).1
    have hmem := members_change (p := 0) (j := m) hpc (fun q i hne => by
      rw [mxdelete_some hm hn]
      exact update_prod (fun i hi => update_of_ne hi ..) hne) h.first
    have hgone : ((s.mxdelete m).proc 0).mxproc m = none := by
      rw [mxdelete_some hm hn]
      simp
    simp only [hm, hgone, Option.some.injEq, reduceCtorEq, if_false, Nat.add_zero] at hmem
    have hcount := h.exact.count g
    have hsub : ((s.mxarray g).num_proc - 1).toNat = (s.mxarray g).num_proc.toNat - 1 := by
      have h1 : (1 : UInt32) ≤ (s.mxarray g).num_proc := by
        rw [UInt32.le_iff_toNat_le, hcount]
        exact hpos
      rw [UInt32.toNat_sub_of_le _ _ h1]
      rfl
    have hother : ∀ g', g' ≠ g → (s.mxdelete m).mxarray g' = s.mxarray g' := fun g' hg' => by
      rw [mxdelete_some hm hn]
      simp [hg']
    have hself : (s.mxdelete m).mxarray g = if (s.mxarray g).num_proc - 1 = 0 then .free
        else { s.mxarray g with num_proc := (s.mxarray g).num_proc - 1 } := by
      rw [mxdelete_some hm hn]
      simp
    have hzero : (s.mxarray g).num_proc - 1 = 0 ↔ s.members g = 1 := by
      rw [← UInt32.toNat_inj, hsub, hcount]
      change s.members g - 1 = 0 ↔ _
      omega
    refine ⟨⟨fun g' => ?_, fun g' => ?_⟩, by rw [hpc]; exact h.first⟩
    · rcases eq_or_ne g' g with rfl | hg'
      · have := hmem g'
        rw [if_pos rfl] at this
        rw [hself]
        split
        · next h0 =>
          have := hzero.1 h0
          change 0 = _
          omega
        · change ((s.mxarray g').num_proc - 1).toNat = _
          rw [hsub]
          omega
      · have := hmem g'
        rw [if_neg hg'.symm] at this
        rw [hother g' hg', h.exact.count]
        omega
    · rcases eq_or_ne g' g with rfl | hg'
      · have := hmem g'
        rw [if_pos rfl] at this
        rw [hself]
        split
        · next h0 =>
          have := hzero.1 h0
          refine ⟨fun hne => absurd rfl hne, fun hlt => ?_⟩
          omega
        · next h0 =>
          rw [hzero] at h0
          refine ⟨fun _ => ?_, fun _ => hn⟩
          omega
      · have := hmem g'
        rw [if_neg hg'.symm] at this
        rw [hother g' hg', h.exact.named]
        omega

/-- A process without handles exits. -/
theorem deleteAll_of_none (h : ∀ j, (s.proc p).mxproc j = none) : s.deleteAll p = s := by
  unfold deleteAll
  generalize List.finRange MUX_MAXNUM = l
  induction l with
  | nil => rfl
  | cons fd l ih =>
    rw [List.foldl_cons, h fd]
    exact ih

/-- A slot without handles changes hands. -/
theorem Counted.setProc (h : Counted s) (hold : ∀ j, (s.proc p).mxproc j = none ∨
    (s.proc p).pc = .dead) (hnew : ∀ j, P.mxproc j = none ∨ P.pc = .dead)
    (h0 : p = 0 → P.pc ≠ .dead) : Counted (s.setProc p P) := by
  have hmem (g : Mux) : (s.setProc p P).members g = s.members g := by
    refine congrArg card (filter_congr fun x _ => ?_)
    unfold State.Member
    rcases eq_or_ne x.1 p with hx | hx
    · rw [hx, setProc_proc, update_self]
      refine ⟨fun hm => ?_, fun hm => ?_⟩
      · rcases hnew x.2 with hn | hn
        · rw [hn] at hm
          cases hm.2
        · exact absurd hn hm.1
      · rcases hold x.2 with hn | hn
        · rw [hn] at hm
          cases hm.2
        · exact absurd hn hm.1
    · rw [setProc_proc, update_of_ne hx]
  refine ⟨⟨fun g => by rw [hmem]; exact h.exact.count g,
    fun g => by rw [hmem]; exact h.exact.named g⟩,
    ?_⟩
  rcases eq_or_ne 0 p with hp | hp
  · subst hp
    rw [setProc_proc, update_self]
    exact h0 rfl
  · rw [setProc_proc, update_of_ne hp]
    exact h.first

theorem Counted.enter (h : Counted s) (hp : (s.proc p).pc ≠ .dead) (g : Mux) :
    Counted (s.enter p g) := by
  refine h.same (fun _ => ⟨rfl, rfl⟩) fun q => ?_
  unfold State.enter
  rcases eq_or_ne q p with rfl | hq
  · simp [hp]
  · simp [hq]

theorem Counted.xchg (h : Counted s) (g : Mux) (b : Bool) : Counted (s.xchg g b) := by
  refine h.same (fun g' => ?_) fun _ => ⟨Iff.rfl, rfl⟩
  unfold State.xchg
  rcases eq_or_ne g' g with rfl | hg
  · simp
  · simp [hg]

theorem Counted.leave (h : Counted s) (p : Slot) (g : Mux) : Counted (s.leave p g) := by
  refine h.same (fun _ => ⟨rfl, rfl⟩) fun q => ?_
  unfold State.leave
  rcases eq_or_ne q p with rfl | hq
  · simp
  · simp [hq]

theorem Counted.wakeup (h : Counted s) (g : Mux) : Counted (s.wakeup g) := by
  refine h.same (fun _ => ⟨rfl, rfl⟩) fun q => ?_
  unfold State.wakeup
  dsimp only
  split
  · next hq =>
    split
    · simp [hq]
    · exact ⟨Iff.rfl, rfl⟩
  · exact ⟨Iff.rfl, rfl⟩

theorem Counted.mxacquire (h : Counted s) (hp : (s.proc p).pc ≠ .dead) (m : Mux) :
    Counted (s.mxacquire p m) := by
  unfold State.mxacquire
  split
  · exact h
  split
  · exact h.enter hp _
  split
  · refine h.same (fun _ => ⟨rfl, rfl⟩) fun q => ?_
    rcases eq_or_ne q p with rfl | hq
    · simp [hp]
    · simp [hq]
  · exact (h.xchg m true).enter hp _

theorem Counted.mxrelease (h : Counted s) (p : Slot) (m : Mux) : Counted (s.mxrelease p m) := by
  unfold State.mxrelease
  split
  · exact h
  split
  · exact h.leave p _
  · split
    · exact (h.xchg _ false).leave p _
    · exact (h.wakeup _).leave p _

theorem Counted.step (h : Counted s) (hG : LeavesNone s a) (hs : anyNext s a = some s') :
    Counted s' := by
  cases a with
  | fork p =>
    obtain ⟨hp, rfl⟩ : (s.proc p).pc = .dead ∧ _ = s' := by simpa [anyNext, next] using hs
    exact h.setProc (fun _ => .inr hp) (fun _ => .inl rfl) fun _ h => by cases h
  | initmutex p name =>
    obtain ⟨hp, rfl⟩ : (s.proc p).pc = .run ∧ _ = s' := by simpa [anyNext, next] using hs
    exact h.initmutex (by rw [hp]; exact fun h => by cases h) hG
  | mxacquire p m =>
    obtain ⟨hp, rfl⟩ : s.uses p m = true ∧ _ = s' := by simpa [anyNext, next] using hs
    have hrun : (s.proc p).pc = .run := (of_decide_eq_true hp).1
    exact h.mxacquire (by rw [hrun]; exact fun h => by cases h) m
  | resume p =>
    simp only [anyNext, next] at hs
    split at hs <;> cases hs
    next hp => exact (h.xchg _ true).enter (by
      change (s.proc p).pc ≠ .dead
      rw [hp]
      exact fun h => by cases h) _
  | mxrelease p m =>
    obtain ⟨-, rfl⟩ : s.uses p m = true ∧ _ = s' := by simpa [anyNext, next] using hs
    exact h.mxrelease p m
  | mxdelete p m =>
    obtain ⟨-, rfl⟩ : (s.proc p).pc = .run ∧ _ = s' := by simpa [anyNext] using hs
    exact h.mxdelete m
  | exit p =>
    obtain ⟨⟨-, hp⟩, rfl⟩ : ((s.proc p).pc = .run ∧ p ≠ 0) ∧ _ = s' := by
      simpa [anyNext, next] using hs
    unfold exit
    rw [deleteAll_of_none hG]
    exact h.setProc (fun j => .inl (hG j)) (fun _ => .inr rfl) fun h0 => absurd h0 hp

theorem counted_initial : Counted initial := by
  have hmem : ∀ g, initial.members g = 0 := fun g =>
    card_eq_zero.2 (filter_eq_empty_iff.2 fun x _ h => by cases h.2)
  exact ⟨⟨fun g => by rw [hmem]; rfl, fun g => by rw [hmem]; decide +revert⟩, by decide⟩

end

/-- In every run in which processes have no handles left when they exit, an entry's `num_proc` is
the number of handles on it, and it has a name exactly if there is one. -/
theorem members_exact {s : State} (h : (anySystem.restrict LeavesNone).Reach s) :
    MembersExact s := by
  have hI : Counted s := by
    refine h.invariant (I := Counted) (fun s hi => ?_) fun s a s' hI hs => ?_
    · rw [show s = initial from hi]
      exact counted_initial
    · exact hI.step hs.1 hs.2
  exact hI.exact

instance : (a : Act) → Decidable (Named a)
  | .initmutex _ name => inferInstanceAs (Decidable (name ≠ 0))
  | .fork .. | .mxacquire .. | .resume .. | .mxrelease .. | .mxdelete .. | .exit .. =>
    .isTrue trivial

instance (s : State) : (a : Act) → Decidable (LeavesNone s a)
  | .exit p => inferInstanceAs (Decidable (∀ j, (s.proc p).mxproc j = none))
  | .fork p => inferInstanceAs (Decidable (Named (.fork p)))
  | .initmutex p name => inferInstanceAs (Decidable (Named (.initmutex p name)))
  | .mxacquire p m => inferInstanceAs (Decidable (Named (.mxacquire p m)))
  | .resume p => inferInstanceAs (Decidable (Named (.resume p)))
  | .mxrelease p m => inferInstanceAs (Decidable (Named (.mxrelease p m)))
  | .mxdelete p m => inferInstanceAs (Decidable (Named (.mxdelete p m)))

/-- Two processes have a mutex, and the first one deletes it. -/
def shareAndDelete : List Act :=
  [.fork 1, .fork 2, .exit 2, .initmutex 0 100, .initmutex 1 100, .initmutex 1 200, .mxdelete 0 0]

/-- `members_exact` on the run of `shareAndDelete`. -/
theorem members_exact_shareAndDelete : ∃ s, (anySystem.restrict LeavesNone).Reach s ∧
    (s.mxarray 0).num_proc = 1 ∧ (s.mxarray 1).num_proc = 1 ∧ MembersExact s := by
  obtain ⟨s, hreach, h1, h2⟩ := anySystem.exists_reach LeavesNone anyNext initial shareAndDelete
    (Q := fun s => (s.mxarray 0).num_proc = 1 ∧ (s.mxarray 1).num_proc = 1) rfl rfl
    (by decide +kernel)
  exact ⟨s, hreach, h1, h2, members_exact hreach⟩

/-- A child makes a mutex and exits. -/
def makeAndExit : List Act := [.fork 1, .initmutex 1 100, .exit 1]

/-- The mutex stays, with a count of one and no process that has it. -/
theorem members_leak : ∃ s, (anySystem.restrict fun _ => Named).Reach s ∧
    (s.mxarray 0).num_proc = 1 ∧ (s.mxarray 0).name = 100 ∧ s.members 0 = 0 ∧ ¬ MembersExact s := by
  obtain ⟨s, hreach, h1, h2, h3⟩ := anySystem.exists_reach (fun _ => Named) anyNext initial
    makeAndExit
    (Q := fun s => (s.mxarray 0).num_proc = 1 ∧ (s.mxarray 0).name = 100 ∧ s.members 0 = 0) rfl rfl
    (by decide +kernel)
  refine ⟨s, hreach, h1, h2, h3, fun h => ?_⟩
  have := h.count 0
  rw [h1, h3] at this
  cases this

end Msboss.Mutex
