import Msboss.Mutex.Calls

/-!
# Mutual exclusion

`mxacquire` tests the lock of the entry its handle denotes, sets the lock of the entry its handle
numbers, and does not test again after its `sleep`. So two processes are in one mutex at once when
the two indices differ (`not_exclusive`), and also when a process enters a mutex that another one
was woken for. `Orderly` is what the callers would have to see to: handles that number the entry
they denote, one process woken at a time and none overtaken, no release of somebody else's mutex
and no deletion of one in use. Runs of orderly calls exclude (`exclusive_of_orderly`): a mutex that
is held is locked, and a process woken for it finds nobody there.
-/

namespace Msboss.Mutex

open Function State Finset

/-- No two processes are in the same mutex. -/
def Exclusive (s : State) : Prop :=
  ∀ p q g, g ∈ (s.proc p).held → g ∈ (s.proc q).held → p = q

/-- The process is asleep or woken in `mxacquire` for the entry `g`. -/
def Pc.waits (g : Mux) : Pc → Prop
  | .asleep _ g' | .woken _ g' => g' = g
  | _ => False

/-- The process is woken in `mxacquire` for the entry `g`. -/
def Pc.wokenFor (g : Mux) : Pc → Prop
  | .woken _ g' => g' = g
  | _ => False

instance (g : Mux) (c : Pc) : Decidable (c.waits g) := by
  cases c <;> simp only [Pc.waits] <;> infer_instance

instance (g : Mux) (c : Pc) : Decidable (c.wokenFor g) := by
  cases c <;> simp only [Pc.wokenFor] <;> infer_instance

/-- The handles that `exit` of `p` deletes. -/
def State.handlesOf (s : State) (p : Slot) : Finset Mux :=
  univ.filter fun j => ((s.proc p).mxproc j).isSome

/-- To delete the handles `D` frees the entry `g`: in the first process of `ptable` as many of them
denote it as it counts. -/
def State.Frees (s : State) (D : Finset Mux) (g : Mux) : Prop :=
  (s.mxarray g).name ≠ 0 ∧ 0 < (s.mxarray g).num_proc.toNat ∧
    (s.mxarray g).num_proc.toNat ≤ (D.filter fun m => (s.proc 0).mxproc m = some g).card

/-- The entries that are freed are out of use, but for what `p` holds. -/
def FreesUnused (s : State) (D : Finset Mux) (p : Option Slot) : Prop :=
  ∀ g, s.Frees D g → ∀ q, (g ∈ (s.proc q).held → some q = p) ∧ ¬ (s.proc q).pc.wokenFor g

/-- What the calls have to meet for mutual exclusion. -/
def Orderly (s : State) : Act → Prop
  | .mxacquire p m => ∀ g, (s.proc p).mxproc m = some g →
      g = m ∧ (s.mxarray g).name ≠ 0 ∧
      ((s.mxarray g).lock = false → ∀ q, ¬ (s.proc q).pc.wokenFor g)
  | .mxrelease p m => ∀ g, (s.proc p).mxproc m = some g → (s.mxarray g).name ≠ 0 →
      if (s.mxarray g).lock then ∀ q, g ∈ (s.proc q).held → q = p
      else ∀ q q', (s.proc q).pc.waits g → (s.proc q').pc.waits g → q = q'
  | .mxdelete _ m => FreesUnused s {m} none
  | .exit p => FreesUnused s (s.handlesOf p) (some p)
  | _ => True

instance (s : State) (D : Finset Mux) (g : Mux) : Decidable (s.Frees D g) :=
  inferInstanceAs (Decidable (_ ∧ _ ∧ _))

instance (s : State) (D : Finset Mux) (p : Option Slot) : Decidable (FreesUnused s D p) := by
  dsimp only [FreesUnused]; infer_instance

instance (s : State) (a : Act) : Decidable (Orderly s a) := by
  cases a <;> dsimp only [Orderly] <;> infer_instance

/-! ## What the calls do to an entry -/

section
variable {s : State} {p : Slot} {g : Mux}

/-- `initmutex` keeps the lock and the name of an entry in use. -/
theorem initmutex_mxarray (name : UInt32) (hg : (s.mxarray g).name ≠ 0) :
    (((s.initmutex p name).2.mxarray g).lock = (s.mxarray g).lock) ∧
      ((s.initmutex p name).2.mxarray g).name = (s.mxarray g).name := by
  unfold initmutex
  split
  · exact ⟨rfl, rfl⟩
  split
  · exact ⟨rfl, rfl⟩
  · next _ i _ _ j _ =>
    rcases eq_or_ne g i with rfl | hgi
    · simp [Entry.joined, hg]
    · simp [hgi]

/-- `initmutex` moves no process and gives none a mutex. -/
theorem initmutex_proc (name : UInt32) (q : Slot) :
    ((s.initmutex p name).2.proc q).pc = (s.proc q).pc ∧
      ((s.initmutex p name).2.proc q).held = (s.proc q).held := by
  unfold initmutex
  split
  · exact ⟨rfl, rfl⟩
  split
  · exact ⟨rfl, rfl⟩
  · rcases eq_or_ne q p with rfl | hqp
    · simp
    · simp [hqp]

/-- `mxdelete` frees an entry or keeps its lock and its name. -/
theorem mxdelete_mxarray (m : Mux) (hg : ((s.mxdelete m).mxarray g).name ≠ 0) :
    ((s.mxdelete m).mxarray g).lock = (s.mxarray g).lock ∧
      ((s.mxdelete m).mxarray g).name = (s.mxarray g).name := by
  unfold mxdelete at hg ⊢
  split at hg
  · exact ⟨rfl, rfl⟩
  next g' _ =>
  simp only at hg ⊢
  split at hg
  · next h0 => simp only [h0, if_true, and_self]
  next h0 =>
  simp only [h0, if_false, setProc_mxarray, setEntry_mxarray] at hg ⊢
  rcases eq_or_ne g g' with rfl | hgg
  · simp only [update_self] at hg ⊢
    split at hg
    · exact absurd rfl hg
    · next h1 => simp only [h1, if_false, and_self]
  · simp only [update_of_ne hgg, and_self]

/-- `mxdelete` moves no process and takes no mutex from one. -/
theorem mxdelete_proc (m : Mux) (q : Slot) : ((s.mxdelete m).proc q).pc = (s.proc q).pc ∧
      ((s.mxdelete m).proc q).held = (s.proc q).held := by
  unfold mxdelete
  split
  · exact ⟨rfl, rfl⟩
  simp only
  split
  · exact ⟨rfl, rfl⟩
  · rcases eq_or_ne q 0 with rfl | hq
    · simp
    · simp [hq]

/-- `mxdelete` gives nobody a handle, and takes none but the first process's. -/
theorem mxdelete_mxproc (h : ((s.mxdelete m).proc q).mxproc j = some o)
    : (s.proc q).mxproc j = some o := by
  unfold mxdelete at h
  split at h
  · exact h
  dsimp only at h
  split at h
  · exact h
  rcases eq_or_ne q 0 with rfl | hq
  · rcases eq_or_ne j m with rfl | hj
    · simp at h
    · simpa [hj] using h
  · simpa [hq] using h

/-- What `mxdelete` does to an entry: nothing, or the first process had the handle on it and it
counts one less, or it is freed. -/
theorem mxdelete_entry (m g : Mux) : (s.mxdelete m).mxarray g = s.mxarray g ∨
    (s.proc 0).mxproc m = some g ∧
      (s.mxdelete m).mxarray g = if (s.mxarray g).num_proc - 1 = 0 then .free
        else { s.mxarray g with num_proc := (s.mxarray g).num_proc - 1 } := by
  unfold mxdelete
  split
  · exact .inl rfl
  next g' hm =>
  dsimp only
  split
  · exact .inl rfl
  · rcases eq_or_ne g g' with rfl | hg
    · exact .inr ⟨hm, by simp⟩
    · exact .inl (by simp [hg])

/-- An entry is freed with the last handle it counts. -/
theorem frees_mxdelete (hn : (s.mxarray g).name ≠ 0)
    (h0 : ((s.mxdelete m).mxarray g).name = 0) : s.Frees {m} g := by
  rcases mxdelete_entry (s := s) m g with heq | ⟨hm, heq⟩
  · exact absurd (heq ▸ h0) hn
  rw [heq] at h0
  split at h0
  · next hsub =>
    have hone : (s.mxarray g).num_proc = 1 := by
      rwa [sub_eq_zero] at hsub
    refine ⟨hn, by rw [hone]; decide, ?_⟩
    rw [hone, filter_singleton, if_pos hm, card_singleton]
    decide
  · exact absurd h0 hn

theorem State.Frees.mono (h : s.Frees D g) (hD : D ⊆ D') : s.Frees D' g :=
  ⟨h.1, h.2.1, h.2.2.trans (card_le_card (filter_subset_filter _ hD))⟩

/-- One more handle is deleted first. -/
theorem State.Frees.insert (h : (s.mxdelete m).Frees D g) (hm : m ∉ D)
    (hn : (s.mxarray g).name ≠ 0) : s.Frees (Insert.insert m D) g := by
  obtain ⟨h1, hpos, hle⟩ := h
  have hsub : (D.filter fun j => ((s.mxdelete m).proc 0).mxproc j = some g) ⊆
      D.filter fun j => (s.proc 0).mxproc j = some g :=
    monotone_filter_right D fun j _ => mxdelete_mxproc
  have hcard := card_le_card hsub
  rcases mxdelete_entry (s := s) m g with heq | ⟨hdel, heq⟩
  · rw [heq] at hpos hle
    exact State.Frees.mono ⟨hn, hpos, hle.trans hcard⟩ (subset_insert m D)
  have hten := card_le_univ (D.filter fun j => (s.proc 0).mxproc j = some g)
  rw [heq] at hpos hle h1
  split at h1
  · exact absurd rfl h1
  next hne =>
  rw [if_neg hne] at hpos hle
  rw [Fintype.card_fin] at hten
  have hout : m ∉ D.filter fun j => (s.proc 0).mxproc j = some g := fun h =>
    hm (mem_filter.1 h).1
  have hlt := (s.mxarray g).num_proc.toNat_lt
  dsimp only at hpos hle
  rw [UInt32.toNat_sub, show (1 : UInt32).toNat = 1 from rfl] at hpos hle
  rw [State.Frees, filter_insert, if_pos hdel, card_insert_of_notMem hout]
  simp only [MUX_MAXNUM] at hten
  exact ⟨hn, by omega, by omega⟩

/-- The loop of `exit` frees an entry when it has deleted as many handles on it as it counts. -/
theorem frees_deleteAll (hn : (s.mxarray g).name ≠ 0)
    (h0 : ((s.deleteAll p).mxarray g).name = 0) : s.Frees (s.handlesOf p) g := by
  -- over the handles that the loop has not come to, which are those of the process still
  have hloop : ∀ (l : List Mux) (s : State), l.Nodup → (s.mxarray g).name ≠ 0 →
      ((l.foldl (fun s fd => if ((s.proc p).mxproc fd).isSome then s.mxdelete fd else s)
        s).mxarray g).name = 0 → s.Frees (s.handlesOf p ∩ l.toFinset) g := by
    intro l
    induction l with
    | nil => exact fun s _ hn h0 => absurd h0 hn
    | cons fd l ih =>
      intro s hnd hn h0
      obtain ⟨hfd, hnd⟩ := List.nodup_cons.1 hnd
      rw [List.foldl_cons] at h0
      split at h0
      swap
      · refine (ih s hnd hn h0).mono (inter_subset_inter_left ?_)
        exact fun j hj => by simp [List.mem_toFinset.1 hj]
      next hsome =>
      have hmem : fd ∈ s.handlesOf p ∩ (fd :: l).toFinset := by simp [handlesOf, hsome]
      by_cases h1 : ((s.mxdelete fd).mxarray g).name = 0
      · exact (frees_mxdelete hn h1).mono (singleton_subset_iff.2 hmem)
      refine ((ih _ hnd h1 h0).insert (by simp [hfd]) hn).mono fun j hj => ?_
      rcases mem_insert.1 hj with rfl | hj
      · exact hmem
      simp only [handlesOf, mem_inter, mem_filter, mem_univ, true_and,
        List.mem_toFinset, List.mem_cons] at hj ⊢
      obtain ⟨o, ho⟩ := Option.isSome_iff_exists.1 hj.1
      exact ⟨by rw [mxdelete_mxproc ho]; rfl, .inr hj.2⟩
  have hall := hloop (List.finRange MUX_MAXNUM) s (List.nodup_finRange _) hn h0
  rwa [List.toFinset_finRange, inter_univ] at hall

/-- A property of all entries and processes that each `mxdelete` keeps is kept by `exit`'s loop. -/
theorem deleteAll_induct {P : State → Prop} (h : ∀ s m, P s → P (s.mxdelete m)) (hs : P s) :
    P (s.deleteAll p) := by
  unfold deleteAll
  generalize List.finRange MUX_MAXNUM = l
  induction l generalizing s with
  | nil => exact hs
  | cons fd l ih =>
    rw [List.foldl_cons]
    apply ih
    split
    · exact h _ _ hs
    · exact hs

/-- The loop of `exit` frees an entry or keeps its lock and its name. -/
theorem deleteAll_mxarray (hg : ((s.deleteAll p).mxarray g).name ≠ 0) :
    ((s.deleteAll p).mxarray g).lock = (s.mxarray g).lock ∧
      ((s.deleteAll p).mxarray g).name = (s.mxarray g).name := by
  revert hg
  refine deleteAll_induct (P := fun t => (t.mxarray g).name ≠ 0 →
    (t.mxarray g).lock = (s.mxarray g).lock ∧ (t.mxarray g).name = (s.mxarray g).name) ?_
    fun _ => ⟨rfl, rfl⟩
  intro t m ih hg
  obtain ⟨hl, hn⟩ := mxdelete_mxarray m hg
  obtain ⟨hl', hn'⟩ := ih (hn ▸ hg)
  exact ⟨hl.trans hl', hn.trans hn'⟩

/-- The loop of `exit` moves no process and takes no mutex from one. -/
theorem deleteAll_proc (q : Slot) : ((s.deleteAll p).proc q).pc = (s.proc q).pc ∧
      ((s.deleteAll p).proc q).held = (s.proc q).held := by
  refine deleteAll_induct (P := fun t => (t.proc q).pc = (s.proc q).pc ∧
    (t.proc q).held = (s.proc q).held) ?_ ⟨rfl, rfl⟩
  intro t m ⟨hc, hh⟩
  obtain ⟨hc', hh'⟩ := mxdelete_proc (s := t) m q
  exact ⟨hc'.trans hc, hh'.trans hh⟩

end

/-! ## The invariant -/

/-- A mutex that is held is locked, and a process woken for a mutex is the only one and finds
nobody in it. -/
structure Safe (s : State) : Prop where
  one : Exclusive s
  locked : ∀ p g, g ∈ (s.proc p).held → (s.mxarray g).lock = true ∧ (s.mxarray g).name ≠ 0
  asleep : ∀ p m g, (s.proc p).pc = .asleep m g → m = g
  woken : ∀ p m g, (s.proc p).pc = .woken m g → m = g ∧ (s.mxarray g).name ≠ 0 ∧
    (∀ q, g ∉ (s.proc q).held) ∧ ∀ q, (s.proc q).pc.wokenFor g → q = p

section
variable {s s' : State} {p : Slot} {m g : Mux}

theorem Pc.wokenFor_iff {c : Pc} : c.wokenFor g ↔ ∃ m, c = .woken m g := by
  cases c <;> simp [Pc.wokenFor]

theorem safe_initial : Safe initial where
  one p _ _ h := by simp [initial, Proc.clear] at h
  locked p _ h := by simp [initial, Proc.clear] at h
  asleep p _ _ h := by simp only [initial, Proc.clear] at h; split at h <;> cases h
  woken p _ _ h := by simp only [initial, Proc.clear] at h; split at h <;> cases h

/-- A step that gives no process a mutex and wakes none is safe if it keeps the locks of what is
still held and the names of what is still in use. -/
theorem Safe.shrink (h : Safe s)
    (hpc : ∀ q, (s'.proc q).pc = (s.proc q).pc ∨ (s'.proc q).pc = .run ∨ (s'.proc q).pc = .dead ∨
      ∃ g, (s'.proc q).pc = .asleep g g) (hheld : ∀ q, (s'.proc q).held ⊆ (s.proc q).held)
    (hlock : ∀ q g, g ∈ (s'.proc q).held → (s'.mxarray g).lock = (s.mxarray g).lock)
    (hname : ∀ q g, g ∈ (s'.proc q).held ∨ (s'.proc q).pc.wokenFor g →
      (s.mxarray g).name ≠ 0 → (s'.mxarray g).name ≠ 0) : Safe s' := by
  have hwoken : ∀ q m g, (s'.proc q).pc = .woken m g → (s.proc q).pc = .woken m g := by
    intro q m g hq
    rcases hpc q with he | he | he | ⟨g, he⟩ <;> rw [hq] at he
    · exact he.symm
    all_goals cases he
  refine ⟨fun p q g hp hq => h.one p q g (hheld p hp) (hheld q hq), fun q g hq => ?_,
    fun q m g hq => ?_, fun q m g hq => ?_⟩
  · obtain ⟨hl, hn⟩ := h.locked q g (hheld q hq)
    exact ⟨(hlock q g hq).trans hl, hname q g (.inl hq) hn⟩
  · rcases hpc q with he | he | he | ⟨g', he⟩ <;> rw [hq] at he
    · exact h.asleep q m g he.symm
    · cases he
    · cases he
    · cases he; rfl
  · obtain ⟨hm, hn, hfree, hone⟩ := h.woken q m g (hwoken q m g hq)
    refine ⟨hm, hname q g (.inr (Pc.wokenFor_iff.2 ⟨m, hq⟩)) hn,
      fun r hr => hfree r (hheld r hr), fun r hr => ?_⟩
    obtain ⟨m', hr⟩ := Pc.wokenFor_iff.1 hr
    exact hone r (Pc.wokenFor_iff.2 ⟨m', hwoken r m' g hr⟩)

/-- A process may enter a mutex nobody is in and nobody else was woken for. -/
theorem Safe.enter (h : Safe s) (hfree : ∀ q, g ∉ (s.proc q).held) (hn : (s.mxarray g).name ≠ 0)
    (hw : ∀ q, (s.proc q).pc.wokenFor g → q = p) : Safe ((s.xchg g true).enter p g) := by
  have hproc : ∀ q, q ≠ p → ((s.xchg g true).enter p g).proc q = s.proc q := fun q hq => by
    simp [State.enter, State.xchg, hq]
  have hself : (((s.xchg g true).enter p g).proc p).pc = .run := by simp [State.enter]
  have hheld : ∀ q g', g' ∈ (((s.xchg g true).enter p g).proc q).held →
      q = p ∧ g' = g ∨ g' ∈ (s.proc q).held := fun q g' hq => by
    rcases eq_or_ne q p with rfl | hqp
    · simp only [State.enter, setProc_proc, update_self, mem_insert] at hq
      exact hq.imp (⟨rfl, ·⟩) id
    · rw [hproc q hqp] at hq; exact .inr hq
  have hentry : ∀ g', g' ≠ g → ((s.xchg g true).enter p g).mxarray g' = s.mxarray g' :=
    fun g' hg' => by simp [State.enter, State.xchg, hg']
  have hset : ((s.xchg g true).enter p g).mxarray g = { s.mxarray g with lock := true } := by
    simp [State.enter, State.xchg]
  have hname : ∀ g', (((s.xchg g true).enter p g).mxarray g').name = (s.mxarray g').name :=
    fun g' => by
      rcases eq_or_ne g' g with rfl | hg'
      · rw [hset]
      · rw [hentry g' hg']
  refine ⟨fun q r g' hq hr => ?_, fun q g' hq => ?_, fun q m g' hq => ?_, fun q m g' hq => ?_⟩
  · rcases hheld q g' hq with ⟨rfl, rfl⟩ | hq' <;> rcases hheld r g' hr with ⟨rfl, he⟩ | hr'
    · rfl
    · exact absurd hr' (hfree r)
    · exact absurd (he ▸ hq') (hfree q)
    · exact h.one q r g' hq' hr'
  · rw [hname]
    rcases hheld q g' hq with ⟨rfl, rfl⟩ | hq'
    · rw [hset]; exact ⟨rfl, hn⟩
    · have hg' : g' ≠ g := fun he => hfree q (he ▸ hq')
      rw [hentry g' hg']; exact h.locked q g' hq'
  · have hqp : q ≠ p := by rintro rfl; rw [hself] at hq; cases hq
    rw [hproc q hqp] at hq
    exact h.asleep q m g' hq
  · have hqp : q ≠ p := by rintro rfl; rw [hself] at hq; cases hq
    rw [hproc q hqp] at hq
    have hg' : g' ≠ g := by rintro rfl; exact hqp (hw q (Pc.wokenFor_iff.2 ⟨m, hq⟩))
    obtain ⟨hm, hn', hfree', hone⟩ := h.woken q m g' hq
    refine ⟨hm, hname g' ▸ hn', fun r hr => ?_, fun r hr => ?_⟩
    · rcases hheld r g' hr with ⟨-, rfl⟩ | hr
      · exact hg' rfl
      · exact hfree' r hr
    · have hrp : r ≠ p := by rintro rfl; rw [hself] at hr; exact hr
      rw [hproc r hrp] at hr
      exact hone r hr

/-- What `wakeup` does to a process. -/
theorem wakeup_pc (q : Slot) : ((s.wakeup g).proc q).pc = (s.proc q).pc ∨
    ∃ m, (s.proc q).pc = .asleep m g ∧ ((s.wakeup g).proc q).pc = .woken m g := by
  unfold wakeup
  simp only
  split
  · next m g' hq =>
    split
    · next he => exact .inr ⟨m, he ▸ hq, rfl⟩
    · exact .inl rfl
  · exact .inl rfl

theorem wakeup_held (q : Slot) : ((s.wakeup g).proc q).held = (s.proc q).held := by
  unfold wakeup
  simp only
  split
  · split <;> rfl
  · rfl

/-- One process may be woken for a mutex that is not locked. -/
theorem Safe.wakeup (h : Safe s) (hl : (s.mxarray g).lock = false) (hn : (s.mxarray g).name ≠ 0)
    (hone : ∀ q q', (s.proc q).pc.waits g → (s.proc q').pc.waits g → q = q') :
    Safe (s.wakeup g) := by
  have hfree : ∀ q, g ∉ (s.proc q).held := fun q hq => by
    rw [(h.locked q g hq).1] at hl; cases hl
  -- a process woken for `g` waited for it before
  have hwait : ∀ q, ((s.wakeup g).proc q).pc.wokenFor g → (s.proc q).pc.waits g := fun q hq => by
    obtain ⟨m, hq⟩ := Pc.wokenFor_iff.1 hq
    rcases wakeup_pc (s := s) (g := g) q with he | ⟨m', he, -⟩
    · rw [← he, hq]; rfl
    · rw [he]; rfl
  refine ⟨fun q r g' hq hr => ?_, fun q g' hq => ?_, fun q m g' hq => ?_, fun q m g' hq => ?_⟩
  · rw [wakeup_held] at hq hr; exact h.one q r g' hq hr
  · rw [wakeup_held] at hq; exact h.locked q g' hq
  · rcases wakeup_pc (s := s) (g := g) q with he | ⟨m', -, he⟩ <;> rw [he] at hq
    · exact h.asleep q m g' hq
    · cases hq
  · rcases wakeup_pc (s := s) (g := g) q with he | ⟨m', ha, he⟩
    · obtain ⟨hm, hn', hfree', hone'⟩ := h.woken q m g' (he ▸ hq)
      refine ⟨hm, hn', fun r hr => hfree' r (wakeup_held (s := s) r ▸ hr), fun r hr => ?_⟩
      rcases eq_or_ne g' g with rfl | hg'
      · exact hone r q (hwait r hr) (hwait q (Pc.wokenFor_iff.2 ⟨m, hq⟩))
      · rcases wakeup_pc (s := s) (g := g) r with her | ⟨_, -, her⟩
        · exact hone' r (her ▸ hr)
        · rw [her] at hr; exact absurd hr.symm hg'
    · rw [he] at hq
      cases hq
      refine ⟨h.asleep q m g ha, hn, fun r hr => hfree r (wakeup_held (s := s) r ▸ hr),
        fun r hr => hone r q (hwait r hr) (by rw [ha]; rfl)⟩

/-- `mxacquire`, if it is orderly. -/
theorem Safe.mxacquire (h : Safe s) (ho : Orderly s (.mxacquire p m)) : Safe (s.mxacquire p m) := by
  unfold State.mxacquire
  split
  · exact h
  next _ g hm =>
  obtain ⟨rfl, hn, hw⟩ := ho g hm
  rw [if_neg hn]
  split
  · refine h.shrink (fun q => ?_) (fun q => ?_) (fun _ _ _ => rfl) fun _ _ _ hn => hn
    · rcases eq_or_ne q p with rfl | hqp
      · exact .inr (.inr (.inr ⟨g, by simp⟩))
      · exact .inl (by simp [hqp])
    · rcases eq_or_ne q p with rfl | hqp
      · simp
      · simp [hqp]
  · next hl =>
    simp only [Bool.not_eq_true] at hl
    refine h.enter (fun q hq => ?_) hn fun q hq => absurd hq (hw hl q)
    rw [(h.locked q g hq).1] at hl
    cases hl

/-- The end of `mxacquire` after its `sleep`. -/
theorem Safe.resume (h : Safe s) (hp : (s.proc p).pc = .woken m g) : Safe (s.resume p m g) := by
  obtain ⟨rfl, hn, hfree, hone⟩ := h.woken p m g hp
  exact h.enter hfree hn hone

/-- A call of `mxrelease` ends what its caller holds, whatever becomes of the locks of mutexes
that are not held. -/
theorem Safe.leave (h : Safe s) : Safe (s.leave p g) := by
  refine h.shrink (fun q => .inl ?_) (fun q => ?_) (fun _ _ _ => rfl) fun _ _ _ hn => hn
  · rcases eq_or_ne q p with rfl | hqp
    · simp [State.leave]
    · simp [State.leave, hqp]
  · rcases eq_or_ne q p with rfl | hqp
    · simpa [State.leave] using erase_subset _ _
    · simp [State.leave, hqp]

/-- `mxrelease`, if it is orderly. -/
theorem Safe.mxrelease (h : Safe s) (ho : Orderly s (.mxrelease p m)) : Safe (s.mxrelease p m) := by
  unfold State.mxrelease
  split
  · exact h
  next _ g hm =>
  have ho := ho g hm
  split
  · exact h.leave
  next hn =>
  have ho := ho hn
  split
  · next hl =>
    rw [if_pos hl] at ho
    -- the lock is cleared before the caller leaves, which nobody sees
    have hrest : ∀ q g', g' ∈ (((s.xchg g false).leave p g).proc q).held →
        g' ∈ (s.proc q).held ∧ g' ≠ g := fun q g' hq => by
      rcases eq_or_ne q p with rfl | hqp
      · simp only [State.leave, setProc_proc, update_self,
          mem_erase] at hq
        exact ⟨hq.2, hq.1⟩
      · simp only [State.leave, setProc_proc, update_of_ne hqp] at hq
        exact ⟨hq, fun he => hqp (ho q (he ▸ hq))⟩
    refine h.shrink (fun q => .inl ?_) (fun q g' hq => (hrest q g' hq).1) (fun q g' hq => ?_)
      fun q g' _ hn => ?_
    · rcases eq_or_ne q p with rfl | hqp
      · simp [State.leave, State.xchg]
      · simp [State.leave, State.xchg, hqp]
    · simp [State.leave, State.xchg, (hrest q g' hq).2]
    · rcases eq_or_ne g' g with rfl | hg'
      · simpa [State.leave, State.xchg] using hn
      · simpa [State.leave, State.xchg, hg'] using hn
  · next hl =>
    rw [if_neg hl] at ho
    exact (h.wakeup (by simpa using hl) hn ho).leave

/-- A step that only frees entries out of use, and perhaps ends a process. -/
theorem Safe.frees {r : Option Slot} (h : Safe s) (hf : FreesUnused s D r)
    (hD : ∀ g, (s.mxarray g).name ≠ 0 → (s'.mxarray g).name = 0 → s.Frees D g)
    (hent : ∀ g, (s'.mxarray g).name ≠ 0 → (s'.mxarray g).lock = (s.mxarray g).lock)
    (hpc : ∀ q, (s'.proc q).pc = (s.proc q).pc ∨ (s'.proc q).pc = .dead)
    (hheld : ∀ q, (s'.proc q).held ⊆ (s.proc q).held)
    (hr : ∀ q, some q = r → (s'.proc q).held = ∅) : Safe s' := by
  have hname : ∀ q g, g ∈ (s'.proc q).held ∨ (s'.proc q).pc.wokenFor g →
      (s.mxarray g).name ≠ 0 → (s'.mxarray g).name ≠ 0 := by
    intro q g hq hn hn'
    obtain ⟨hown, hwoken⟩ := hf g (hD g hn hn') q
    rcases hq with hq | hq
    · rw [hr q (hown (hheld q hq))] at hq
      exact absurd hq (notMem_empty g)
    · rcases hpc q with he | he <;> rw [he] at hq
      · exact hwoken hq
      · exact hq
  refine h.shrink (fun q => (hpc q).imp id fun he => .inr (.inl he)) hheld (fun q g hq => ?_) hname
  exact hent g (hname q g (.inl hq) (h.locked q g (hheld q hq)).2)

/-- Every orderly step keeps the invariant. -/
theorem Safe.step (h : Safe s) (ho : Orderly s a) (hs : next s a = some s') : Safe s' := by
  cases a with
  | fork p =>
    simp only [next] at hs
    split at hs <;> cases hs
    refine h.shrink (fun q => ?_) (fun q => ?_) (fun _ _ _ => rfl) fun _ _ _ hn => hn
    · rcases eq_or_ne q p with rfl | hqp
      · exact .inr (.inl (by simp [Proc.clear]))
      · exact .inl (by simp [hqp])
    · rcases eq_or_ne q p with rfl | hqp
      · simp [Proc.clear]
      · simp [hqp]
  | initmutex p name =>
    simp only [next] at hs
    split at hs <;> cases hs
    refine h.shrink (fun q => .inl (initmutex_proc name q).1)
      (fun q => (initmutex_proc name q).2.subset) (fun q g hq => ?_) fun q g _ hn => ?_
    · rw [(initmutex_proc name q).2] at hq
      exact (initmutex_mxarray name (h.locked q g hq).2).1
    · rw [(initmutex_mxarray name hn).2]
      exact hn
  | mxacquire p m =>
    simp only [next] at hs
    split at hs <;> cases hs
    exact h.mxacquire ho
  | resume p =>
    simp only [next] at hs
    split at hs <;> cases hs
    next hp => exact h.resume hp
  | mxrelease p m =>
    simp only [next] at hs
    split at hs <;> cases hs
    exact h.mxrelease ho
  | mxdelete p m =>
    simp only [next] at hs
    split at hs <;> cases hs
    exact h.frees ho (fun g => frees_mxdelete) (fun g hg => (mxdelete_mxarray m hg).1)
      (fun q => .inl (mxdelete_proc m q).1) (fun q => (mxdelete_proc m q).2.subset)
      fun q hq => by cases hq
  | exit p =>
    simp only [next] at hs
    split at hs <;> cases hs
    refine h.frees (r := some p) ho (fun g => frees_deleteAll)
      (fun g hg => (deleteAll_mxarray hg).1) (fun q => ?_) (fun q => ?_) fun q hq => ?_
    · rcases eq_or_ne q p with rfl | hqp
      · exact .inr (by simp [exit])
      · exact .inl (by simp [exit, hqp, deleteAll_proc])
    · rcases eq_or_ne q p with rfl | hqp
      · simp [exit]
      · simp [exit, hqp, deleteAll_proc]
    · cases hq
      simp [exit]

end

/-- **Orderly calls exclude.** In every run whose calls are all orderly, no two processes are ever
in the same mutex. -/
theorem exclusive_of_orderly {s : State} (h : (system.restrict Orderly).Reach s) : Exclusive s := by
  have hI : Safe s := h.invariant
    (fun s hs => by
      obtain rfl : s = initial := hs
      exact safe_initial)
    (fun s a s' hI hs => hI.step hs.1 hs.2)
  exact hI.one

/-- Process 2 waits for the mutex that process 1 holds. The first `mxrelease` unlocks it, the
second one wakes the waiter. -/
def handOver : List Act :=
  [.fork 1, .fork 2, .initmutex 1 100, .initmutex 2 100, .mxacquire 1 0, .mxacquire 2 0,
    .mxrelease 1 0, .mxrelease 1 0, .resume 2]

/-- `exclusive_of_orderly` on the run of `handOver`. -/
theorem exclusive_handOver : ∃ s, (system.restrict Orderly).Reach s ∧ 0 ∈ (s.proc 2).held ∧
    Exclusive s := by
  obtain ⟨s, hreach, h2⟩ := system.exists_reach Orderly next initial handOver
    (Q := fun s => 0 ∈ (s.proc 2).held) rfl rfl (by decide +kernel)
  exact ⟨s, hreach, h2, exclusive_of_orderly hreach⟩

/-- Processes 1 and 2 make the mutexes 100 and 200 in different orders, so that the second one has
handle 1 in the first process and handle 0 in the other, and both take it. -/
def otherOrder : List Act :=
  [.fork 1, .fork 2, .initmutex 1 100, .initmutex 1 200, .initmutex 2 200,
    .mxacquire 2 0, .mxacquire 1 1]

/-- **The mutexes do not exclude.** The process whose handle is 0 sets the lock of entry 0 when it
takes the mutex in entry 1, so the next process finds entry 1 unlocked. -/
theorem not_exclusive : ¬ ∀ s, system.Reach s → Exclusive s := by
  intro H
  obtain ⟨s, hreach, h1, h2⟩ := system.exists_run next initial otherOrder
    (Q := fun s => 1 ∈ (s.proc 1).held ∧ 1 ∈ (s.proc 2).held) rfl rfl (by decide +kernel)
  exact absurd (H s hreach 1 2 1 h1 h2) (by decide)

end Msboss.Mutex
