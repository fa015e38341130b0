import Msboss.Mutex.Members
import Msboss.Lib.Table

/-!
# Mutexes by name

`sys_mutex_create` passes on the address of the name in the caller's memory, and `initmutex`
compares addresses. The memory is not looked at, so that processes that use one name at different
addresses get different mutexes, and processes with different names at one address get the same
(`names_confused`). The search for the name also stops at the first free entry.

A `Book` is the state with the calls of `mutex_create` that are still live: the address and the
bytes of the name, and the entry that was got. Names identify mutexes (`names_identify`) if
addresses do identify names, no free entry comes before the one that is looked for, and no entry is
freed under a live call.
-/

namespace Msboss.Mutex

/-- A successful call of `mutex_create`: the caller, the handle, the name by address and by content,
and the entry of the handle. -/
structure Made where
  proc : Slot
  handle : Mux
  name : UInt32
  content : List UInt8
  gid : Option Mux
  deriving DecidableEq, Repr

/-- The state, with the calls of `mutex_create` whose handle was not deleted by the caller since,
and whose caller has not exited. -/
structure Book where
  state : State
  live : List Made

/-- The calls. The name of `create` is in the caller's memory, which holds `content` there. -/
inductive Call
  | fork (p : Slot)
  | create (p : Slot) (name : UInt32) (content : List UInt8)
  | delete (p : Slot) (m : Mux)
  | exit (p : Slot)
  deriving DecidableEq, Repr

namespace Book

/-- `sys_mutex_create`, called by `p`. -/
def create (b : Book) (p : Slot) (name : UInt32) (content : List UInt8) : Book :=
  match b.state.initmutex p name with
  | (none, s) => { b with state := s }
  | (some j, s) => { state := s, live := ⟨p, j, name, content, (s.proc p).mxproc j⟩ :: b.live }

/-- `sys_mutex_delete`, called by `p`. -/
def delete (b : Book) (p : Slot) (m : Mux) : Book where
  state := b.state.mxdelete m
  live := b.live.filter fun y => (y.proc, y.handle) ≠ (p, m)

/-- `exit`, called by `p`. -/
def exit (b : Book) (p : Slot) : Book where
  state := b.state.exit p
  live := b.live.filter fun y => y.proc ≠ p

/-- A call, if it is possible. -/
def next (b : Book) : Call → Option Book
  | .fork p => (Mutex.next b.state (.fork p)).map fun s => { b with state := s }
  | .create p name content =>
    if (b.state.proc p).pc = .run then some (b.create p name content) else none
  | .delete p m => if (b.state.proc p).pc = .run then some (b.delete p m) else none
  | .exit p => if (b.state.proc p).pc = .run ∧ p ≠ 0 then some (b.exit p) else none

end Book

/-- Every sequence of calls. -/
def book : System Book Call := .ofNext (· = { state := initial, live := [] }) Book.next

/-- Live calls of `mutex_create` have got the same mutex exactly if their names are the same. -/
def NamesIdentify (b : Book) : Prop :=
  ∀ y ∈ b.live, ∀ z ∈ b.live, y.gid = z.gid ↔ y.content = z.content

/-- The address tells whether the name is that of a live call, and then no free entry comes before
that call's. -/
structure Distinct (b : Book) (name : UInt32) (content : List UInt8) : Prop where
  nonnull : name ≠ 0
  address : ∀ y ∈ b.live, name = y.name ↔ content = y.content
  first : ∀ y ∈ b.live, name = y.name → ∀ g ∈ y.gid, ∀ k < g, (b.state.mxarray k).name ≠ 0

/-- To delete the handles `D` frees no entry of those live calls that stay live. -/
def Kept (b : Book) (stays : Made → Bool) (D : Finset Mux) : Prop :=
  ∀ y ∈ b.live, stays y → ∀ g ∈ y.gid, ¬ b.state.Frees D g

/-- Names are told apart by their addresses, and no entry is freed under a live call. -/
def AddressesIdentify (b : Book) : Call → Prop
  | .fork _ => True
  | .create _ name content => Distinct b name content
  | .delete p m => Kept b (fun y => (y.proc, y.handle) ≠ (p, m)) {m}
  | .exit p => Kept b (fun y => y.proc ≠ p) (b.state.handlesOf p)

/-- What holds of a live call: it has an entry, which is the first one of that name. -/
def Made.Ok (y : Made) (s : State) : Prop :=
  y.name ≠ 0 ∧ ∃ g, y.gid = some g ∧ (s.mxarray g).name = y.name ∧
    ∀ k < g, (s.mxarray k).name ≠ y.name

/-- The invariant. -/
structure Book.Ok (b : Book) : Prop where
  made : ∀ y ∈ b.live, y.Ok b.state
  address : ∀ y ∈ b.live, ∀ z ∈ b.live, y.name = z.name ↔ y.content = z.content

section
variable {b b' : Book} {s s' : State} {y z : Made} {p : Slot} {m : Mux}

/-- Two calls have the same entry exactly if they have passed the same address. -/
theorem Made.Ok.gid_eq (hy : y.Ok s) (hz : z.Ok s) : y.gid = z.gid ↔ y.name = z.name := by
  obtain ⟨-, g, hg, hname, hfirst⟩ := hy
  obtain ⟨-, g', hg', hname', hfirst'⟩ := hz
  rw [hg, hg', Option.some.injEq]
  constructor
  · rintro rfl
    exact hname.symm.trans hname'
  · intro heq
    rcases lt_trichotomy g g' with hlt | hgg | hgt
    · exact absurd (hname.trans heq) (hfirst' g hlt)
    · exact hgg
    · exact absurd (hname'.trans heq.symm) (hfirst g' hgt)

theorem Book.Ok.identify (h : b.Ok) : NamesIdentify b := fun y hy z hz =>
  ((h.made y hy).gid_eq (h.made z hz)).trans (h.address y hy z hz)

/-- Entries that keep their names, and free ones, do not disturb a live call. -/
theorem Made.Ok.frame (h : y.Ok s) (hkeep : ∀ g ∈ y.gid, (s'.mxarray g).name ≠ 0)
    (hname : ∀ g, (s'.mxarray g).name ≠ 0 → (s'.mxarray g).name = (s.mxarray g).name) :
    y.Ok s' := by
  obtain ⟨h0, g, hg, hgname, hfirst⟩ := h
  refine ⟨h0, g, hg, (hname g (hkeep g hg)).trans hgname, fun k hk hkname => ?_⟩
  refine hfirst k hk ((hname k ?_).symm.trans hkname)
  rw [hkname]
  exact h0

/-- Calls stay in order when entries are freed that they do not have. -/
theorem Book.Ok.frees (h : b.Ok) (hkept : Kept b stays D)
    (hD : ∀ g, (b.state.mxarray g).name ≠ 0 → (s'.mxarray g).name = 0 → b.state.Frees D g)
    (hname : ∀ g, (s'.mxarray g).name ≠ 0 → (s'.mxarray g).name = (b.state.mxarray g).name) :
    Book.Ok { state := s', live := b.live.filter stays } where
  made y hy := by
    obtain ⟨hy, hstays⟩ := List.mem_filter.1 hy
    refine (h.made y hy).frame (fun g hg h0 => ?_) hname
    obtain ⟨hne, g', hg', hgname, -⟩ := h.made y hy
    obtain rfl : g = g' := Option.some.inj (hg.symm.trans hg')
    exact hkept y hy hstays g hg (hD g (hgname ▸ hne) h0)
  address y hy z hz :=
    h.address y (List.mem_filter.1 hy).1 z (List.mem_filter.1 hz).1

/-- The entry that `initmutex` finds is the first one that is free or has the name. -/
theorem scan_first (h : s.scan name = some i) (hk : k < i) :
    (s.mxarray k).name ≠ 0 ∧ (s.mxarray k).name ≠ name := by
  have := (find?_finRange_eq_some.1 h).2 k hk
  simpa [not_or] using this

/-- `initmutex` gives the entry that it finds the name. -/
theorem initmutex_name (hi : s.scan name = some i) : ((s.mxarray i).joined name).name = name := by
  unfold Entry.joined
  split
  · rfl
  · next h0 => exact (scan_entry hi).resolve_left h0

/-- A live call stays in order when another process joins an entry, or names a free one. -/
theorem Made.Ok.join (h : y.Ok s) {name : UInt32} (hi : s.scan name = some i)
    (hsame : name = y.name → y.gid = some i)
    (hent : ∀ g, (s'.mxarray g).name = if g = i then name else (s.mxarray g).name) : y.Ok s' := by
  obtain ⟨h0, g, hg, hgname, hfirst⟩ := h
  refine ⟨h0, g, hg, ?_, fun k hk hkname => ?_⟩
  · rw [hent]
    split
    · next hgi =>
      -- The entry is in use, so it was found by its name.
      subst hgi
      rcases scan_entry hi with hz | hn
      · exact absurd (hgname.symm.trans hz) h0
      · exact hn.symm.trans hgname
    · exact hgname
  · rw [hent] at hkname
    split at hkname
    · next hki =>
      have := hsame hkname
      rw [hg, Option.some.injEq] at this
      exact absurd (this.trans hki.symm) hk.ne'
    · exact hfirst k hk hkname

/-- If a live call has the name, `initmutex` finds its entry. -/
theorem scan_of_made (hy : y.Ok s) (hname : name = y.name)
    (hfree : ∀ g ∈ y.gid, ∀ k < g, (s.mxarray k).name ≠ 0) (hi : s.scan name = some i) :
    y.gid = some i := by
  obtain ⟨h0, g, hg, hgname, hfirst⟩ := hy
  rw [hg, Option.some.injEq]
  rcases lt_trichotomy g i with hlt | hgi | hgt
  · exact absurd (hgname.trans hname.symm) (scan_first hi hlt).2
  · exact hgi
  · rcases scan_entry hi with hz | hn
    · exact absurd hz (hfree g hg i hgt)
    · exact absurd (hn.trans hname) (hfirst i hgt)

theorem Book.Ok.create (h : b.Ok)
    (hd : Distinct b name content) : (b.create p name content).Ok := by
  unfold Book.create
  obtain heq | ⟨i, j, hi, -, heq⟩ := initmutex_cases (s := b.state) (p := p) name
  · rw [heq]
    exact h
  rw [heq]
  dsimp only
  have hent : ∀ g, (((b.state.setEntry i ((b.state.mxarray i).joined name)).setProc p
      { b.state.proc p with
        mxproc := Function.update (b.state.proc p).mxproc j (some i)
        handles := insert j (b.state.proc p).handles }).mxarray g).name =
      if g = i then name else (b.state.mxarray g).name := fun g => by
    rcases eq_or_ne g i with rfl | hg
    · simp [initmutex_name hi]
    · simp [hg]
  constructor
  case made =>
    intro y hy
    rcases List.mem_cons.1 hy with rfl | hy
    · refine ⟨hd.nonnull, i, by simp, by rw [hent, if_pos rfl], fun k hk => ?_⟩
      rw [hent, if_neg hk.ne]
      exact (scan_first hi hk).2
    · exact (h.made y hy).join hi
        (fun hname => scan_of_made (h.made y hy) hname (hd.first y hy hname) hi) hent
  case address =>
    intro y hy z hz
    rcases List.mem_cons.1 hy with rfl | hy <;> rcases List.mem_cons.1 hz with rfl | hz
    · exact ⟨fun _ => rfl, fun _ => rfl⟩
    · exact hd.address z hz
    · have := hd.address y hy
      exact ⟨fun hn => (this.1 hn.symm).symm, fun hc => (this.2 hc.symm).symm⟩
    · exact h.address y hy z hz

theorem exit_mxarray (s : State) (p : Slot) : (s.exit p).mxarray = (s.deleteAll p).mxarray := by
  unfold State.exit
  rw [State.setProc_mxarray]

theorem Book.Ok.step (h : b.Ok) (hG : AddressesIdentify b c) (hs : b.next c = some b') : b'.Ok := by
  cases c with
  | fork p =>
    obtain ⟨s', hs', rfl⟩ := Option.map_eq_some_iff.1 hs
    simp only [Mutex.next] at hs'
    split at hs' <;> cases hs'
    exact ⟨h.made, h.address⟩
  | create p name content =>
    obtain ⟨-, rfl⟩ : (b.state.proc p).pc = .run ∧ _ = b' := by simpa [Book.next] using hs
    exact h.create hG
  | delete p m =>
    obtain ⟨-, rfl⟩ : (b.state.proc p).pc = .run ∧ _ = b' := by simpa [Book.next] using hs
    exact h.frees hG (fun g => frees_mxdelete) fun g hg => (mxdelete_mxarray m hg).2
  | exit p =>
    obtain ⟨-, rfl⟩ : ((b.state.proc p).pc = .run ∧ p ≠ 0) ∧ _ = b' := by
      simpa [Book.next] using hs
    refine h.frees hG (fun g hn h0 => ?_) fun g hg => ?_
    · exact frees_deleteAll hn (by rwa [exit_mxarray] at h0)
    · rw [exit_mxarray] at hg ⊢
      exact (deleteAll_mxarray hg).2

end

/-- In every run in which addresses tell names apart, no free entry comes before the one a name is
looked for in, and no entry is freed under a live call, a call of `mutex_create` gets the mutex of
an earlier live one exactly if the names are the same. -/
theorem names_identify {b : Book} (h : (book.restrict AddressesIdentify).Reach b) :
    NamesIdentify b := by
  have hI : b.Ok := by
    refine h.invariant (I := Book.Ok) (fun b hi => ?_) fun b c b' hI hs => ?_
    · rw [show b = _ from hi]
      exact ⟨nofun, nofun⟩
    · exact hI.step hs.1 hs.2
  exact hI.identify

instance (b : Book) (stays : Made → Bool) (D : Finset Mux) : Decidable (Kept b stays D) :=
  inferInstanceAs (Decidable (∀ y ∈ b.live, _ → ∀ g ∈ y.gid, ¬ b.state.Frees D g))

instance (b : Book) (name : UInt32) (content : List UInt8) : Decidable (Distinct b name content) :=
  decidable_of_iff (name ≠ 0 ∧ (∀ y ∈ b.live, name = y.name ↔ content = y.content) ∧
      ∀ y ∈ b.live, name = y.name → ∀ g ∈ y.gid, ∀ k < g, (b.state.mxarray k).name ≠ 0)
    ⟨fun h => ⟨h.1, h.2.1, h.2.2⟩, fun h => ⟨h.1, h.2, h.3⟩⟩

instance (b : Book) : (c : Call) → Decidable (AddressesIdentify b c)
  | .fork _ => inferInstanceAs (Decidable True)
  | .create _ name content => inferInstanceAs (Decidable (Distinct b name content))
  | .delete _ m => inferInstanceAs (Decidable (Kept b _ {m}))
  | .exit p => inferInstanceAs (Decidable (Kept b _ (b.state.handlesOf p)))

/-- Two processes make a mutex of one name at one address, and one of another name. -/
def sameAddress : List Call :=
  [.fork 1, .create 0 100 [97], .create 1 100 [97], .create 1 200 [98], .delete 0 0,
    .create 0 200 [98]]

/-- `names_identify` on the run of `sameAddress`. -/
theorem names_identify_sameAddress : ∃ b, (book.restrict AddressesIdentify).Reach b ∧
    b.live.map Made.gid = [some 1, some 1, some 0] ∧ NamesIdentify b := by
  obtain ⟨b, hreach, h1⟩ := book.exists_reach AddressesIdentify Book.next
    { state := initial, live := [] } sameAddress
    (Q := fun b => b.live.map Made.gid = [some 1, some 1, some 0]) rfl rfl (by decide +kernel)
  exact ⟨b, hreach, h1, names_identify hreach⟩

/-- Two processes have different names at one address, and one of them has the name of the other at
another address. -/
def otherAddress : List Call := [.fork 1, .create 0 100 [97], .create 1 100 [98],
    .create 1 200 [97]]

/-- The two different names get the same mutex, and the same name gets another one. -/
theorem names_confused : ∃ b, book.Reach b ∧
    b.live.map (fun y => (y.content, y.gid)) = [([97], some 1), ([98], some 0), ([97], some 0)] ∧
    ¬ NamesIdentify b := by
  obtain ⟨b, hreach, h1⟩ := book.exists_run Book.next { state := initial, live := [] } otherAddress
    (Q := fun b => b.live.map (fun y => (y.content, y.gid)) = [([97], some 1), ([98], some 0),
      ([97], some 0)])
    rfl rfl (by decide +kernel)
  refine ⟨b, hreach, h1, fun h => ?_⟩
  have hmem (x : List UInt8 × Option Mux)
      (hx : x ∈ [([97], some 1), ([98], some 0), ([97], some 0)]) :
      ∃ y ∈ b.live, (y.content, y.gid) = x := by
    rw [← h1] at hx
    exact List.mem_map.1 hx
  obtain ⟨y, hy, hye⟩ := hmem ([98], some 0) (by decide)
  obtain ⟨z, hz, hze⟩ := hmem ([97], some 0) (by decide)
  obtain ⟨hyc, hyg⟩ := Prod.mk.inj hye
  obtain ⟨hzc, hzg⟩ := Prod.mk.inj hze
  have := (h y hy z hz).1 (hyg.trans hzg.symm)
  rw [hyc, hzc] at this
  exact absurd this (by decide)

end Msboss.Mutex
