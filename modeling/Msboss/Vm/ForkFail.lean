import Msboss.Vm.Supply
import Msboss.Ptable.Calls

/-!
# A failed `fork`

`fork` takes a slot of the process table before it has the memory for the child, and gives it back
if there is none. In `State` a slot is the process that it holds, or nothing; here are the slots as
they are, with `allocproc` (`Table.fork`). On whole tables it is the `fork` of `State`
(`fork_view`).

What a failed `fork` leaves behind depends on where the free list ends (`no_trace_iff`). It is as it
was where there is no slot, where the kernel stack or the page directory is missing, and where the
copy of a page is missing and no page before is shared. In all other places something is lost: a
page directory with the page tables `setupkvm` has made, a page for which there is no page table, or
the count of accesses to a region is one too high.
-/

namespace Msboss.Vm

open Function List
open Ptable (ProcState)

/-- A slot of the process table: `struct proc` as far as `fork` uses it. The pointers `kstack` and
`pgdir` may be null. -/
structure Entry where
  state : ProcState
  pid : UInt32
  kstack : Option Frame
  pgdir : Option PageDir
  sz : Nat
  parent : Option Pid
  shm_name : Slot → List UInt8
  shm_vir : Slot → Nat
  shm_phys : Slot → Nat
  mxproc : Fin MUX_MAXNUM → Int

/-- The process in a slot. -/
def Entry.proc (e : Entry) : Option Proc :=
  match e.state, e.kstack, e.pgdir with
  | .unused, _, _ => none
  | _, some kstack, some pgdir => some {
      sz := e.sz
      pgdir
      kstack
      parent := e.parent
      zombie := e.state = .zombie
      shm_name := e.shm_name
      shm_vir := e.shm_vir
      shm_phys := e.shm_phys }
  | _, _, _ => none

/-- The memory, `ptable.proc` and `nextpid`. -/
structure Table where
  mem : Memory
  entry : Pid → Entry
  nextpid : UInt32

namespace Table

/-- Replaces the memory and a slot. -/
def set (t : Table) (m : Memory) (q : Pid) (e : Entry) : Table :=
  { t with mem := m, entry := update t.entry q e }

/-- `allocproc`. -/
def allocproc (t : Table) : Option Pid × Table :=
  match (finRange NPROC).find? fun q => (t.entry q).state = .unused with
  | none => (none, t)
  | some q =>
    let e := { t.entry q with state := .embryo, pid := t.nextpid, mxproc := fun _ => -1 }
    let t := { t with nextpid := t.nextpid + 1 }
    match t.mem.kalloc with
    | (none, m) => (none, t.set m q { e with kstack := none, state := .unused })
    | (some kstack, m) => (some q, t.set m q { e with kstack := some kstack })

/-- `fork`, called from slot `p`; `none` is the result `-1`. A process that runs has a kernel stack
and a page directory. -/
def fork (t : Table) (p : Pid) : Except Stop (Option UInt32 × Table) :=
  match (t.entry p).proc with
  | none => .error .wild
  | some P =>
    match t.allocproc with
    | (none, t) => .ok (none, t)
    | (some q, t) => do
      let np := t.entry q
      match ← t.mem.copyuvm P.pgdir P.sz with
      | (none, m) =>
        let m ← m.kfree (np.kstack.getD 0 * PGSIZE)
        .ok (none, t.set m q { np with pgdir := none, kstack := none, state := .unused })
      | (some d, m) =>
        let vir ← m.inherit P d (finRange SHM_MAXNUM) fun _ => 0
        .ok (some np.pid, t.set m q { np with
          pgdir := some d
          sz := P.sz
          parent := some p
          shm_name := fun i => safestrcpy (P.shm_name i) 16
          shm_vir := vir
          shm_phys := P.shm_phys
          state := .runnable })

/-- Nothing of a call is left: the same frames are free, the regions are as they were, and so is
every slot in use; no other slot is taken. -/
structure NoTrace (t t' : Table) : Prop where
  frames : ∀ f, f ∈ t'.mem.freelist ↔ f ∈ t.mem.freelist
  shm_arr : t'.mem.shm_arr = t.mem.shm_arr
  others : ∀ q, (t.entry q).state ≠ .unused → t'.entry q = t.entry q
  tried : ∀ q, (t.entry q).state = .unused → (t'.entry q).state = .unused

/-- There are frames for the kernel stack, the page directory, all page tables of the kernel, and
copies of just the first `j` pages of the process in slot `p`; neither these nor the next page are
of a region. -/
def StopsAtPage (t : Table) (p : Pid) (j : Nat) : Prop :=
  j < ((t.entry p).sz + (PGSIZE - 1)) / PGSIZE ∧
    (∀ d ∈ (t.entry p).pgdir, ∀ i ≤ j, ¬ t.mem.Shared (d.entry i)) ∧
    t.mem.freelist.length = 2 + KTABLES + framesFor j

/-- Where `fork`, called from slot `p`, can fail without a trace. -/
def FailsClean (t : Table) (p : Pid) : Prop :=
  (∀ q, (t.entry q).state ≠ .unused) ∨ t.mem.freelist.length ≤ 1 ∨ ∃ j, t.StopsAtPage p j

/-- The free list has no frame twice and none of a region, and processes are below the kernel. -/
structure Sound (t : Table) : Prop where
  nodup : t.mem.freelist.Nodup
  free : ∀ f ∈ t.mem.freelist, ¬ t.mem.Region f
  size : ∀ q P, (t.entry q).proc = some P → P.sz < KERNBASE

end Table

/-! ## The slots -/

section
variable {t t' : Table} {p q : Pid} {m : Memory} {e : Entry} {P : Proc}

/-- What a process says of its slot. -/
theorem Entry.proc_eq_some (h : e.proc = some P) : e.state ≠ .unused ∧ e.kstack = some P.kstack ∧
    e.pgdir = some P.pgdir ∧ e.sz = P.sz := by
  unfold Entry.proc at h
  split at h
  · cases h
  · next hk hd hs =>
    cases h
    exact ⟨hs, hk, hd, rfl⟩
  · cases h

/-- The two ways `allocproc` can fail. -/
theorem allocproc_none (h : t.allocproc = (none, t')) :
    ((∀ q, (t.entry q).state ≠ .unused) ∧ t' = t) ∨
      t.mem.freelist = [] ∧ ∃ q e, (t.entry q).state = .unused ∧ e.state = .unused ∧
        t' = { t with nextpid := t.nextpid + 1 }.set { t.mem with oom := true } q e := by
  unfold Table.allocproc at h
  split at h
  · next hfind =>
    cases h
    refine .inl ⟨fun q hq => ?_, rfl⟩
    exact find?_eq_none.1 hfind q (mem_finRange q) (decide_eq_true hq)
  next q hfind =>
  dsimp only at h
  split at h
  · next hk =>
    cases h
    obtain ⟨hnil, rfl⟩ := kalloc_none hk
    exact .inr ⟨hnil, q, _, by simpa using find?_some hfind, rfl, rfl⟩
  · cases h

/-- What `allocproc` takes. -/
theorem allocproc_some (h : t.allocproc = (some q, t')) :
    (t.entry q).state = .unused ∧ ∃ kstack m e, t.mem.kalloc = (some kstack, m) ∧
      e.kstack = some kstack ∧ t' = { t with nextpid := t.nextpid + 1 }.set m q e := by
  unfold Table.allocproc at h
  split at h
  · cases h
  next hfind =>
  dsimp only at h
  split at h
  · cases h
  · next kstack m hk =>
    cases h
    exact ⟨by simpa using find?_some hfind, kstack, m, _, hk, rfl, rfl⟩

/-- A call that changes a slot out of use, and leaves it out of use. -/
theorem noTrace_iff (hq : (t.entry q).state = .unused) (he : e.state = .unused)
    (ht : t'.entry = update t.entry q e) :
    t.NoTrace t' ↔ (∀ f, f ∈ t'.mem.freelist ↔ f ∈ t.mem.freelist) ∧
      t'.mem.shm_arr = t.mem.shm_arr := by
  refine ⟨fun h => ⟨h.frames, h.shm_arr⟩, fun ⟨hf, hs⟩ => ⟨hf, hs, fun r hr => ?_, fun r hr => ?_⟩⟩
  · have hne : r ≠ q := by
      rintro rfl
      exact hr hq
    rw [ht, update_of_ne hne]
  · rw [ht, update_apply]
    split
    · exact he
    · exact hr

end

/-! ## The call -/

section
variable {t t' : Table} {p : Pid}

/-- The memory that `fork` leaves if it fails with a slot `q` and a kernel stack. -/
theorem fork_none_cases (h : t.fork p = .ok (none, t')) :
    (∃ t1, t.allocproc = (none, t1) ∧ t' = t1) ∨
      ∃ q kstack m m1 m2 P e, (t.entry p).proc = some P ∧ (t.entry q).state = .unused ∧
        t.mem.kalloc = (some kstack, m) ∧ m.copyuvm P.pgdir P.sz = .ok (none, m1) ∧
        m1.kfree (kstack * PGSIZE) = .ok m2 ∧ e.state = .unused ∧
        t'.entry = update t.entry q e ∧ t'.mem = m2 := by
  unfold Table.fork at h
  split at h
  · cases h
  next P hP =>
  split at h
  · next t1 ha =>
    cases h
    exact .inl ⟨t', ha, rfl⟩
  next q t1 ha =>
  obtain ⟨hq, kstack, m, e, hk, he, rfl⟩ := allocproc_some ha
  obtain ⟨⟨r, m1⟩, hcopy, h⟩ := bind_eq_ok.1 h
  cases r with
  | some d =>
    obtain ⟨vir, -, h⟩ := bind_eq_ok.1 h
    cases h
  | none =>
    obtain ⟨m2, hfree, h⟩ := bind_eq_ok.1 h
    cases h
    refine .inr ⟨q, kstack, m, m1, m2, P,
      { e with pgdir := none, kstack := none, state := .unused },
      hP, hq, hk, hcopy, ?_, rfl, ?_, rfl⟩
    · simpa [Table.set, he] using hfree
    · simp only [Table.set, update_self, update_idem]

/-- With a slot and a kernel stack, a clean failure is a clean failure of `copyuvm`. -/
theorem failsClean_iff (hP : (t.entry p).proc = some P) (hq : (t.entry q).state = .unused)
    (hk : t.mem.kalloc = (some kstack, m)) :
    t.FailsClean p ↔ m.CopyStops P.pgdir ((P.sz + (PGSIZE - 1)) / PGSIZE) := by
  obtain ⟨-, -, hpgdir, hsz⟩ := Entry.proc_eq_some hP
  obtain ⟨hfl, hm⟩ := kalloc_some hk
  have hshared (e : Pte) : m.Shared e ↔ t.mem.Shared e := by rw [hm]; rfl
  have hslot : ¬ ∀ q, (t.entry q).state ≠ .unused := fun h => h q hq
  simp only [Table.FailsClean, Table.StopsAtPage, Memory.CopyStops, hslot, false_or, hpgdir, hsz,
    Option.mem_def, Option.some.injEq, forall_eq', hshared, hfl, length_cons]
  refine or_congr ⟨fun h => eq_nil_of_length_eq_zero (by omega), fun h => by simp [h]⟩ ?_
  refine exists_congr fun j => and_congr_right fun _ => and_congr_right fun _ => ?_
  omega

/-- A failed `fork` leaves no trace just where it can fail cleanly. -/
theorem no_trace_iff (ht : t.Sound) (h : t.fork p = .ok (none, t')) :
    t.NoTrace t' ↔ t.FailsClean p := by
  rcases fork_none_cases h with ⟨t1, ha, rfl⟩ |
    ⟨q, kstack, m, m1, m2, P, e, hP, hq, hk, hcopy, hfree, he, hent, rfl⟩
  · rcases allocproc_none ha with ⟨hall, rfl⟩ | ⟨hnil, q, e, hq, he, rfl⟩
    · have hsame : t'.NoTrace t' :=
        ⟨fun _ => Iff.rfl, rfl, fun _ _ => rfl, fun _ hq => absurd hq (hall _)⟩
      exact iff_of_true hsame (.inl hall)
    · refine iff_of_true ((noTrace_iff hq he rfl).2 ⟨fun _ => Iff.rfl, rfl⟩) (.inr (.inl ?_))
      rw [hnil]
      exact Nat.zero_le 1
  rw [noTrace_iff hq he hent, failsClean_iff hP hq hk]
  obtain ⟨hfl, hm⟩ := kalloc_some hk
  have hs : m.shm_arr = t.mem.shm_arr := by rw [hm]
  obtain ⟨hfl2, hs2, -, -⟩ := kfree_ok hfree
  rw [Nat.mul_div_cancel _ (by decide)] at hfl2
  have hnd := ht.nodup
  rw [hfl, nodup_cons] at hnd
  have hnr : ∀ f ∈ m.freelist, ¬ m.Region f := by
    intro f hf
    rw [(SameRegions.of_eq hs).region]
    refine ht.free f ?_
    rw [hfl]
    exact .tail _ hf
  simp only [hfl, hfl2, hs2, ← hs, mem_cons]
  rcases copyuvm_failed (ht.size p P hP) hnr hcopy with ⟨hst, hs1, hcount⟩ | ⟨hst, hbad⟩
  · refine iff_of_true ⟨fun f => ?_, hs1⟩ hst
    rw [← count_pos_iff, hcount f, count_pos_iff]
  refine iff_of_false ?_ hst
  rintro ⟨hmem, hs1⟩
  rcases hbad with hbad | ⟨f, hlt⟩
  · exact hbad hs1
  -- a frame on the old list, once, is not on the new one
  have hf : f ∈ m.freelist := count_pos_iff.1 (Nat.zero_lt_of_lt hlt)
  rcases (hmem f).2 (.inr hf) with rfl | hf1
  · exact hnd.1 hf
  · have h1 := count_pos_iff.2 hf1
    have h2 := nodup_iff_count_le_one.1 hnd.2 f
    omega

end

/-! ## On whole tables -/

namespace Table

/-- The processes of the table. -/
def view (t : Table) (kpgdir : PageDir) : State where
  mem := t.mem
  kpgdir := kpgdir
  proc q := (t.entry q).proc

/-- No call is on its way: every slot in use has a process. -/
def Whole (t : Table) : Prop := ∀ q, (t.entry q).state ≠ .unused → (t.entry q).proc.isSome = true

end Table

section
variable {t t' : Table} {p : Pid} {kpgdir : PageDir}

/-- The processes and the memory that careful calls lead to are sound. -/
theorem Ledger.sound (hl : Ledger (t.view kpgdir)) : t.Sound :=
  ⟨hl.owned.nodup, hl.not_region_of_free, fun _ _ hP => hl.size hP⟩

theorem Entry.proc_unused {e : Entry} (h : e.state = .unused) : e.proc = none := by
  simp only [Entry.proc, h]

/-- The slots without a process are the unused ones. -/
theorem Table.Whole.isNone (h : t.Whole) (q : Pid) :
    (t.entry q).proc.isNone = decide ((t.entry q).state = .unused) := by
  by_cases hq : (t.entry q).state = .unused
  · simp [hq, Entry.proc_unused hq]
  · have := h q hq
    cases hp : (t.entry q).proc with
    | none => rw [hp] at this; cases this
    | some P => simp [hq]

/-- A slot out of use may change while it stays so. -/
theorem view_unused (hq : (t.entry q).state = .unused)
    (he : e.state = .unused) : (t.set m q e).view kpgdir = { t.view kpgdir with mem := m } := by
  refine congrArg (State.mk m kpgdir) (funext fun r => ?_)
  rcases eq_or_ne r q with rfl | hr
  · simp [Table.set, Table.view, Entry.proc_unused hq, Entry.proc_unused he]
  · simp [Table.set, Table.view, hr]

/-- A slot that has a process if it is in use. -/
theorem Table.Whole.set (h : t.Whole) (m : Memory)
    (he : e.state ≠ .unused → e.proc.isSome = true) : (t.set m q e).Whole := by
  intro r hr
  rcases eq_or_ne r q with rfl | hne
  · simp only [Table.set, update_self] at hr ⊢
    exact he hr
  · simp only [Table.set, update_of_ne hne] at hr ⊢
    exact h r hr

/-- `fork` does to the processes of a whole table what the `fork` of `State` does. -/
theorem fork_view {r : Option UInt32} (ht : t.Whole) (h : t.fork p = .ok (r, t')) :
    ∃ P, (t.view kpgdir).proc p = some P ∧
      (t.view kpgdir).fork p P = .ok (r.isSome, t'.view kpgdir) ∧ t'.Whole := by
  have hfind : (fun q => ((t.view kpgdir).proc q).isNone) =
      fun q => decide ((t.entry q).state = .unused) := funext ht.isNone
  have ht1 : { t with nextpid := t.nextpid + 1 }.Whole := ht
  unfold Table.fork at h
  split at h
  · cases h
  next P hP =>
  refine ⟨P, hP, ?_⟩
  unfold State.fork
  rw [hfind]
  cases hf : (finRange NPROC).find? fun q => decide ((t.entry q).state = .unused) with
  | none =>
    simp only [Table.allocproc, hf] at h
    cases h
    exact ⟨rfl, ht⟩
  | some q =>
    have hq : (t.entry q).state = .unused := by simpa using find?_some hf
    simp only [Table.allocproc, hf] at h
    rw [show (t.view kpgdir).mem = t.mem from rfl]
    rcases hk : t.mem.kalloc with ⟨_ | kstack, m⟩
    · simp only [hk] at h
      cases h
      refine ⟨?_, ht1.set _ fun hs => absurd rfl hs⟩
      rw [view_unused (t := { t with nextpid := t.nextpid + 1 }) hq rfl]
      rfl
    simp only [hk] at h
    obtain ⟨⟨o, m1⟩, hcopy, h⟩ := bind_eq_ok.1 h
    cases o with
    | none =>
      obtain ⟨m2, hfree, h⟩ := bind_eq_ok.1 h
      cases h
      simp only [Table.set, update_self, Option.getD_some, update_idem] at hfree ⊢
      refine ⟨bind_eq_ok.2 ⟨(none, m1), hcopy, bind_eq_ok.2 ⟨m2, hfree, ?_⟩⟩,
        ht1.set _ fun hs => absurd rfl hs⟩
      refine congrArg (fun s => Except.ok (false, s)) ?_
      let e : Entry := { t.entry q with
        state := .unused
        pid := t.nextpid
        kstack := none
        pgdir := none
        mxproc := fun _ => -1 }
      exact (view_unused (t := { t with nextpid := t.nextpid + 1 }) (e := e) hq rfl).symm
    | some d =>
      obtain ⟨vir, hvir, h⟩ := bind_eq_ok.1 h
      cases h
      simp only [Table.set, update_self, update_idem]
      refine ⟨bind_eq_ok.2 ⟨(some d, m1), hcopy, bind_eq_ok.2 ⟨vir, hvir, ?_⟩⟩,
        ht1.set _ fun _ => rfl⟩
      refine congrArg (fun s => Except.ok (true, s)) ?_
      refine congrArg (State.mk m1 kpgdir) (funext fun r => ?_)
      rcases eq_or_ne r q with rfl | hr
      · simp [Table.view, Entry.proc, Proc.child]
      · simp [Table.view, hr]

end

/-! ## Two failures and a child -/

namespace Forker

/-- The directory of a process without pages. -/
def pgdir : PageDir := { frame := 0x200, pde := fun _ => none }

/-- One process, without pages, and the given frames. -/
def table (freelist : List Frame) : Table where
  mem := { freelist, page := fun _ _ => 0, shm_arr := shm_init, used := 0, oom := false }
  entry q := {
    state := if q = 0 then .running else .unused
    pid := if q = 0 then 1 else 0
    kstack := if q = 0 then some 0x201 else none
    pgdir := if q = 0 then some pgdir else none
    sz := 0
    parent := none
    shm_name := fun _ => safestrcpy DNE 16
    shm_vir := fun _ => 0
    shm_phys := fun _ => 0
    mxproc := fun _ => -1 }
  nextpid := 2

end Forker

theorem Forker.sound (h : freelist.Nodup) : (table freelist).Sound where
  nodup := h
  free f _ := fun ⟨hf, i, hi⟩ => absurd (hi.symm.trans rfl) (Nat.mul_pos hf (by decide)).ne'
  size q P hP := by
    rw [← (Entry.proc_eq_some hP).2.2.2]
    exact Nat.two_pow_pos 31

/-- A failed `fork`, and what can be seen of it by evaluation. -/
theorem Forker.exists_failed {t : Table} {Q : Table → Bool}
    (h : (match t.fork p with | .ok (none, t') => Q t' | _ => false) = true) :
    ∃ t', t.fork p = .ok (none, t') ∧ Q t' = true := by
  split at h
  · next t' ht => exact ⟨t', ht, h⟩
  · cases h

theorem Forker.whole (freelist : List Frame) : (table freelist).Whole := by
  intro q hq
  rcases eq_or_ne q 0 with rfl | h0
  · rfl
  · simp [table, h0] at hq

/-- A process without pages has no address to look for. -/
theorem inherit_empty {m : Memory} (hsz : P.sz = 0) (is : List Slot)
    (vir : Slot → Nat) : ∃ vir', m.inherit P d is vir = .ok vir' := by
  induction is generalizing vir with
  | nil => exact ⟨vir, rfl⟩
  | cons i is ih =>
    obtain ⟨vir', h⟩ := ih (update vir i (2 ^ 32 - 1))
    refine ⟨vir', bind_eq_ok.2 ⟨2 ^ 32 - 1, ?_, h⟩⟩
    rw [Memory.shm_assign, hsz]
    rfl

/-- With frames for the kernel stack, the directory and the page tables of the kernel there is a
child. -/
theorem Forker.exists_child (f : Frame) (fs : List Frame) (h : KTABLES < fs.length) :
    ∃ t', (table (f :: fs)).fork 0 = .ok (some 2, t') := by
  have hslot : ((finRange NPROC).find? fun q =>
      decide (((table (f :: fs)).entry q).state = .unused)) = some 1 := rfl
  let m : Memory := { (table (f :: fs)).mem with freelist := fs }
  obtain ⟨m', d, hk, -⟩ := setupkvm_room (m := m) h
  have hcopy : m.copyuvm pgdir 0 = .ok (some d, m') := bind_eq_ok.2 ⟨_, hk, rfl⟩
  obtain ⟨P, hP, hsz, hd⟩ : ∃ P, ((table (f :: fs)).entry 0).proc = some P ∧ P.sz = 0 ∧
    P.pgdir = pgdir := ⟨_, rfl, rfl, rfl⟩
  obtain ⟨vir, hvir⟩ := inherit_empty (m := m') (d := d) hsz (finRange SHM_MAXNUM) fun _ => 0
  unfold Table.fork
  simp only [hP, Table.allocproc, hslot]
  rw [hsz, hd]
  exact ⟨_, bind_eq_ok.2 ⟨_, hcopy, bind_eq_ok.2 ⟨vir, hvir, rfl⟩⟩⟩

/-- With one free frame there is a kernel stack and no page directory, and no trace. -/
theorem no_trace_one_frame : ∃ t', (Forker.table [0x300]).fork 0 = .ok (none, t') ∧
    (Forker.table [0x300]).NoTrace t' := by
  obtain ⟨t', ht, -⟩ := Forker.exists_failed (t := Forker.table [0x300]) (p := 0)
    (Q := fun _ => true) (by decide +kernel)
  exact ⟨t', ht, (no_trace_iff (Forker.sound (by decide)) ht).2 (.inr (.inl le_rfl))⟩

/-- A `fork` that fails, with one free frame, and one that succeeds. -/
theorem fork_view_fails_and_succeeds : (∃ t' P, (Forker.table [0x300]).fork 0 = .ok (none, t') ∧
      ((Forker.table [0x300]).view Forker.pgdir).fork 0 P = .ok (false, t'.view Forker.pgdir)) ∧
    ∃ t' P, (Forker.table frames).fork 0 = .ok (some 2, t') ∧
      ((Forker.table frames).view Forker.pgdir).fork 0 P = .ok (true, t'.view Forker.pgdir) := by
  constructor
  · obtain ⟨t', ht, -⟩ := Forker.exists_failed (t := Forker.table [0x300]) (p := 0)
      (Q := fun _ => true) (by decide +kernel)
    obtain ⟨P, -, hfork, -⟩ := fork_view (Forker.whole _) ht
    exact ⟨t', P, ht, hfork⟩
  · obtain ⟨t', ht⟩ : ∃ t', (Forker.table frames).fork 0 = .ok (some 2, t') :=
      Forker.exists_child 1024 (range' 1025 4095) (by rw [length_range']; decide)
    obtain ⟨P, -, hfork, -⟩ := fork_view (Forker.whole _) ht
    exact ⟨t', P, ht, hfork⟩

/-- With two free frames, the one for the page directory is lost. -/
theorem page_directory_lost : ∃ t', (Forker.table [0x300, 0x301]).fork 0 = .ok (none, t') ∧
    (Forker.table [0x300, 0x301]).Sound ∧ ¬ (Forker.table [0x300, 0x301]).NoTrace t' := by
  obtain ⟨t', ht, hfree⟩ := Forker.exists_failed (t := Forker.table [0x300, 0x301]) (p := 0)
    (Q := fun t' => decide (t'.mem.freelist = [0x300])) (by decide +kernel)
  refine ⟨t', ht, Forker.sound (by decide), fun h => ?_⟩
  have hlost := (h.frames 0x301).2 (.tail _ (.head _))
  rw [of_decide_eq_true hfree] at hlost
  exact absurd hlost (by decide)

end Msboss.Vm
