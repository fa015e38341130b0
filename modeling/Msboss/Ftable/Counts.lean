import Msboss.Ftable.Calls

/-!
# Reference counts of files and pipes

After any sequence of calls each file's `ref` is the number of descriptors that point to it, a
pipe's ends are open as long as there are files for them, and its page is freed once, when the
second end is closed (`Counted`).

Within a call the references that it holds itself are still to be accounted for: `Owes s e` is the
invariant with `e f` references to the file `f` that are in no descriptor table. What each function
does to `e` is one lemma, and a call is a sequence of them that starts and ends with none.
-/

namespace Msboss.Ftable

open Function

variable {ι π : Type}

/-! ## The property -/

/-- The descriptors that point to a file. -/
def Files.refs (s : Files ι π) (f : FileId) : Nat :=
  (Finset.univ.filter fun x : Slot × Fd => s.ofile x.1 x.2 = some f).card

/-- The file is an end of the pipe in page `g`, for writing or for reading. -/
def Files.IsEnd (s : Files ι π) (g : π) (writable : Bool) (f : FileId) : Prop :=
  0 < (s.file f).ref ∧ (s.file f).type = .pipe ∧ (s.file f).pipe = some g ∧
    (if writable then (s.file f).writable else (s.file f).readable) = true

/-- The page is in use as a pipe: it was given out once more than it was freed. -/
def Files.Piped (s : Files ι π) (g : π) : Prop := s.made g = s.freed g + 1

/-- What the calls promise. -/
structure Counted [DecidableEq π] (s : Files ι π) : Prop where
  refs : ∀ f, (s.file f).ref = s.refs f
  ends : ∀ {g}, s.Piped g → ((s.pipe g).readopen = true ↔ ∃ f, s.IsEnd g false f) ∧
    ((s.pipe g).writeopen = true ↔ ∃ f, s.IsEnd g true f)
  /-- The files of a pipe are those of a page in use. -/
  piped : ∀ {g w f}, s.IsEnd g w f → s.Piped g
  /-- A page in use has an open end, and one that is not was freed as often as it was given out. -/
  freed : ∀ g, s.Piped g ∧ ((s.pipe g).readopen = true ∨ (s.pipe g).writeopen = true) ∨
    s.made g = s.freed g
  safe : ∀ a, s.Enabled a → ∃ s', s.call a = .ok s'

/-! ## The invariant -/

/-- Whether the end for writing, or that for reading, is open. -/
def Ends.side (e : Ends) (writable : Bool) : Bool := if writable then e.writeopen else e.readopen

/-- What holds of the files and the pipes. -/
structure Linked (s : Files ι π) : Prop where
  closed : ∀ {f}, (s.file f).ref = 0 → (s.file f).type = .none
  page : ∀ {f}, (s.file f).type = .pipe → ∃ g, (s.file f).pipe = some g ∧ s.Piped g
  mode : ∀ {f}, (s.file f).type = .pipe → (s.file f).readable = !(s.file f).writable
  unique : ∀ {f f'}, (s.file f).type = .pipe → (s.file f').type = .pipe →
    (s.file f).pipe = (s.file f').pipe → (s.file f).writable = (s.file f').writable → f = f'
  ends : ∀ {g w}, s.Piped g → ((s.pipe g).side w = true ↔ ∃ f, (s.file f).type = .pipe ∧
    (s.file f).pipe = some g ∧ (s.file f).writable = w)
  freed : ∀ g, (s.Piped g ∧ ∃ w, (s.pipe g).side w = true) ∨ s.made g = s.freed g

/-- The invariant, with `e f` references to `f` that are in no table. -/
structure Owes (s : Files ι π) (e : FileId → Nat) : Prop where
  refs : ∀ f, (s.file f).ref = s.refs f + e f
  linked : Linked s
  unused : ∀ {p fd}, s.live p = false → s.ofile p fd = none

section
variable {s s' : Files ι π} {e : FileId → Nat} {f f0 f1 : FileId} {p q : Slot} {fd : Fd}

/-- How the references to a file change with one descriptor. -/
theorem refs_setFd (s : Files ι π) (p : Slot) (fd : Fd) (v : Option FileId) (f : FileId) :
    (s.setFd p fd v).refs f + (if s.ofile p fd = some f then 1 else 0) =
      s.refs f + if v = some f then 1 else 0 := by
  have hother : ∀ x : Slot × Fd, x ≠ (p, fd) → (s.setFd p fd v).ofile x.1 x.2 =
    s.ofile x.1 x.2 := by
    rintro ⟨q, fd'⟩ hx
    rcases eq_or_ne q p with rfl | hq
    · have hfd : fd' ≠ fd := by
        rintro rfl
        exact hx rfl
      simp [Files.setFd, hfd]
    · simp [Files.setFd, hq]
  have hself : (s.setFd p fd v).ofile p fd = v := by simp [Files.setFd]
  have hchange := sum_change (s := Finset.univ) (i := (p, fd))
    (g := fun x : Slot × Fd => if s.ofile x.1 x.2 = some f then 1 else 0)
    (k := fun x : Slot × Fd => if (s.setFd p fd v).ofile x.1 x.2 = some f then 1 else 0)
    (Finset.mem_univ _) fun x _ hx => by rw [hother x hx]
  simp only [hself] at hchange
  simpa only [Files.refs, Finset.card_filter] using hchange

theorem refs_congr (h : s'.ofile = s.ofile) (f : FileId) : s'.refs f = s.refs f := by
  unfold Files.refs
  rw [h]

theorem refs_pos (h : s.ofile p fd = some f) : 0 < s.refs f :=
  Finset.card_pos.2 ⟨(p, fd), by simpa using h⟩

/-- A step that changes one file, but not what it is to a pipe. -/
theorem Linked.setFile (h : Linked s) (htype : F.type = .pipe ↔ (s.file f).type = .pipe)
    (hsame : F.type = .pipe → F.pipe = (s.file f).pipe ∧ F.readable = (s.file f).readable ∧
      F.writable = (s.file f).writable)
    (hclosed : F.ref = 0 → F.type = .none) : Linked (s.setFile f F) := by
  have hfile (f' : FileId) : (s.setFile f F).file f' = if f' = f then F else s.file f' :=
    update_apply ..
  have hpipe (f' : FileId) :
      ((s.setFile f F).file f').type = .pipe ↔ (s.file f').type = .pipe := by
    rw [hfile]
    split
    · next hf => rw [hf, htype]
    · rfl
  have hrest {f' : FileId} (hf' : (s.file f').type = .pipe) :
      ((s.setFile f F).file f').pipe = (s.file f').pipe ∧
        ((s.setFile f F).file f').readable = (s.file f').readable ∧
        ((s.setFile f F).file f').writable = (s.file f').writable := by
    rw [hfile]
    split
    · next hf =>
      subst hf
      exact hsame (htype.2 hf')
    · exact ⟨rfl, rfl, rfl⟩
  have hopen {g : π} {w : Bool} : (∃ f', ((s.setFile f F).file f').type = .pipe ∧
      ((s.setFile f F).file f').pipe = some g ∧ ((s.setFile f F).file f').writable = w) ↔
      ∃ f', (s.file f').type = .pipe ∧ (s.file f').pipe = some g ∧ (s.file f').writable = w := by
    refine exists_congr fun f' => ?_
    rw [hpipe]
    refine and_congr_right fun hf' => ?_
    rw [(hrest hf').1, (hrest hf').2.2]
  constructor
  case closed =>
    intro f'
    rw [hfile]
    split
    · exact hclosed
    · exact h.closed
  case page =>
    intro f' hf'
    rw [hpipe] at hf'
    rw [(hrest hf').1]
    exact h.page hf'
  case mode =>
    intro f' hf'
    rw [hpipe] at hf'
    rw [(hrest hf').2.1, (hrest hf').2.2]
    exact h.mode hf'
  case unique =>
    intro f' f'' h1 h2
    rw [hpipe] at h1 h2
    rw [(hrest h1).1, (hrest h1).2.2, (hrest h2).1, (hrest h2).2.2]
    exact h.unique h1 h2
  case ends => exact fun hg => (h.ends hg).trans hopen.symm
  case freed => exact h.freed

/-- A change of a reference count that does not reach 0. -/
theorem Linked.setRef (h : Linked s) (hn : n ≠ 0) :
    Linked (s.setFile f { s.file f with ref := n }) :=
  h.setFile .rfl (fun _ => ⟨rfl, rfl, rfl⟩) fun h0 => absurd h0 hn

theorem Linked.setFd (h : Linked s) (p : Slot) (fd : Fd) (v : Option FileId) :
    Linked (s.setFd p fd v) :=
  ⟨h.closed, h.page, h.mode, h.unique, h.ends, h.freed⟩

/-! ## What the functions do to the references -/

theorem setFile_ref (s : Files ι π) (f f' : FileId) (F : File ι π) :
    ((s.setFile f F).file f').ref = if f' = f then F.ref else (s.file f').ref := by
  simp only [Files.setFile, update_apply]
  split <;> rfl

/-- A reference goes into a descriptor. -/
theorem Owes.give (h : Owes s (e + Pi.single f 1)) (hfd : s.ofile p fd = none)
    (hp : s.live p = true) : Owes (s.setFd p fd (some f)) e := by
  refine ⟨fun f' => ?_, h.linked.setFd .., fun {q fd'} hq => ?_⟩
  · have hr := h.refs f'
    have hc := refs_setFd s p fd (some f) f'
    rw [hfd] at hc
    show (s.file f').ref = _
    rw [hr]
    rcases eq_or_ne f' f with rfl | hne
    · simp only [Pi.add_apply, Pi.single_eq_same, reduceCtorEq, if_true, if_false] at hc ⊢
      omega
    · simp only [Pi.add_apply, Pi.single_eq_of_ne hne, Option.some.injEq, if_neg hne.symm,
        reduceCtorEq, if_false] at hc ⊢
      omega
  · have hqp : q ≠ p := by
      rintro rfl
      exact absurd (hp.symm.trans hq) nofun
    simp only [Files.setFd, update_of_ne hqp]
    exact h.unused hq

/-- A reference is taken out of a descriptor. -/
theorem Owes.take (h : Owes s e) (hfd : s.ofile p fd = some f) :
    Owes (s.setFd p fd none) (e + Pi.single f 1) := by
  refine ⟨fun f' => ?_, h.linked.setFd .., fun {q fd'} hq => ?_⟩
  · have hr := h.refs f'
    have hc := refs_setFd s p fd none f'
    rw [hfd] at hc
    show (s.file f').ref = _
    rw [hr]
    rcases eq_or_ne f' f with rfl | hne
    · simp only [Pi.add_apply, Pi.single_eq_same, reduceCtorEq, if_true, if_false] at hc ⊢
      omega
    · simp only [Pi.add_apply, Pi.single_eq_of_ne hne, Option.some.injEq, if_neg hne.symm,
        reduceCtorEq, if_false] at hc ⊢
      omega
  · have hold : s.ofile q fd' = none := h.unused hq
    rcases eq_or_ne q p with rfl | hqp
    · rw [h.unused hq] at hfd
      cases hfd
    · simpa only [Files.setFd, update_of_ne hqp] using hold

theorem Owes.filealloc (h : Owes s e) (hf : s.filealloc = some (f, s')) :
    Owes s' (e + Pi.single f 1) ∧ (s'.file f).type = .none ∧ (s.file f).ref = 0 ∧
      s' = s.setFile f { s.file f with ref := 1 } := by
  unfold Files.filealloc at hf
  split at hf
  · cases hf
  next f' hfind =>
  cases hf
  have h0 : (s.file f).ref = 0 := by simpa using List.find?_some hfind
  refine ⟨⟨fun f' => ?_, h.linked.setRef one_ne_zero, h.unused⟩, ?_, h0, rfl⟩
  · have hr := h.refs f'
    rw [setFile_ref, Pi.add_apply, Pi.single_apply]
    show _ = ((s.refs f' : ℕ) : Int) + _
    split
    · next hf =>
      subst hf
      rw [h0] at hr
      push_cast
      omega
    · rw [hr]
      push_cast
      omega
  · simp only [Files.setFile, update_self]
    exact h.linked.closed h0

theorem Owes.filedup (h : Owes s e) (hf : 0 < s.refs f + e f) :
    ∃ s', s.filedup f = .ok s' ∧ Owes s' (e + Pi.single f 1) ∧ s'.ofile = s.ofile ∧
      s'.live = s.live := by
  have hr := h.refs f
  have hpos : ¬ (s.file f).ref < 1 := by omega
  refine ⟨_, if_neg hpos, ⟨fun f' => ?_, h.linked.setRef (by omega), h.unused⟩, rfl, rfl⟩
  have hr' := h.refs f'
  rw [setFile_ref, Pi.add_apply, Pi.single_apply]
  show _ = ((s.refs f' : ℕ) : Int) + _
  split
  · next hf =>
    subst hf
    rw [hr]
    push_cast
    omega
  · rw [hr']
    push_cast
    omega

theorem argfd_eq (h : s.argfd p i = some (fd, f)) : s.ofile p fd = some f := by
  unfold Files.argfd at h
  split at h
  · simp only [Option.map_eq_some_iff, Prod.mk.injEq] at h
    obtain ⟨f', hf', rfl, rfl⟩ := h
    exact hf'
  · cases h

theorem fdalloc_eq (h : s.fdalloc p f = some (fd, s')) :
    s.ofile p fd = none ∧ s' = s.setFd p fd (some f) := by
  unfold Files.fdalloc at h
  split at h
  · cases h
  · next fd' hfind =>
    cases h
    exact ⟨by simpa using List.find?_some hfind, rfl⟩

/-! ## Pipes -/

section
variable [DecidableEq π] {g : π}

theorem pipeclose_side (s : Files ι π) (g g' : π) (w w' : Bool) :
    ((s.pipeclose g w).pipe g').side w' =
      if g' = g ∧ w' = w then false else (s.pipe g').side w' := by
  simp only [Files.pipeclose, update_apply]
  rcases eq_or_ne g' g with rfl | hg
  · cases w <;> cases w' <;> simp [Ends.side]
  · simp [hg]

/-- `pipeclose` frees the page if the other end is closed. -/
theorem pipeclose_freed (s : Files ι π) (g g' : π) (w : Bool) : (s.pipeclose g w).freed g' =
      if g' = g ∧ (s.pipe g).side (!w) = false then s.freed g + 1 else s.freed g' := by
  simp only [Files.pipeclose]
  rcases eq_or_ne g' g with rfl | hg
  · cases w <;> cases hr : (s.pipe g').readopen <;> cases hw : (s.pipe g').writeopen <;>
      simp [Ends.side, hr, hw]
  rw [if_neg (c := g' = g ∧ _) fun hc => hg hc.1]
  generalize (!_ && !_) = c
  cases c
  · rfl
  · exact update_of_ne hg _ _

/-- The last reference to an end of the pipe in page `g` goes. -/
theorem Linked.closeEnd (h : Linked s) (ht : (s.file f).type = .pipe)
    (hg : (s.file f).pipe = some g) (hF : F.type = .none)
    (hfile : ∀ f', s'.file f' = if f' = f then F else s.file f') (hmade : s'.made = s.made)
    (hside : ∀ g' w', (s'.pipe g').side w' =
      if g' = g ∧ w' = (s.file f).writable then false else (s.pipe g').side w')
    (hfreed : ∀ g', s'.freed g' =
      if g' = g ∧ (s.pipe g).side (!(s.file f).writable) = false then s.freed g + 1
      else s.freed g') : Linked s' := by
  have hpiped : s.Piped g := by
    obtain ⟨g', hg', hp⟩ := h.page ht
    rw [hg] at hg'
    cases hg'
    exact hp
  have hpipe {f' : FileId} (hf' : (s'.file f').type = .pipe) :
      f' ≠ f ∧ (s.file f').type = .pipe ∧ s'.file f' = s.file f' := by
    rw [hfile] at hf' ⊢
    split at hf'
    · rw [hF] at hf'
      cases hf'
    · next hne =>
      rw [if_neg hne]
      exact ⟨hne, hf', rfl⟩
  -- a file for the same pipe that is left is for the other end, which is open
  have hopen {f' : FileId} (hne : f' ≠ f) (hf' : (s.file f').type = .pipe)
      (hg' : (s.file f').pipe = some g) : (s.pipe g).side (!(s.file f).writable) = true := by
    refine (h.ends hpiped).2 ⟨f', hf', hg', Bool.eq_not.2 fun hw => ?_⟩
    exact hne (h.unique hf' ht (hg'.trans hg.symm) hw)
  have hpiped' {g' : π} (hg' : s'.Piped g') : s.Piped g' := by
    unfold Files.Piped at hg' hpiped ⊢
    rw [hmade, hfreed] at hg'
    split at hg'
    · next hc =>
      rw [hc.1] at hg' ⊢
      omega
    · exact hg'
  constructor
  case closed =>
    intro f'
    rw [hfile]
    split
    · exact fun _ => hF
    · exact h.closed
  case page =>
    intro f' hf'
    obtain ⟨hne, ht', he⟩ := hpipe hf'
    obtain ⟨g', hg', hp⟩ := h.page ht'
    refine ⟨g', by rw [he, hg'], ?_⟩
    unfold Files.Piped at hp ⊢
    rw [hmade, hfreed, if_neg]
    · exact hp
    · rintro ⟨rfl, hclosed⟩
      rw [hopen hne ht' hg'] at hclosed
      cases hclosed
  case mode =>
    intro f' hf'
    obtain ⟨-, ht', he⟩ := hpipe hf'
    rw [he]
    exact h.mode ht'
  case unique =>
    intro f' f'' h1 h2
    obtain ⟨-, ht1, he1⟩ := hpipe h1
    obtain ⟨-, ht2, he2⟩ := hpipe h2
    rw [he1, he2]
    exact h.unique ht1 ht2
  case ends =>
    intro g' w hg'
    rw [hside]
    split
    · next hc =>
      obtain ⟨rfl, rfl⟩ := hc
      refine iff_of_false nofun ?_
      rintro ⟨f', hf', hpg, hw⟩
      obtain ⟨hne, ht', he⟩ := hpipe hf'
      rw [he] at hpg hw
      exact hne (h.unique ht' ht (hpg.trans hg.symm) hw)
    next hc =>
    refine (h.ends (hpiped' hg')).trans (exists_congr fun f' => ?_)
    constructor
    · rintro ⟨ht', hpg, hw⟩
      have hne : f' ≠ f := by
        rintro rfl
        rw [hg] at hpg
        cases hpg
        exact hc ⟨rfl, hw.symm⟩
      rw [hfile, if_neg hne]
      exact ⟨ht', hpg, hw⟩
    · rintro ⟨hf', hpg, hw⟩
      obtain ⟨-, ht', he⟩ := hpipe hf'
      rw [he] at hpg hw
      exact ⟨ht', hpg, hw⟩
  case freed =>
    intro g'
    unfold Files.Piped at hpiped ⊢
    rw [hmade, hfreed]
    rcases eq_or_ne g' g with rfl | hne
    · cases ho : (s.pipe g').side (!(s.file f).writable) with
      | false => exact .inr (by rw [if_pos ⟨rfl, rfl⟩]; exact hpiped)
      | true =>
        refine .inl ⟨by rw [if_neg (by simp)]; exact hpiped, !(s.file f).writable, ?_⟩
        rw [hside, if_neg (by simp)]
        exact ho
    · rw [if_neg fun hc => hne hc.1]
      refine (h.freed g').imp_left ?_
      rintro ⟨hp, w, hw⟩
      refine ⟨hp, w, ?_⟩
      rw [hside, if_neg fun hc => hne hc.1]
      exact hw

theorem Owes.fileclose (h : Owes s (e + Pi.single f 1)) :
    ∃ r s', s.fileclose f = .ok (r, s') ∧ Owes s' e ∧ s'.ofile = s.ofile ∧ s'.live = s.live := by
  have hr := h.refs f
  rw [Pi.add_apply, Pi.single_eq_same] at hr
  have hpos : ¬ (s.file f).ref < 1 := by omega
  have hrefs {n : Int} (hn : n = (s.file f).ref - 1) (f' : FileId) :
      (if f' = f then n else (s.file f').ref) = ((s.refs f' : ℕ) : Int) + e f' := by
    split
    · next hf =>
      subst hf
      rw [hn, hr]
      push_cast
      omega
    · next hf =>
      have := h.refs f'
      rwa [Pi.add_apply, Pi.single_eq_of_ne hf, add_zero] at this
  unfold Files.fileclose
  rw [if_neg hpos]
  split
  · refine ⟨none, _, rfl, ⟨fun f' => ?_, h.linked.setRef (by omega), h.unused⟩, rfl, rfl⟩
    rw [setFile_ref]
    exact hrefs rfl f'
  next hlast =>
  have hzero : (0 : Int) = (s.file f).ref - 1 := by omega
  have hclose (hnp : (s.file f).type ≠ .pipe) :
      Owes (s.setFile f { s.file f with ref := 0, type := .none }) e := by
    refine ⟨fun f' => ?_, h.linked.setFile (iff_of_false nofun hnp) nofun fun _ => rfl, h.unused⟩
    rw [setFile_ref]
    exact hrefs hzero f'
  split
  · next g ht hg =>
    refine ⟨none, _, rfl, ⟨fun f' => ?_, ?_, h.unused⟩, rfl, rfl⟩
    · exact (setFile_ref s f f' _).trans (hrefs hzero f')
    · exact h.linked.closeEnd ht hg (F := { s.file f with ref := 0, type := .none }) rfl
        (fun _ => update_apply ..) rfl (fun g' => pipeclose_side _ g g' _)
        fun g' => pipeclose_freed _ g g' _
  · next ht => exact ⟨_, _, rfl, hclose (by rw [ht]; nofun), rfl, rfl⟩
  · next hni hnp =>
    refine ⟨none, _, rfl, hclose fun ht => ?_, rfl, rfl⟩
    obtain ⟨g, hg, -⟩ := h.linked.page ht
    exact hnp g ht hg

/-- A new pipe in a page that is not in use. -/
theorem Linked.openPipe (h : Linked s) (h₀ : (s.file f0).type = .none)
    (h₁ : (s.file f1).type = .none) (hne : f0 ≠ f1) (hr0 : (s.file f0).ref ≠ 0)
    (hr1 : (s.file f1).ref ≠ 0) (hg : s.made g = s.freed g) : Linked (s.openPipe f0 f1 g) := by
  have hfile (f : FileId) : (s.openPipe f0 f1 g).file f =
      if f = f1 then
        { s.file f1 with type := .pipe, readable := false, writable := true, pipe := some g }
      else if f = f0 then
        { s.file f0 with type := .pipe, readable := true, writable := false, pipe := some g }
      else s.file f := by
    simp only [Files.openPipe, Files.setFile, update_apply, if_neg hne.symm]
  have hpipe (g' : π) : (s.openPipe f0 f1 g).pipe g' =
      if g' = g then { readopen := true, writeopen := true } else s.pipe g' :=
    update_apply ..
  have hpiped (g' : π) : (s.openPipe f0 f1 g).Piped g' ↔ g' = g ∨ s.Piped g' := by
    have hmade : (s.openPipe f0 f1 g).made g' = if g' = g then s.made g + 1 else s.made g' :=
      update_apply ..
    show _ = s.freed g' + 1 ↔ _
    rw [hmade]
    split
    · next he => simp [he, hg]
    · next he => simp [he, Files.Piped]
  have hno {f : FileId} (hf : (s.file f).type = .pipe) : (s.file f).pipe ≠ some g := by
    intro hpg
    obtain ⟨g', hg', hp⟩ := h.page hf
    rw [hpg] at hg'
    cases hg'
    unfold Files.Piped at hp
    omega
  constructor
  case closed =>
    intro f
    rw [hfile]
    split
    · exact fun h0 => absurd h0 hr1
    · split
      · exact fun h0 => absurd h0 hr0
      · exact h.closed
  case page =>
    intro f
    rw [hfile]
    split
    · exact fun _ => ⟨g, rfl, (hpiped g).2 (.inl rfl)⟩
    split
    · exact fun _ => ⟨g, rfl, (hpiped g).2 (.inl rfl)⟩
    · intro hf
      obtain ⟨g', hg', hp⟩ := h.page hf
      exact ⟨g', hg', (hpiped g').2 (.inr hp)⟩
  case mode =>
    intro f
    rw [hfile]
    split
    · exact fun _ => rfl
    · split
      · exact fun _ => rfl
      · exact h.mode
  case unique =>
    intro f f' h1 h2 hpg hw
    have hold := @h.unique f f'
    have hn := @hno f
    have hn' := @hno f'
    simp only [hfile] at h1 h2 hpg hw
    grind
  case ends =>
    intro g' w hg'
    rw [hpipe]
    split
    · next he =>
      subst he
      refine iff_of_true (by cases w <;> rfl) ?_
      cases w with
      | true => exact ⟨f1, by rw [hfile, if_pos rfl]; exact ⟨rfl, rfl, rfl⟩⟩
      | false => exact ⟨f0, by rw [hfile, if_neg hne, if_pos rfl]; exact ⟨rfl, rfl, rfl⟩⟩
    · next he =>
      have hp : s.Piped g' := ((hpiped g').1 hg').resolve_left he
      refine (h.ends hp).trans (exists_congr fun f => ?_)
      rw [hfile]
      grind
  case freed =>
    intro g'
    rw [hpiped, hpipe]
    rcases eq_or_ne g' g with rfl | he
    · exact .inl ⟨.inl rfl, true, by rw [if_pos rfl]; rfl⟩
    · rw [if_neg he]
      have hmade : (s.openPipe f0 f1 g).made g' = s.made g' := update_of_ne he _ _
      rw [hmade]
      exact (h.freed g').imp_left fun hp => ⟨.inr hp.1, hp.2⟩

theorem Owes.openPipe (h : Owes s e) (h₀ : (s.file f0).type = .none)
    (h₁ : (s.file f1).type = .none) (hne : f0 ≠ f1) (hr0 : (s.file f0).ref ≠ 0)
    (hr1 : (s.file f1).ref ≠ 0) (hg : s.made g = s.freed g) : Owes (s.openPipe f0 f1 g) e := by
  refine ⟨fun f => ?_, h.linked.openPipe h₀ h₁ hne hr0 hr1 hg, h.unused⟩
  rw [refs_congr (show (s.openPipe f0 f1 g).ofile = s.ofile from rfl) f, ← h.refs f]
  simp only [Files.openPipe, Files.setFile, update_apply]
  grind

/-! ## The calls -/

omit [DecidableEq π] in
theorem Owes.sys_dup (h : Owes s 0) (hp : s.live p = true) (i : Int) :
    ∃ r s', s.sys_dup p i = .ok (r, s') ∧ Owes s' 0 := by
  unfold Files.sys_dup
  split
  · exact ⟨_, _, rfl, h⟩
  next fd f harg =>
  split
  · exact ⟨_, _, rfl, h⟩
  next fd' s1 hfd =>
  obtain ⟨hnone, rfl⟩ := fdalloc_eq hfd
  -- the descriptor is filled before the count goes up; in the other order it is `Owes.give`
  have hpos : 0 < s.refs f + (0 : FileId → Nat) f :=
    Nat.add_pos_left (refs_pos (argfd_eq harg)) _
  obtain ⟨s2, hdup, h₂, ho, hl⟩ := h.filedup hpos
  have hnone2 : s2.ofile p fd' = none := by rw [ho]; exact hnone
  have hgive := h₂.give hnone2 (by rw [hl]; exact hp)
  have hcomm : (s.setFd p fd' (some f)).filedup f = .ok (s2.setFd p fd' (some f)) := by
    unfold Files.filedup at hdup ⊢
    split at hdup
    · cases hdup
    · next hlt =>
      cases hdup
      exact if_neg hlt
  exact ⟨_, _, by rw [hcomm]; rfl, hgive⟩

theorem Owes.sys_close (h : Owes s 0) (i : Int) :
    ∃ r s', s.sys_close p i = .ok (r, s') ∧ Owes s'.2 0 := by
  unfold Files.sys_close
  split
  · exact ⟨_, _, rfl, h⟩
  · next fd f harg =>
    obtain ⟨r, s', hc, h', -⟩ := (h.take (argfd_eq harg)).fileclose
    exact ⟨0, (r, s'), by rw [hc]; rfl, h'⟩

theorem Owes.openFile (h : Owes s 0) (hp : s.live p = true) (ip : ι) (omode : UInt32) :
    ∃ r s', s.openFile p ip omode = .ok (r, s') ∧ Owes s' 0 := by
  unfold Files.openFile
  split
  · exact ⟨_, _, rfl, h⟩
  next f s1 ha =>
  obtain ⟨h₁, htype, -, rfl⟩ := h.filealloc ha
  split
  · obtain ⟨r, s', hc, h', -⟩ := h₁.fileclose
    exact ⟨none, s', by rw [hc]; rfl, h'⟩
  next fd s2 hfd =>
  obtain ⟨hnone, rfl⟩ := fdalloc_eq hfd
  have h₂ := h₁.give hnone hp
  refine ⟨_, _, rfl, fun f' => ?_, h₂.linked.setFile (iff_of_false nofun ?_) nofun fun h0 => ?_,
    h₂.unused⟩
  · rw [setFile_ref]
    refine Eq.trans ?_ (h₂.refs f')
    split
    · next hf => rw [hf]
    · rfl
  · have htype' : (((s.setFile f { s.file f with ref := 1 }).setFd p fd (some f)).file f).type =
        .none := htype
    rw [htype']
    nofun
  · have href :
      (((s.setFile f { s.file f with ref := 1 }).setFd p fd (some f)).file f).ref = 1 :=
      (setFile_ref s f f _).trans (if_pos rfl)
    exact absurd (href.symm.trans h0) one_ne_zero

theorem Owes.pipealloc {mem : Option π} (h : Owes s 0)
    (hmem : ∀ g, mem = some g → s.made g = s.freed g) :
    ∃ r s', s.pipealloc mem = .ok (r, s') ∧ s'.live = s.live ∧ s'.ofile = s.ofile ∧
      match r with
      | none => Owes s' 0
      | some (f0, f1) => Owes s' (Pi.single f1 1 + Pi.single f0 1) := by
  unfold Files.pipealloc
  split
  · exact ⟨none, _, rfl, rfl, rfl, h⟩
  next f0 s1 ha0 =>
  obtain ⟨h₁, ht0, hr0, rfl⟩ := h.filealloc ha0
  split
  · obtain ⟨r, s', hc, h', ho, hl⟩ := h₁.fileclose
    exact ⟨none, s', by rw [hc]; rfl, hl, ho, h'⟩
  next f1 s2 ha1 =>
  obtain ⟨h₂, ht₁, hr1, rfl⟩ := h₁.filealloc ha1
  rw [zero_add] at h₂
  have hne : f0 ≠ f1 := by
    rintro rfl
    rw [setFile_ref, if_pos rfl] at hr1
    cases hr1
  split
  · have h2' := h₂
    rw [add_comm] at h2'
    obtain ⟨r, s3, hc0, h₃, ho3, hl3⟩ := h2'.fileclose
    rw [← zero_add (Pi.single f1 1)] at h₃
    obtain ⟨r', s4, hc1, h4, ho4, hl4⟩ := h₃.fileclose
    refine ⟨none, s4, ?_, hl4.trans hl3, ho4.trans ho3, h4⟩
    rw [hc0]
    show (s3.fileclose f1 >>= _) = _
    rw [hc1]
    rfl
  · next g =>
    refine ⟨some (f0, f1), _, rfl, rfl, rfl, ?_⟩
    have hfile0 : (((s.setFile f0 { s.file f0 with ref := 1 }).setFile f1
        { (s.setFile f0 { s.file f0 with ref := 1 }).file f1 with ref := 1 }).file f0) =
        (s.setFile f0 { s.file f0 with ref := 1 }).file f0 := update_of_ne hne _ _
    rw [add_comm] at h₂
    exact h₂.openPipe (by rw [hfile0]; exact ht0) ht₁ hne
      (by rw [hfile0, setFile_ref, if_pos rfl]; exact one_ne_zero)
      (by rw [setFile_ref, if_pos rfl]; exact one_ne_zero) (hmem g rfl)

theorem Owes.sys_pipe {mem : Option π} (h : Owes s 0) (hp : s.live p = true) (arg : Bool)
    (hmem : ∀ g, mem = some g → s.made g = s.freed g) :
    ∃ r s', s.sys_pipe p arg mem = .ok (r, s') ∧ Owes s' 0 := by
  unfold Files.sys_pipe
  split
  · exact ⟨_, _, rfl, h⟩
  obtain ⟨r, s1, hp1, hl1, ho1, h₁⟩ := h.pipealloc hmem
  rw [hp1]
  have hlive : s1.live p = true := by rw [hl1]; exact hp
  cases r with
  | none => exact ⟨_, s1, rfl, h₁⟩
  | some r =>
    obtain ⟨rf, wf⟩ := r
    simp only at h₁
    cases hfd0 : s1.fdalloc p rf with
    | none =>
      obtain ⟨r2, s2, hc2, h₂, -⟩ := h₁.fileclose
      rw [← zero_add (Pi.single wf 1)] at h₂
      obtain ⟨r3, s3, hc3, h₃, -⟩ := h₂.fileclose
      refine ⟨-1, s3, ?_, h₃⟩
      simp only [hfd0, hc2, hc3, bind, Except.bind, pure, Except.pure]
    | some r =>
      obtain ⟨fd0, s2⟩ := r
      obtain ⟨hnone, rfl⟩ := fdalloc_eq hfd0
      have h₂ := h₁.give hnone hlive
      cases hfd1 : (s1.setFd p fd0 (some rf)).fdalloc p wf with
      | none =>
        have hsome : (s1.setFd p fd0 (some rf)).ofile p fd0 = some rf := by simp [Files.setFd]
        have htook := h₂.take hsome
        obtain ⟨r3, s3, hc3, h₃, -⟩ := htook.fileclose
        rw [← zero_add (Pi.single wf 1)] at h₃
        obtain ⟨r4, s4, hc4, h4, -⟩ := h₃.fileclose
        refine ⟨-1, s4, ?_, h4⟩
        simp only [hfd0, hfd1, hc3, hc4, bind, Except.bind, pure, Except.pure]
      | some r =>
        obtain ⟨fd1, s3⟩ := r
        obtain ⟨hnone1, rfl⟩ := fdalloc_eq hfd1
        rw [← zero_add (Pi.single wf 1)] at h₂
        refine ⟨0, _, ?_, h₂.give hnone1 hlive⟩
        simp only [hfd0, hfd1, bind, Except.bind, pure, Except.pure]

omit [DecidableEq π] in
/-- The loop of `fork`: the descriptors that are still to be copied are free in the child. -/
theorem Owes.forkFds : ∀ {l : List Fd} {s : Files ι π}, l.Nodup → Owes s 0 → s.live q = true →
    (∀ fd ∈ l, s.ofile q fd = none) → ∃ s', Files.forkFds p q l s = .ok s' ∧ Owes s' 0
  | [], s, _, h, _, _ => ⟨s, rfl, h⟩
  | fd :: l, s, hl, h, hq, hfree => by
    obtain ⟨hfd, hl'⟩ := List.nodup_cons.1 hl
    unfold Files.forkFds
    split
    · exact Owes.forkFds hl' h hq fun fd' hfd' => hfree fd' (.tail _ hfd')
    next f hf =>
    have hpos : 0 < s.refs f + (0 : FileId → Nat) f := Nat.add_pos_left (refs_pos hf) _
    obtain ⟨s2, hdup, h₂, ho2, hl2⟩ := h.filedup hpos
    have hq2 : s2.live q = true := by rw [hl2, hq]
    have h₃ := h₂.give (by rw [ho2]; exact hfree fd (.head _)) hq2
    obtain ⟨s', hs', h'⟩ := Owes.forkFds hl' h₃ hq2 fun fd' hfd' => by
      have hne : fd' ≠ fd := by
        rintro rfl
        exact hfd hfd'
      simp only [Files.setFd, update_self, update_of_ne hne, ho2]
      exact hfree fd' (.tail _ hfd')
    refine ⟨s', ?_, h'⟩
    rw [hdup]
    exact hs'

omit [DecidableEq π] in
theorem Owes.fork (h : Owes s 0) (hq : s.live q = false) :
    ∃ s', s.fork p q = .ok s' ∧ Owes s' 0 := by
  have hlive : Owes { s with live := update s.live q true } 0 := by
    refine ⟨h.refs, ⟨h.linked.closed, h.linked.page, h.linked.mode, h.linked.unique, h.linked.ends,
      h.linked.freed⟩, fun {r fd} hr => ?_⟩
    dsimp only at hr
    rw [update_apply] at hr
    split at hr
    · cases hr
    · exact h.unused hr
  exact Owes.forkFds (List.nodup_finRange _) hlive (update_self ..) fun fd _ => h.unused hq

theorem fileclose_setFd (s : Files ι π) (p : Slot) (fd : Fd) (v : Option FileId) (f : FileId) :
    (s.setFd p fd v).fileclose f = (s.fileclose f).map fun x => (x.1, x.2.setFd p fd v) := by
  unfold Files.fileclose Files.setFd
  dsimp only
  by_cases h1 : (s.file f).ref < 1
  · simp only [if_pos h1]
    rfl
  by_cases h2 : (s.file f).ref - 1 > 0
  · simp only [if_neg h1, if_pos h2]
    rfl
  · simp only [if_neg h1, if_neg h2]
    cases (s.file f).type <;> cases (s.file f).pipe <;> rfl

/-- The loop of `exit`. -/
theorem Owes.exitFds : ∀ {l : List Fd} {s : Files ι π}, Owes s 0 →
    ∃ r s', Files.exitFds p l s = .ok (r, s') ∧ Owes s' 0 ∧ s'.live = s.live ∧
      ∀ fd, s.ofile p fd = none ∨ fd ∈ l → s'.ofile p fd = none
  | [], s, h => ⟨[], s, rfl, h, rfl, fun fd hfd => hfd.resolve_right nofun⟩
  | fd :: l, s, h => by
    unfold Files.exitFds
    split
    · next hnone =>
      obtain ⟨r, s', hs', h', hl', hfree⟩ := Owes.exitFds (l := l) h
      refine ⟨r, s', hs', h', hl', fun fd' hfd' => hfree fd' ?_⟩
      rcases hfd' with hfd' | hfd'
      · exact .inl hfd'
      · rcases List.mem_cons.1 hfd' with rfl | hfd'
        · exact .inl hnone
        · exact .inr hfd'
    next f hf =>
    -- the file is closed before the descriptor is cleared; in the other order it is `Owes.take`
    obtain ⟨r2, s2, hc, h₂, ho2, hl2⟩ := (h.take hf).fileclose
    rw [fileclose_setFd] at hc
    cases hc1 : s.fileclose f with
    | error e =>
      rw [hc1] at hc
      cases hc
    | ok x =>
      rw [hc1] at hc
      obtain ⟨r1, s1⟩ := x
      cases hc
      obtain ⟨r', s', hs', h', hl', hfree⟩ := Owes.exitFds (l := l) h₂
      refine ⟨r1.toList ++ r', s', ?_, h', hl'.trans hl2, fun fd' hfd' => hfree fd' ?_⟩
      · simp only [hs', bind, Except.bind, pure, Except.pure]
      · rw [ho2]
        rcases eq_or_ne fd' fd with rfl | hne
        · exact .inl (by simp [Files.setFd])
        · refine hfd'.imp (fun hfd' => ?_) fun hfd' => (List.mem_cons.1 hfd').resolve_left hne
          simpa only [Files.setFd, update_self, update_of_ne hne] using hfd'

theorem Owes.exit (h : Owes s 0) : ∃ r s', s.exit p = .ok (r, s') ∧ Owes s' 0 := by
  obtain ⟨r, s', hs', h', -, hfree⟩ := Owes.exitFds (p := p) (l := List.finRange NOFILE) h
  refine ⟨r, { s' with live := update s'.live p false }, by rw [Files.exit, hs']; rfl,
    ⟨h'.refs, ⟨h'.linked.closed, h'.linked.page,
    h'.linked.mode, h'.linked.unique, h'.linked.ends, h'.linked.freed⟩, fun {q fd} hq => ?_⟩⟩
  dsimp only at hq
  rw [update_apply] at hq
  split at hq
  · next hqp =>
    rw [hqp]
    exact hfree fd (.inr (List.mem_finRange fd))
  · exact h'.unused hq

/-- Every call returns. -/
theorem Owes.call (h : Owes s 0) (ha : s.Enabled a) : ∃ s', s.call a = .ok s' ∧ Owes s' 0 := by
  cases a with
  | «open» p ip omode =>
    cases ip with
    | none => exact ⟨s, rfl, h⟩
    | some ip =>
      obtain ⟨r, s', hs', h'⟩ := h.openFile ha ip omode
      exact ⟨s', by rw [Files.call, hs']; rfl, h'⟩
  | close p fd =>
    obtain ⟨r, s', hs', h'⟩ := h.sys_close (p := p) fd
    exact ⟨s'.2, by rw [Files.call, hs']; rfl, h'⟩
  | dup p fd =>
    obtain ⟨r, s', hs', h'⟩ := h.sys_dup ha fd
    exact ⟨s', by rw [Files.call, hs']; rfl, h'⟩
  | pipe p arg mem =>
    have hmem : s.live p = true ∧ ∀ g, mem = some g → s.made g = s.freed g := by
      cases mem with
      | none => exact ⟨ha, nofun⟩
      | some g =>
        refine ⟨ha.1, ?_⟩
        rintro g' ⟨⟩
        exact ha.2
    obtain ⟨r, s', hs', h'⟩ := h.sys_pipe hmem.1 arg hmem.2
    exact ⟨s', by rw [Files.call, hs']; rfl, h'⟩
  | fork p q =>
    cases q with
    | none => exact ⟨s, rfl, h⟩
    | some q => exact h.fork ha.2
  | exit p =>
    obtain ⟨r, s', hs', h'⟩ := h.exit (p := p)
    exact ⟨s', by rw [Files.call, hs']; rfl, h'⟩

end

end

/-! ## The result -/

theorem owes_initial : Owes (initial : Files ι π) 0 := by
  refine ⟨fun f => ?_, ⟨fun _ => rfl, nofun, nofun, nofun, fun hg => absurd hg nofun,
    fun _ => .inr rfl⟩, fun _ => rfl⟩
  have hrefs : (initial : Files ι π).refs f = 0 := by
    rw [Files.refs, Finset.card_eq_zero, Finset.filter_eq_empty_iff]
    exact fun _ _ => nofun
  rw [hrefs]
  rfl

/-- An end of a pipe, in terms of the invariant. -/
theorem Owes.isEnd_iff {s : Files ι π} (h : Owes s 0) {g : π} {w : Bool} {f : FileId} :
    s.IsEnd g w f ↔ (s.file f).type = .pipe ∧ (s.file f).pipe = some g ∧
      (s.file f).writable = w := by
  constructor
  · rintro ⟨-, ht, hg, hw⟩
    refine ⟨ht, hg, ?_⟩
    rw [h.linked.mode ht] at hw
    cases w <;> simpa using hw
  · rintro ⟨ht, hg, rfl⟩
    refine ⟨?_, ht, hg, ?_⟩
    · have hr := h.refs f
      have hne : (s.file f).ref ≠ 0 := by
        intro h0
        rw [h.linked.closed h0] at ht
        cases ht
      omega
    · rw [h.linked.mode ht]
      cases (s.file f).writable <;> rfl

section
variable [DecidableEq π]

theorem Owes.counted {s : Files ι π} (h : Owes s 0) : Counted s where
  refs f := by
    rw [h.refs f, Pi.zero_apply, Nat.cast_zero, add_zero]
  ends hg := by
    simp only [h.isEnd_iff]
    exact ⟨h.linked.ends (w := false) hg, h.linked.ends (w := true) hg⟩
  piped {g w f} hf := by
    obtain ⟨ht, hg, -⟩ := h.isEnd_iff.1 hf
    obtain ⟨g', hg', hp⟩ := h.linked.page ht
    rw [hg] at hg'
    cases hg'
    exact hp
  freed g := by
    refine (h.linked.freed g).imp_left ?_
    rintro ⟨hp, w, hw⟩
    refine ⟨hp, ?_⟩
    cases w with
    | false => exact .inl hw
    | true => exact .inr hw
  safe a ha := by
    obtain ⟨s', hs', -⟩ := h.call ha
    exact ⟨s', hs'⟩

/-- **Files and pipes are counted right**, after every sequence of calls. -/
theorem files_counted {s : Files ι π} (h : (system ι π).Reach s) : Counted s := by
  refine Owes.counted (h.invariant (I := fun s => Owes s 0) (fun s hi => ?_) fun s a s' hI hs => ?_)
  · rw [show s = initial from hi]
    exact owes_initial
  · have hstep : s.Enabled a ∧ (s.call a).toOption = some s' := by
      simpa [system, System.ofNext, next] using hs
    obtain ⟨s1, hs1, h₁⟩ := hI.call hstep.1
    rw [hs1] at hstep
    cases hstep.2
    exact h₁

/-- A process makes a pipe and a child, closes its own end for reading, and the child exits. -/
def pipeForkExit : List (Act Nat Nat) :=
  [.pipe 0 true (some 7), .fork 0 (some 1), .close 0 0, .exit 1]

/-- `files_counted` on the run of `pipeForkExit`. -/
theorem files_counted_pipeForkExit : ∃ s : Files Nat Nat, (system Nat Nat).Reach s ∧
    (s.pipe 7).readopen = false ∧ (s.pipe 7).writeopen = true ∧ (s.file 1).ref = 1 ∧ Counted s := by
  obtain ⟨s, hreach, h1, h2, h3⟩ := (system Nat Nat).exists_run next initial pipeForkExit
    (Q := fun s => (s.pipe 7).readopen = false ∧ (s.pipe 7).writeopen = true ∧ (s.file 1).ref = 1)
    rfl rfl (by decide +kernel)
  exact ⟨s, hreach, h1, h2, h3, files_counted hreach⟩

end

end Msboss.Ftable
