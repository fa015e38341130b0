import Msboss.Inodes.Effects
import Msboss.Inodes.Calls
import Msboss.Lib.Tally

/-!
# References, locks and transactions between calls

Every path of every call gives back what it took: between two calls no inode is locked, no
transaction is open, and an inode's reference count is the number of open files and current
directories that point at it.

`ends_code` is the step of this induction and of those about names and link counts, which add a
property of the disk that the changes of `Inodes.Effects` keep.
-/

namespace Msboss.Inodes

open Function
open Fs (FileType)
open Ftable (Files FileId Slot Fd)

/-! ## Pointers to inodes -/

/-- The number of files in use that are of type `FD_INODE` and point at `i`. -/
def uses (F : Files InodeId Nat) (i : InodeId) : Nat :=
  (Finset.univ.filter fun f =>
    0 < (F.file f).ref ∧ (F.file f).type = .inode ∧ (F.file f).ip = some i).card

/-- The number of processes whose current directory is `i`. -/
def dirs (s : State) (i : InodeId) : Nat :=
  (Finset.univ.filter fun p => s.files.live p = true ∧ s.cwd p = i).card

/-- No inode is locked, no transaction is open, no inode is in two entries, and the references to
an entry are those of files in use and current directories. -/
structure Balanced (s : State) : Prop where
  unlocked : ∀ i, (s.vol.entry i).busy = false
  closed : s.vol.outstanding = 0
  unique : ∀ i j, 0 < (s.vol.entry i).ref → 0 < (s.vol.entry j).ref →
    (s.vol.entry i).dev = (s.vol.entry j).dev → (s.vol.entry i).inum = (s.vol.entry j).inum → i = j
  refs : ∀ i, (s.vol.entry i).ref = uses s.files i + dirs s i

/-- The references from outside a call. -/
def kept (s : State) : Kept where
  count i := uses s.files i + dirs s i
  inum i := (s.vol.entry i).inum
  ninodes := s.vol.ninodes

/-! ## The file table -/

/-- A file that is not in use has no type. -/
def Tidy (F : Files InodeId Nat) : Prop :=
  ∀ f, 0 ≤ (F.file f).ref ∧ ((F.file f).ref = 0 → (F.file f).type = .none)

/-- A step of the file table that makes a file of the inode `gain` and closes one of `loss`. -/
structure Step (F F' : Files InodeId Nat) (gain loss : Option InodeId) : Prop where
  tidy : Tidy F'
  count : ∀ i, uses F' i + (if loss = some i then 1 else 0) =
    uses F i + if gain = some i then 1 else 0
  live : F'.live = F.live

variable {F F' : Files InodeId Nat} {f : FileId} {p q : Slot} {fd : Fd}

/-- A step that changes one file. -/
theorem uses_setFile (F : Files InodeId Nat) (f : FileId) (x : Ftable.File InodeId Nat)
    (i : InodeId) : uses (F.setFile f x) i +
        (if 0 < (F.file f).ref ∧ (F.file f).type = .inode ∧ (F.file f).ip = some i then 1 else 0) =
      uses F i + if 0 < x.ref ∧ x.type = .inode ∧ x.ip = some i then 1 else 0 := by
  have hself : (F.setFile f x).file f = x := update_self ..
  have hother : ∀ g, g ≠ f → (F.setFile f x).file g = F.file g :=
    fun g hg => update_of_ne hg ..
  have := card_change (i := f)
    (g := fun g => 0 < (F.file g).ref ∧ (F.file g).type = .inode ∧ (F.file g).ip = some i)
    (k := fun g => 0 < ((F.setFile f x).file g).ref ∧ ((F.setFile f x).file g).type = .inode ∧
      ((F.setFile f x).file g).ip = some i) fun g hg => by rw [hother g hg]
  rwa [hself] at this

theorem Tidy.setFile (h : Tidy F) (hr : 0 ≤ x.ref)
    (hx : x.ref = 0 → x.type = .none) : Tidy (F.setFile f x) := by
  intro g
  by_cases hg : g = f
  · subst hg
    simpa [Files.setFile] using ⟨hr, hx⟩
  · simpa [Files.setFile, hg] using h g

/-- The references to a file in use change, but not all go. -/
theorem Step.setRef (h : Tidy F) (hpos : 0 < (F.file f).ref) (hn : 0 < n) :
    Step F (F.setFile f { F.file f with ref := n }) none none := by
  refine ⟨h.setFile hn.le fun h0 => absurd h0 hn.ne', fun i => ?_, rfl⟩
  have := uses_setFile F f { F.file f with ref := n } i
  simp only [hpos, hn, true_and] at this
  simp only [reduceCtorEq, if_false]
  omega

/-- `filedup` changes no use of an inode. -/
theorem Step.filedup (h : Tidy F) (hd : F.filedup f = .ok F') : Step F F' none none := by
  unfold Files.filedup at hd
  split at hd
  · cases hd
  · next href =>
    cases hd
    exact .setRef h (by omega) (by omega)

/-- `fileclose` gives back what it returns. -/
theorem Step.fileclose {r : Option InodeId} (h : Tidy F) (hc : F.fileclose f = .ok (r, F')) :
    Step F F' none r := by
  have hclosed : (F.file f).ref = 1 →
    Tidy (F.setFile f { F.file f with ref := 0, type := .none }) :=
    fun _ => h.setFile le_rfl fun _ => rfl
  have huses (i : InodeId) := uses_setFile F f { F.file f with ref := 0, type := .none } i
  unfold Files.fileclose at hc
  dsimp only at hc
  split at hc
  · cases hc
  next href =>
  split at hc
  · next hlast =>
    cases hc
    exact .setRef h (by omega) (by omega)
  next hlast =>
  have hone : (F.file f).ref = 1 := by omega
  simp only [hone, lt_irrefl, false_and, if_false] at huses
  have htidy := hclosed hone
  have hlive : (F.setFile f { F.file f with ref := 0, type := .none }).live = F.live := rfl
  generalize F.setFile f { F.file f with ref := 0, type := .none } = G at hc htidy huses hlive
  cases ht : (F.file f).type with
  | inode =>
    rw [ht] at hc
    cases hc
    exact ⟨htidy, fun i => by simpa [ht] using huses i, hlive⟩
  | none =>
    rw [ht] at hc
    cases hc
    exact ⟨htidy, fun i => by simpa [ht] using huses i, hlive⟩
  | pipe =>
    rw [ht] at hc
    have hsame : ∀ i, uses G i = uses F i := fun i => by simpa [ht] using huses i
    cases hpipe : (F.file f).pipe with
    | none =>
      rw [hpipe] at hc
      cases hc
      exact ⟨htidy, fun i => by rw [hsame i], hlive⟩
    | some g =>
      rw [hpipe] at hc
      cases hc
      exact ⟨htidy, fun i => congrArg (· + _) (hsame i), hlive⟩

theorem Tidy.setFd (h : Tidy F) (p : Slot) (fd : Fd) (v : Option FileId) :
    Tidy (F.setFd p fd v) := h

theorem Step.uses_eq (h : Step F F' none none) (i : InodeId) : uses F' i = uses F i := by
  simpa using h.count i

theorem Step.refl (h : Tidy F) : Step F F none none := ⟨h, fun _ => rfl, rfl⟩

theorem Step.trans {r : Option InodeId} (h₁ : Step F G none none)
    (h₂ : Step G F' none r) : Step F F' none r :=
  ⟨h₂.tidy, fun i => by rw [h₂.count, h₁.count], by rw [h₂.live, h₁.live]⟩

theorem Step.setFd (h : Tidy F) (p : Slot) (fd : Fd) (v : Option FileId) :
    Step F (F.setFd p fd v) none none := ⟨h, fun _ => rfl, rfl⟩

/-- `fdalloc` changes no use of an inode. -/
theorem Step.fdalloc (h : Tidy F) (ha : F.fdalloc p f = some (fd, F')) : Step F F' none none := by
  unfold Files.fdalloc at ha
  split at ha
  · cases ha
  · cases ha
    exact .setFd h _ _ _

/-- `dup` changes no use of an inode. -/
theorem Step.sys_dup (h : Tidy F) (hd : F.sys_dup p a = .ok (r, F')) : Step F F' none none := by
  unfold Files.sys_dup at hd
  split at hd
  · cases hd
    exact .refl h
  split at hd
  · cases hd
    exact .refl h
  next fd F1 ha =>
  obtain ⟨F2, hdup, hret⟩ := bind_eq_ok.1 hd
  cases hret
  have h₁ := Step.fdalloc h ha
  exact h₁.trans (.filedup h₁.tidy hdup)

/-- `close` gives back what it returns. -/
theorem Step.sys_close (h : Tidy F) {ip : Option InodeId}
    (hc : F.sys_close p a = .ok (r, ip, F')) : Step F F' none ip := by
  unfold Files.sys_close at hc
  split at hc
  · cases hc
    exact .refl h
  · obtain ⟨⟨ip', F1⟩, hclose, hret⟩ := bind_eq_ok.1 hc
    cases hret
    exact (Step.setFd h p _ none).trans (.fileclose (Tidy.setFd h _ _ _) hclose)

/-- A file taken from the table has no type. -/
theorem Step.filealloc (h : Tidy F) (ha : F.filealloc = some (f, F')) :
    Step F F' none none ∧ (F'.file f).ref = 1 ∧ (F'.file f).type = .none := by
  unfold Files.filealloc at ha
  split at ha
  · cases ha
  next g hfind =>
  cases ha
  have href : (F.file f).ref = 0 := by simpa using List.find?_some hfind
  have htype := (h f).2 href
  refine ⟨⟨h.setFile zero_le_one nofun, fun i => ?_, rfl⟩, by simp [Files.setFile],
    by simp [Files.setFile, htype]⟩
  simpa [href, htype] using uses_setFile F f { F.file f with ref := 1 } i

/-- A file without a type becomes one of `ip`. -/
theorem Step.setInode (h : Tidy F) (htype : (F.file f).type = .none)
    (href : 0 < x.ref) (hx : x.type = .inode) (hip : x.ip = some ip) :
    Step F (F.setFile f x) (some ip) none := by
  refine ⟨h.setFile href.le fun h0 => absurd h0 href.ne', fun i => ?_, rfl⟩
  simpa [htype, href, hx, hip] using uses_setFile F f x i

/-- The outcomes of `openFile`: a file of `ip`, or nothing. -/
theorem Step.openFile (h : Tidy F) {r : Option Fd} (ho : F.openFile p ip omode = .ok (r, F')) :
    Step F F' (if r.isSome then some ip else none) none := by
  unfold Files.openFile at ho
  split at ho
  · cases ho
    exact .refl h
  next f F1 ha =>
  obtain ⟨h₁, href, htype⟩ := Step.filealloc h ha
  split at ho
  · obtain ⟨⟨ip', F2⟩, hclose, hret⟩ := bind_eq_ok.1 ho
    cases hret
    have h₂ := Step.fileclose h₁.tidy hclose
    refine ⟨h₂.tidy, fun i => ?_, by rw [h₂.live, h₁.live]⟩
    -- what is closed here has no type
    have hnone : ip' = none := by
      unfold Files.fileclose at hclose
      dsimp only at hclose
      rw [href, htype] at hclose
      cases hclose
      rfl
    have := h₂.count i
    rw [hnone, h₁.count] at this
    simpa using this
  · next fd F2 hfd =>
    cases ho
    have h₂ := Step.fdalloc h₁.tidy hfd
    have hfile : F2.file = F1.file := by
      unfold Files.fdalloc at hfd
      split at hfd
      · cases hfd
      · cases hfd
        rfl
    have href2 : (F2.file f).ref = 1 := by rw [hfile, href]
    have htype2 : (F2.file f).type = .none := by rw [hfile, htype]
    have h₃ := Step.setInode h₂.tidy htype2 (x := { F2.file f with
      type := .inode
      ip := some ip
      readable := omode &&& Files.O_WRONLY = 0
      writable := omode &&& Files.O_WRONLY ≠ 0 ∨ omode &&& Files.O_RDWR ≠ 0 })
      (by dsimp only; omega) rfl rfl
    exact ⟨h₃.tidy, fun i => by rw [h₃.count, (h₁.trans h₂).uses_eq]; rfl,
      h₃.live.trans (h₁.trans h₂).live⟩

/-- `fork` changes no use of an inode. -/
theorem Step.forkFds : ∀ {l : List Fd} {F : Files InodeId Nat}, Tidy F →
    Files.forkFds p q l F = .ok F' → Step F F' none none
  | [], F, h, hf => by
    cases hf
    exact .refl h
  | fd :: l, F, h, hf => by
    unfold Files.forkFds at hf
    split at hf
    · exact Step.forkFds h hf
    · obtain ⟨F1, hdup, hrest⟩ := bind_eq_ok.1 hf
      have h₁ := Step.filedup h hdup
      exact (h₁.trans (.setFd h₁.tidy _ _ _)).trans (Step.forkFds (Tidy.setFd h₁.tidy _ _ _) hrest)

/-! ## Between calls -/

/-- The inode of a current directory. -/
def State.cwdInum (s : State) (p : Slot) : Nat := (s.vol.entry (s.cwd p)).inum

/-- The state between two calls. With `Fine`, the disk has the property `P`, which may depend on the
number of inodes and on which of them are open files or current directories. -/
structure Between (Fine : Prop) (P : Nat → (Nat → Prop) → Disk → Prop) (s : State) : Prop where
  tidy : Tidy s.files
  held : Held (kept s) 0 [] [] s.vol.disk s.vol
  fine : Fine → P s.vol.ninodes (kept s).Has s.vol.disk

/-- The call makes an inode of type `t` if `path` does not exist. -/
def Act.Creates (path : List UInt8) (t : FileType) : Act → Prop
  | .open _ p omode => p = some path ∧ t = .file ∧ omode &&& Files.O_CREATE ≠ 0
  | .mkdir _ p => p = some path ∧ t = .dir
  | .mknod _ p => p = some path ∧ t = .dev
  | _ => False

/-- A disk in order: an inode without links is in use, what is in use has a type, no link count has
overflowed, and the root has a link. -/
structure Sane (R : Nat → Prop) (D : Disk) : Prop where
  quiet : Quiet R D
  used : ∀ n, R n → (D n).type ≠ .free
  range : InRange D
  rootLinks : (D ROOTINO).nlink ≠ 0

/-- A property of the disk that the calls keep when they meet `G`, which may depend on the inodes in
use, the disk and the current directory. With `Safe`, it also excludes that `ilock` finds no
type. -/
structure Stable (Safe : Prop) (P : Nat → (Nat → Prop) → Disk → Prop)
    (G : Nat → (Nat → Prop) → Disk → Nat → Act → Prop) : Prop where
  sane : ∀ {N R D}, P N R D → Sane R D
  live : ∀ {N R D}, Safe → P N R D → Live R D
  /-- An inode is not used any more. -/
  drop : ∀ {N R R' D D' n}, P N R D → (∀ m, R' m → R m) → (∀ m, m ≠ n → R m → R' m) →
    Drop R' D n D' → P N R' D'
  /-- An inode is used. -/
  use : ∀ {N R D n}, P N R D → (D n).type ≠ .free → P N (fun m => R m ∨ m = n) D
  unlink : ∀ {N R D D' c p path}, P N R D → G N R D c (.unlink p path) → Unlinked R D c path D' →
    P N R D'
  link : ∀ {N R D D' c p old new}, P N R D → G N R D c (.link p old new) → Linked D c old new D' →
    P N R D'
  create : ∀ {N R D D' c a path t n}, P N R D → G N R D c a → a.Creates path t →
    Created N D c path t n D' → P N R D'

variable {Fine Safe : Prop} {P : Nat → (Nat → Prop) → Disk → Prop} 
  {G : Nat → (Nat → Prop) → Disk → Nat → Act → Prop}
  {s : State} {K : Kept} {o : Int} {H : Refs} {L : List InodeId} {D D' : Disk} {i : InodeId}

/-- A call on the volume leaves the rest alone. -/
theorem ends_onVolume {α : Type} {m : M α} {Q : α → Volume → Prop} (h : Ends m s.vol Q E) :
    Ends (onVolume m) s (fun a s' => ∃ v, s' = { s with vol := v } ∧ Q a v) E := by
  unfold Ends onVolume at *
  cases hm : m s.vol with
  | error e => rw [hm] at h; exact h
  | ok r => rw [hm] at h; exact ⟨_, rfl, h⟩

theorem ends_onFiles {α : Type}
    {m : Files InodeId Nat → Except Ftable.Panic (α × Files InodeId Nat)}
    {Q : α → State → Prop} (h : ∀ a F, m s.files = .ok (a, F) → Q a { s with files := F }) :
    Ends (onFiles m) s Q (Fails Safe) := by
  unfold Ends onFiles
  cases hm : m s.files with
  | error e => exact nofun
  | ok r => exact h _ _ hm

theorem ends_onPath {α : Type} {m : InodeId → M α} {Q : α → Volume → Prop}
    (h : Ends (m (s.cwd p)) s.vol Q E) :
    Ends (onPath p m) s (fun a s' => ∃ v, s' = { s with vol := v } ∧ Q a v) E := ends_onVolume h

/-- The current directory of a process is referred to. -/
theorem kept_cwd_pos (hp : s.files.live p = true) : 0 < (kept s).count (s.cwd p) := by
  have : 0 < dirs s (s.cwd p) := Finset.card_pos.2 ⟨p, by simp [hp]⟩
  exact Nat.add_pos_right _ this

/-- The end of a call: the references that are left are those of `s`. -/
theorem Between.of_held (ht : Tidy s.files) (h : Held K 0 [] [] D s.vol)
    (hc : ∀ i, K.count i = uses s.files i + dirs s i)
    (hP : Fine → P K.ninodes K.Has D) : Between Fine P s := by
  have hcount : ∀ i, (kept s).count i = K.count i := fun i => (hc i).symm
  have hinum : ∀ i, 0 < K.count i → (kept s).inum i = K.inum i := fun i hi => (h.fits i).kept hi
  have hhas : (kept s).Has = K.Has := by
    funext n
    refine propext ⟨?_, ?_⟩
    · rintro ⟨i, hi, rfl⟩
      rw [hcount] at hi
      exact ⟨i, hi, (hinum i hi).symm⟩
    · rintro ⟨i, hi, rfl⟩
      exact ⟨i, by rw [hcount]; exact hi, hinum i hi⟩
  refine ⟨ht, ?_, fun hF => ?_⟩
  · rw [h.disk]
    exact {
      fits := fun i => {
        refs := by rw [hcount]; exact (h.fits i).refs
        busy := (h.fits i).busy
        locked := (h.fits i).locked
        device := (h.fits i).device
        named := (h.fits i).named
        kept := fun _ => rfl
        loaded := fun hi => by
          rw [hcount] at hi
          rw [hinum i hi]
          exact (h.fits i).loaded hi
        copied := (h.fits i).copied }
      unique := h.unique
      nodup := h.nodup
      disk := h.disk
      ops := h.ops
      ninodes := rfl }
  · rw [h.disk, h.ninodes, hhas]
    exact hP hF

/-- What the lemmas of `Inodes.Effects` assume. -/
theorem Between.assumed (h : Between Fine P s) (hP : Stable Safe P G) (hS : Safe → Fine) :
    Assumed Fine Safe (kept s).Has s.vol.disk where
  quiet hF := (hP.sane (h.fine hF)).quiet
  live hs := hP.live hs (h.fine (hS hs))
  fine := hS

/-- A call that only uses the volume. -/
theorem Between.onVolume (h : Between Fine P s) {v : Volume} (hv : Held (kept s) 0 [] [] D v)
    (hP : Fine → P s.vol.ninodes (kept s).Has D) : Between Fine P { s with vol := v } :=
  Between.of_held h.tidy hv (fun _ => rfl) hP

theorem dirs_congr {t : State} (hl : t.files.live = s.files.live) (hc : t.cwd = s.cwd)
    (i : InodeId) : dirs t i = dirs s i := by
  unfold dirs
  rw [hl, hc]

/-- How the current directories change when one process does. -/
theorem dirs_change (h : ∀ q, q ≠ p → t.files.live q = s.files.live q ∧
    t.cwd q = s.cwd q) (i : InodeId) :
    dirs t i + (if s.files.live p = true ∧ s.cwd p = i then 1 else 0) =
      dirs s i + if t.files.live p = true ∧ t.cwd p = i then 1 else 0 :=
  card_change (g := fun q => s.files.live q = true ∧ s.cwd q = i)
    (k := fun q => t.files.live q = true ∧ t.cwd q = i) fun q hq => by
    rw [(h q hq).1, (h q hq).2]

theorem Kept.count_give (K : Kept) (hi : 0 < K.count i) (j : InodeId) :
    (K.give i).count j + (if i = j then 1 else 0) = K.count j := by
  by_cases hj : j = i
  · subst hj
    simp only [Kept.give, update_self, if_true]
    omega
  · simp [Kept.give, hj, Ne.symm hj]

theorem Kept.count_take (K : Kept) (i : InodeId) (n : Nat) (j : InodeId) :
    (K.take i n).count j = K.count j + if i = j then 1 else 0 := by
  by_cases hj : j = i
  · subst hj
    simp [Kept.take]
  · simp [Kept.take, hj, Ne.symm hj]

/-- `P` when a reference from outside is put. -/
theorem Stable.give (hP : Stable Safe P G) {N : Nat} (h : P N K.Has D)
    (hd : Drop (K.give i).Has D (K.inum i) D') : P N (K.give i).Has D' :=
  hP.drop h (fun _ hm => hm.of_give) (fun _ hm hR => hR.give hm) hd

/-- `P` when there is one more reference from outside. -/
theorem Stable.take (hP : Stable Safe P G) {N n : Nat} (h : P N K.Has D)
    (hi : 0 < K.count i → K.inum i = n) (hn : (D n).type ≠ .free) : P N (K.take i n).Has D := by
  have : (K.take i n).Has = fun m => K.Has m ∨ m = n := funext fun m => propext (Kept.has_take hi)
  rw [this]
  exact hP.use h hn

/-- `fileclose` and `exit` put an inode. -/
theorem ends_putInode (hP : Stable Safe P G) (h : Held K 0 [] [] D s.vol) (hi : 0 < K.count i)
    (hF : Fine → P K.ninodes K.Has D) :
    Ends (putInode i) s (fun _ s' => ∃ v, s' = { s with vol := v } ∧ ∃ D',
      Held (K.give i) 0 [] [] D' v ∧ (Fine → P K.ninodes (K.give i).Has D')) (Fails Safe) := by
  refine ends_onVolume ?_
  refine (ends_begin_op h).bind fun _ v1 h₁ => ?_
  refine (ends_fails (ends_iput_kept h₁ hi fun hf => (hP.sane (hF hf)).rootLinks)).bind
    fun _ v2 h₂ => ?_
  obtain ⟨D2, h₂, hdrop⟩ := h₂
  refine (ends_end_op h₂).mono (fun _ v3 h₃ => ?_) fun _ hx => hx
  exact ⟨D2, h₃, fun hf => hP.give (hF hf) (hdrop hf)⟩

/-- A file is closed and the inode it gives up is put. -/
theorem ends_putFile (hP : Stable Safe P G) (h : Between Fine P s) {r : Option InodeId}
    (hs : Step s.files F none r) :
    Ends (putFile r) { s with files := F } (fun _ s' => Between Fine P s' ∧ s'.files = F ∧
      s'.cwd = s.cwd) (Fails Safe) := by
  cases r with
  | none =>
    refine ⟨Between.of_held hs.tidy h.held (fun i => ?_) h.fine, rfl, rfl⟩
    have hd : dirs { s with files := F } i = dirs s i :=
      dirs_congr (t := { s with files := F }) hs.live rfl i
    rw [hs.uses_eq, hd]
    rfl
  | some i =>
    have hpos : 0 < (kept s).count i := by
      have := hs.count i
      simp only [if_true, reduceCtorEq, if_false] at this
      exact Nat.add_pos_left (by omega) _
    refine (ends_putInode (s := { s with files := F }) hP h.held hpos h.fine).mono
      (fun _ s' h' => ?_) fun _ hx => hx
    obtain ⟨v, rfl, D', hheld, hfine⟩ := h'
    refine ⟨Between.of_held hs.tidy hheld (fun j => ?_) hfine, rfl, rfl⟩
    have h1 := (kept s).count_give hpos j
    have h2 := hs.count j
    have h3 : dirs { s with files := F, vol := v } j = dirs s j :=
      dirs_congr (t := { s with files := F, vol := v }) hs.live rfl j
    simp only [Option.some.injEq, reduceCtorEq, if_false] at h2
    rw [h3]
    dsimp only [kept] at h1 ⊢
    omega

/-- `close` keeps the invariant. -/
theorem ends_sys_close (hP : Stable Safe P G) (h : Between Fine P s) (a : Int) :
    Ends (sys_close p a) s (fun _ s' => Between Fine P s') (Fails Safe) := by
  refine (ends_onFiles (Q := fun r s' => ∃ F, s' = { s with files := F } ∧ Step s.files F none r.2)
    fun r F hr => ?_).bind fun r s1 h₁ => ?_
  · obtain ⟨⟨a', ip, F'⟩, hclose, hret⟩ := bind_eq_ok.1 hr
    cases hret
    exact ⟨F, rfl, Step.sys_close h.tidy hclose⟩
  · obtain ⟨F, rfl, hstep⟩ := h₁
    exact (ends_putFile hP h hstep).bind fun _ s2 h₂ => h₂.1

/-- The loop of `exit`. -/
theorem ends_exitFds (hP : Stable Safe P G) : ∀ (l : List Fd) {s : State}, Between Fine P s →
    Ends (exitFds p l) s (fun _ s' => Between Fine P s' ∧ s'.files.live = s.files.live ∧
      s'.cwd = s.cwd) (Fails Safe) := by
  intro l
  induction l with
  | nil => exact fun h => ⟨h, rfl, rfl⟩
  | cons fd l ih =>
    intro s h
    unfold exitFds
    rw [ends_get_bind]
    split
    · exact ih h
    next f _ =>
    refine (ends_onFiles (Q := fun r s' => ∃ F, s' = { s with files := F } ∧
      Step s.files F none r)
      fun r F hr => ⟨F, rfl, Step.fileclose h.tidy hr⟩).bind fun r s1 h₁ => ?_
    obtain ⟨F, rfl, hstep⟩ := h₁
    refine (ends_putFile hP h hstep).bind fun _ s2 h₂ => ?_
    obtain ⟨h₂, hfiles, hcwd⟩ := h₂
    rw [ends_modify_bind]
    -- the descriptor does not matter here
    have h₃ : Between Fine P { s2 with files := s2.files.setFd p fd none } :=
      Between.of_held (s := { s2 with files := s2.files.setFd p fd none }) h₂.tidy h₂.held
        (fun _ => rfl) h₂.fine
    refine (ih h₃).mono (fun _ s' h' => ⟨h'.1, ?_, ?_⟩) fun _ hx => hx
    · rw [h'.2.1, ← hstep.live, ← hfiles]
      rfl
    · rw [h'.2.2, ← hcwd]

/-- `exit` keeps the invariant. -/
theorem ends_exit (hP : Stable Safe P G) (h : Between Fine P s) (hp : s.files.live p = true) :
    Ends (exit p) s (fun _ s' => Between Fine P s') (Fails Safe) := by
  refine (ends_exitFds hP _ h).bind fun _ s1 h₁ => ?_
  obtain ⟨h₁, hlive, hcwd⟩ := h₁
  have hp1 : s1.files.live p = true := by rw [hlive]; exact hp
  have hpos := kept_cwd_pos hp1
  rw [ends_get_bind]
  refine (ends_putInode hP h₁.held hpos h₁.fine).bind fun _ s2 h₂ => ?_
  obtain ⟨v, rfl, D2, h₂, hfine⟩ := h₂
  rw [ends_modify]
  refine Between.of_held h₁.tidy h₂ (fun j => ?_) hfine
  have hd := dirs_change (p := p) (s := s1) (t := { s1 with
    vol := v
    files := { s1.files with live := update s1.files.live p false } })
    (fun q hq => ⟨by simp [hq], rfl⟩) j
  have hk := (kept s1).count_give hpos j
  simp only [hp1, true_and, update_self, Bool.false_eq_true, false_and, if_false] at hd
  dsimp only [kept] at hk ⊢
  change _ = uses s1.files j + _
  omega

/-- The end of a transaction that puts a locked inode. -/
theorem ends_iunlockput_end (h : Held K (o + 1) ((i, n) :: H) (i :: L) D v) :
    Ends (do iunlockput i; end_op) v (fun _ v' => ∃ D', Held K o H L D' v' ∧ Put K H D i n true D')
      Full := by
  refine (ends_iunlockput h).bind fun _ v1 h₁ => ?_
  obtain ⟨D', h₁, hput⟩ := h₁
  exact (ends_end_op h₁).mono (fun _ v2 h₂ => ⟨D', h₂, hput⟩) fun _ hx => hx

/-- The end of a transaction that keeps a reference to a locked inode. -/
theorem ends_iunlock_end (h : Held K (o + 1) [(i, n)] [i] D v) :
    Ends (do iunlock i; end_op) v (fun _ v' => Held (K.take i n) o [] [] D v') Full := by
  refine (ends_iunlock h).bind fun _ v1 h₁ => ?_
  obtain ⟨h₁, -, hvalid⟩ := h₁
  exact ends_end_op (h₁.take nofun (.inl hvalid))

/-- The end of `open`, after the lookup has made the disk `D`. -/
theorem ends_openFound (hP : Stable Safe P G) (ht : Tidy s.files) {n : Nat}
    (hc : ∀ i, K.count i = uses s.files i + dirs s i) (h : Held K (0 + 1) [(i, n)] [i] D s.vol)
    (hF : Fine → P K.ninodes K.Has D) (hn : Fine → (D n).type ≠ .free) (omode : UInt32) :
    Ends (openFound p omode i) s (fun _ s' => Between Fine P s') (Fails Safe) := by
  refine (ends_onFiles (Q := fun r s' => ∃ F, s' = { s with files := F } ∧
    Step s.files F (if r.isSome then some i else none) none)
    fun r F hr => ⟨F, rfl, Step.openFile ht hr⟩).bind fun r s1 h₁ => ?_
  obtain ⟨F, rfl, hstep⟩ := h₁
  have hd (v : Volume) (j : InodeId) : dirs { s with files := F, vol := v } j = dirs s j :=
    dirs_congr (t := { s with files := F, vol := v }) hstep.live rfl j
  have hsame : 0 < K.count i → K.inum i = n := fun hk => by
    rw [← (h.fits i).kept hk, (h.fits i).named n List.mem_cons_self]
  cases r with
  | none =>
    refine (ends_onVolume (s := { s with files := F }) (ends_fails (ends_iunlockput_end h))).bind
      fun _ s2 h₂ => ?_
    obtain ⟨v, rfl, D2, h₂, hput⟩ := h₂
    refine Between.of_held hstep.tidy h₂ (fun j => ?_) fun hf => ?_
    · have := hstep.uses_eq j
      rw [hc, hd]
      dsimp only
      omega
    · rw [hput.eq_of_ready h (hP.sane (hF hf)).quiet List.mem_cons_self]
      exact hF hf
  | some fd =>
    refine (ends_onVolume (s := { s with files := F }) (ends_fails (ends_iunlock_end h))).bind
      fun _ s2 h₂ => ?_
    obtain ⟨v, rfl, h₂⟩ := h₂
    refine Between.of_held hstep.tidy h₂ (fun j => ?_) fun hf => hP.take (hF hf) hsame (hn hf)
    have := hstep.count j
    simp only [Option.isSome_some, if_true, Option.some.injEq, reduceCtorEq, if_false] at this
    rw [K.count_take, hc, hd]
    dsimp only
    omega

/-- `open` keeps the invariant. -/
theorem ends_sys_open (hP : Stable Safe P G) (hS : Safe → Fine) (h : Between Fine P s)
    (hp : s.files.live p = true) {path : Option (List UInt8)} {omode : UInt32}
    (hG : Fine → G s.vol.ninodes (kept s).Has s.vol.disk (s.cwdInum p) (.open p path omode)) :
    Ends (sys_open p omode path) s (fun _ s' => Between Fine P s') (Fails Safe) := by
  cases path with
  | none => exact h
  | some path =>
    refine (ends_onVolume (ends_begin_op h.held)).bind fun _ s1 h₁ => ?_
    obtain ⟨v1, rfl, h₁⟩ := h₁
    refine (ends_onPath (s := { s with vol := v1 })
      (ends_strained (ends_openInode h₁ (h.assumed hP hS) (fun hF => (hP.sane (h.fine hF)).range)
        (kept_cwd_pos hp) path omode))).bind fun r s2 h₂ => ?_
    obtain ⟨v2, rfl, h₂⟩ := h₂
    cases r with
    | none =>
      obtain ⟨D2, h₂, hF2⟩ := h₂
      refine (ends_onVolume (ends_end_op h₂)).bind fun _ s3 h₃ => ?_
      obtain ⟨v3, rfl, h₃⟩ := h₃
      exact h.onVolume h₃ fun hF => hF2 hF ▸ h.fine hF
    | some ip =>
      obtain ⟨D2, n, h₂, hF2⟩ := h₂
      refine ends_openFound (s := { s with vol := v2 }) (K := kept s) hP h.tidy (fun _ => rfl) h₂
        (fun hF => ?_) (fun hF => ?_) omode
      · obtain ⟨rfl, -⟩ | hmade := hF2 hF
        · exact h.fine hF
        · exact hP.create (h.fine hF) (hG hF) ⟨rfl, rfl, hmade.1⟩ hmade.2
      · obtain ⟨rfl, hn, -⟩ | hmade := hF2 hF
        · exact hn
        · rw [hmade.2.type.1]
          exact nofun

/-- `chdir` keeps the invariant. -/
theorem ends_chdir (hP : Stable Safe P G) (hS : Safe → Fine) (h : Between Fine P s)
    (hp : s.files.live p = true) (path : Option (List UInt8)) :
    Ends (chdir p path) s (fun _ s' => Between Fine P s') (Fails Safe) := by
  have hpos := kept_cwd_pos hp
  refine (ends_onPath (ends_sys_chdir h.held (h.assumed hP hS)
    (fun hF => (hP.sane (h.fine hF)).rootLinks) hpos path)).bind fun r s1 h₁ => ?_
  obtain ⟨v1, rfl, h₁⟩ := h₁
  cases r with
  | none =>
    obtain ⟨D1, h₁, hF1⟩ := h₁
    exact h.onVolume h₁ fun hF => hF1 hF ▸ h.fine hF
  | some i =>
    obtain ⟨D1, n, h₁, hsame, hF1⟩ := h₁
    have hpos' : 0 < ((kept s).take i n).count (s.cwd p) := by
      rw [Kept.count_take]
      omega
    have hinum : ((kept s).take i n).inum (s.cwd p) = (kept s).inum (s.cwd p) := by
      by_cases hi : s.cwd p = i
      · subst hi
        simp [Kept.take, hsame hpos]
      · simp [Kept.take, hi]
    refine Between.of_held h.tidy h₁ (fun j => ?_) fun hF => ?_
    · have h1 := ((kept s).take i n).count_give hpos' j
      rw [Kept.count_take] at h1
      have h2 := dirs_change (p := p) (s := s) (t := { s with
        vol := v1, cwd := update s.cwd p i }) (fun q hq => ⟨rfl, by simp [hq]⟩) j
      simp only [hp, true_and, update_self] at h2
      dsimp only [kept] at h1 ⊢
      omega
    · obtain ⟨hn, hdrop⟩ := hF1 hF
      exact hP.give (hP.take (h.fine hF) hsame hn) (hinum ▸ hdrop)

/-- `fork` keeps the invariant. -/
theorem ends_fork (hP : Stable Safe P G) (h : Between Fine P s) (hp : s.files.live p = true)
    (hq : s.files.live q = false) :
    Ends (fork p q) s (fun _ s' => Between Fine P s') (Fails Safe) := by
  have hpos := kept_cwd_pos hp
  refine (ends_onFiles (Q := fun _ s' => ∃ F, s' = { s with files := F } ∧ Tidy F ∧
    (∀ i, uses F i = uses s.files i) ∧ F.live = update s.files.live q true)
    fun _ F hF => ?_).bind fun _ s1 h₁ => ?_
  · obtain ⟨F', hfork, hret⟩ := bind_eq_ok.1 hF
    cases hret
    have := Step.forkFds (F := { s.files with live := update s.files.live q true }) h.tidy
      hfork
    exact ⟨F, rfl, this.tidy, this.uses_eq, this.live⟩
  obtain ⟨F, rfl, htidy, huses, hlive⟩ := h₁
  have href : 0 < (s.vol.entry (s.cwd p)).ref := by
    rw [(h.held.fits _).refs]
    omega
  refine (ends_onPath (s := { s with files := F }) (ends_fails (ends_idup h.held href))).bind
    fun r s2 h₂ => ?_
  obtain ⟨v, rfl, rfl, h₂⟩ := h₂
  have hsame : 0 < (kept s).count (s.cwd p) → (kept s).inum (s.cwd p) = (kept s).inum (s.cwd p) :=
    fun _ => rfl
  refine Between.of_held htidy (h₂.take nofun ((h₂.fits _).loaded hpos)) (fun j => ?_) fun hF =>
    hP.take (h.fine hF) hsame ((hP.sane (h.fine hF)).used _ ⟨_, hpos, rfl⟩)
  have hd := dirs_change (p := q) (s := s) (t := { s with
    files := F, vol := v, cwd := update s.cwd q (s.cwd p) })
    (fun q' hq' => ⟨by simp [hlive, hq'], by simp [hq']⟩) j
  simp only [hq, hlive, update_self, Bool.false_eq_true, false_and, if_false, true_and] at hd
  rw [Kept.count_take]
  dsimp only [kept]
  rw [huses]
  omega

/-! ## The calls -/

/-- `mkdir` and `mknod`. -/
theorem ends_make (hP : Stable Safe P G) (hS : Safe → Fine) (h : Between Fine P s)
    (hp : s.files.live p = true)
    {path : Option (List UInt8)} {t : FileType} (ht : t ≠ .free) (htf : t ≠ .file) {a : Act}
    (ha : ∀ path', path = some path' → a.Creates path' t)
    (hG : Fine → G s.vol.ninodes (kept s).Has s.vol.disk (s.cwdInum p) a) :
    Ends (discard (onPath p fun cwd => makeNode cwd t path)) s (fun _ s' => Between Fine P s')
      (Fails Safe) := by
  refine ends_discard ((ends_onPath (ends_strained (ends_makeNode h.held (h.assumed hP hS)
    (fun hF => (hP.sane (h.fine hF)).range) (kept_cwd_pos hp) path ht htf))).mono
      (fun _ s' h' => ?_)
    fun _ hx => hx)
  obtain ⟨v, rfl, D', hv, hF⟩ := h'
  refine h.onVolume hv fun hf => ?_
  obtain ⟨rfl, -⟩ | ⟨path', n, rfl, hmade⟩ := hF hf
  · exact h.fine hf
  · exact hP.create (h.fine hf) (hG hf) (ha path' rfl) hmade

/-- A call is followed by a state as before it, and does not panic in `ilock` if the disk was in
order. -/
theorem ends_code (hP : Stable Safe P G) (hS : Safe → Fine) (h : Between Fine P s) {a : Act}
    (ha : s.Enabled a) (hG : Fine → G s.vol.ninodes (kept s).Has s.vol.disk (s.cwdInum a.proc) a) :
    Ends (code a) s (fun _ s' => Between Fine P s') (Fails Safe) := by
  have hD := h.assumed hP hS
  have hpos := kept_cwd_pos ha.1
  cases a with
  | «open» p path omode => exact ends_discard (ends_sys_open hP hS h ha.1 hG)
  | close p fd => exact ends_discard (ends_sys_close hP h fd)
  | dup p fd =>
    refine ends_discard (ends_onFiles fun r F hr => ?_)
    have hstep := Step.sys_dup h.tidy hr
    refine Between.of_held hstep.tidy h.held (fun i => ?_) h.fine
    have hd : dirs { s with files := F } i = dirs s i :=
      dirs_congr (t := { s with files := F }) hstep.live rfl i
    rw [hstep.uses_eq, hd]
    rfl
  | link p old new =>
    refine ends_discard ((ends_onPath (ends_sys_link h.held hD
      (fun hF => (hP.sane (h.fine hF)).range) hpos old new)).mono
      (fun _ s' h' => ?_) fun _ hx => hx)
    obtain ⟨v, rfl, D', hv, hF⟩ := h'
    exact h.onVolume hv fun hf => hP.link (h.fine hf) (hG hf) (hF hf)
  | unlink p path =>
    refine ends_discard ((ends_onPath (ends_sys_unlink h.held hD hpos path)).mono
      (fun _ s' h' => ?_) fun _ hx => hx)
    obtain ⟨v, rfl, D', hv, hF⟩ := h'
    exact h.onVolume hv fun hf => hP.unlink (h.fine hf) (hG hf) (hF hf)
  | mkdir p path =>
    exact ends_make (a := .mkdir p path) hP hS h ha.1 nofun nofun (fun _ hp => ⟨hp, rfl⟩) hG
  | mknod p path =>
    exact ends_make (a := .mknod p path) hP hS h ha.1 nofun nofun (fun _ hp => ⟨hp, rfl⟩) hG
  | chdir p path => exact ends_discard (ends_chdir hP hS h ha.1 path)
  | exec p path =>
    refine (ends_onPath (m := fun cwd => sys_exec cwd path)
      (ends_sys_exec h.held hD hpos path)).mono (fun _ s' h' => ?_) fun _ hx => hx
    obtain ⟨v, rfl, D', hv, hF⟩ := h'
    exact h.onVolume hv fun hf => hF hf ▸ h.fine hf
  | fork p q =>
    cases q with
    | none => exact h
    | some q => exact ends_fork hP h ha.1 ha.2
  | exit p => exact ends_exit hP h ha.1

theorem uses_initial (i : InodeId) : uses Ftable.initial i = 0 :=
  Finset.card_eq_zero.2 (Finset.filter_eq_empty_iff.2 fun _ _ h => absurd h.1 (lt_irrefl 0))

theorem dirs_boot (N : Nat) (D : Disk) (i : InodeId) :
    dirs (boot N D) i = if i = 0 then 1 else 0 := by
  unfold dirs boot Ftable.initial
  by_cases hi : i = 0
  · simp [hi, Finset.filter_eq']
  · simp [hi, Ne.symm hi]

theorem kept_boot_count (N : Nat) (D : Disk) (i : InodeId) :
    (kept (boot N D)).count i = if i = 0 then 1 else 0 := by
  change uses Ftable.initial i + dirs (boot N D) i = _
  rw [uses_initial, dirs_boot, zero_add]

/-- The invariant holds after boot. -/
theorem between_boot (hF : Fine → P N (kept (boot N D)).Has D) : Between Fine P (boot N D) := by
  refine ⟨fun _ => ⟨le_rfl, fun _ => rfl⟩, ?_, hF⟩
  constructor
  case fits =>
    intro i
    have hc := kept_boot_count N D i
    have hentry : (boot N D).vol.entry i =
        if i = 0 then ⟨ROOTDEV, ROOTINO, 1, false, false, .free, 0⟩
        else ⟨0, 0, 0, false, false, .free, 0⟩ := rfl
    have hinum : (kept (boot N D)).inum i = ((boot N D).vol.entry i).inum := rfl
    by_cases hi : i = 0
    · rw [if_pos hi] at hc hentry
      constructor <;> simp [hc, hentry, hinum]
    · rw [if_neg hi] at hc hentry
      constructor <;> simp [hc, hentry]
  case unique =>
    intro i j hi hj _
    have hzero : ∀ k : InodeId, 0 < ((boot N D).vol.entry k).ref → k = 0 := by
      intro k hk
      by_contra hne
      simp [boot, hne] at hk
    rw [hzero i hi, hzero j hj]
  case nodup => exact List.nodup_nil
  case disk => rfl
  case ops => rfl
  case ninodes => rfl

/-- The invariant balances the counts. -/
theorem Between.balanced (h : Between Fine P s) : Balanced s where
  unlocked i := by
    rw [Bool.eq_false_iff]
    exact fun hb => List.not_mem_nil ((h.held.fits i).busy.1 hb)
  closed := h.held.ops
  unique i j hi hj _ := h.held.unique i j hi hj
  refs i := by
    rw [(h.held.fits i).refs]
    simp [kept]

/-- What a call that returns leaves. -/
theorem Between.next (hP : Stable Safe P G) (hS : Safe → Fine) (h : Between Fine P s)
    (hs : next s a = some s')
    (hG : Fine → G s.vol.ninodes (kept s).Has s.vol.disk (s.cwdInum a.proc) a) :
    Between Fine P s' := by
  unfold Inodes.next at hs
  split at hs
  · next ha =>
    cases hc : code a s with
    | error e => rw [hc] at hs; cases hs
    | ok r =>
      rw [hc] at hs
      cases hs
      exact (ends_code hP hS h ha hG).of_ok hc
  · cases hs

/-- The property of no disk, for what holds of every disk. -/
theorem stable_false : Stable False (fun _ _ _ => False) fun _ _ _ _ _ => True where
  sane h := h.elim
  live h := h.elim
  drop h := h.elim
  use h := h.elim
  unlink h := h.elim
  link h := h.elim
  create h := h.elim

/-- After any sequence of complete calls by any processes, on any disk, references, locks and
transactions are balanced. -/
theorem calls_balanced {s : State} (h : (system fun _ _ => True).Reach s) : Balanced s := by
  suffices hb : Between False (fun _ _ _ => False) s from hb.balanced
  refine h.invariant (I := Between False fun _ _ _ => False) (fun s hi => ?_) fun s a s' hI hs => ?_
  · obtain ⟨N, D, -, rfl⟩ := hi
    exact between_boot False.elim
  · exact hI.next stable_false False.elim hs False.elim

/-- A disk with an empty root directory. -/
def emptyDisk : Disk := fun n =>
  if n = ROOTINO then ⟨.dir, 1, [⟨ROOTINO, dot⟩, ⟨ROOTINO, dotdot⟩]⟩ else ⟨.free, 0, []⟩

/-- A directory is made and entered by a child, and removed; the child makes a file in it, and
exits. -/
def orphan : List Act :=
  [.mkdir 0 (some [100]), .fork 0 (some 1), .chdir 1 (some [100]), .unlink 0 (some [100]),
    .open 1 (some [120]) 0x200, .link 1 (some [120]) (some [47, 121]), .exit 1]

/-- `calls_balanced` on the run of `orphan`. -/
theorem calls_balanced_orphan : ∃ s, (system fun _ _ => True).Reach s ∧
    s.files.live 1 = false ∧ (s.vol.disk 2).type = .free ∧ Balanced s := by
  obtain ⟨s, hreach, h1, h2⟩ := (system fun _ _ => True).exists_run next (boot 10 emptyDisk) orphan
    (Q := fun s => s.files.live 1 = false ∧ (s.vol.disk 2).type = .free) rfl
    ⟨10, emptyDisk, trivial, rfl⟩ (by decide +kernel)
  exact ⟨s, hreach, h1, h2, calls_balanced hreach⟩

end Msboss.Inodes
