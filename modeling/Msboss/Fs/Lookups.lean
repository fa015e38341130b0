import Msboss.Fs.Contents

/-!
# Where paths lead

`dirlookup` finds the first record with a name, and `namex` follows a path from record to record
(`State.walk`). A lookup changes no block. What it leaves in the cache is a reference to the inode
it returns (`State.Along`): every other reference is put again, and `iput` frees no inode on the way
as long as the records of a directory lead to inodes that are linked or in use (`State.Named`).
-/

namespace Msboss.Fs

open Function State
open Inodes (Name Dirent skipelem slash)

/-! ## Walking -/

namespace State

/-- The record of a name. -/
def lookup (s : State) (d : Nat) (name : Name) : Option Nat :=
  s.findRecord d (fun de => de.inum ≠ 0 ∧ namecmp name de.name = 0) 0

/-- The inode of a name. -/
def child (s : State) (d : Nat) (name : Name) : Option Nat :=
  (s.lookup d name).map fun k => (s.record d k).inum

/-- Where a path leads that starts at `ip`; with `parent`, the directory of its last name, and the
name. -/
def walk (s : State) (parent : Bool) : Nat → Nat → List UInt8 → Option (Nat × Name)
  | 0, ip, _ => if parent then none else some (ip, [])
  | fuel + 1, ip, path =>
    match skipelem path with
    | none => if parent then none else some (ip, [])
    | some (name, rest) =>
      if (s.dinode ip).type ≠ .dir then none
      else if parent ∧ rest = [] then some (ip, name)
      else (s.child ip name).bind fun next => s.walk parent fuel next rest

/-- Where a path starts. -/
def start (cwd : Nat) (path : List UInt8) : Nat := if path.head? = some slash then ROOTINO else cwd

/-- Where a path leads for a process in `cwd`. -/
def resolve (s : State) (cwd : Nat) (path : List UInt8) (parent : Bool) : Option (Nat × Name) :=
  s.walk parent path.length (start cwd path) path

/-- `iput` has no reason to free the inode: it is free, in use or linked. -/
def Kept (s : State) (i : Nat) : Prop :=
  i < s.sb.ninodes ∧ ((s.dinode i).type = .free ∨ 0 < s.ref i ∨ (s.dinode i).nlink ≠ 0)

/-- The records of directories in use, or linked, lead to such inodes. -/
structure Named (s : State) : Prop where
  root : s.Kept ROOTINO
  records : ∀ d < s.sb.ninodes, (s.dinode d).type = .dir → 0 < s.ref d ∨ (s.dinode d).nlink ≠ 0 →
    ∀ k < (s.dinode d).size / 16, (s.record d k).inum ≠ 0 → s.Kept (s.record d k).inum

/-- The records of directories in use, or linked, lead to inodes that are allocated, and directories
consist of records. -/
structure Filled (s : State) : Prop where
  whole : ∀ d < s.sb.ninodes, (s.dinode d).type = .dir → 16 ∣ (s.dinode d).size
  records : ∀ d < s.sb.ninodes, (s.dinode d).type = .dir → 0 < s.ref d ∨ (s.dinode d).nlink ≠ 0 →
    ∀ k < (s.dinode d).size / 16, (s.record d k).inum ≠ 0 →
      (s.dinode (s.record d k).inum).type ≠ .free

/-- Cached inodes have the links of those on the disk. -/
def Linked (s : State) : Prop :=
  ∀ i < s.sb.ninodes, 0 < s.ref i → s.valid i = true → (s.inode i).nlink = (s.dinode i).nlink

/-- No block has changed. -/
structure SameDisk (s s' : State) : Prop where
  sb : s'.sb = s.sb
  block : s'.block = s.block

/-- Since `s0`, no block has changed, and there is a new reference to each of `held`. -/
structure Along (s0 s : State) (held : Multiset Nat) : Prop where
  sb : s.sb = s0.sb
  block : s.block = s0.block
  ref : ∀ i, s.ref i = s0.ref i + held.count i
  sound : s.Sound
  linked : s.Linked

end State

namespace State.SameDisk

variable {s s' : State}

theorem dinode (h : s.SameDisk s') : s'.dinode = s.dinode := by
  unfold State.dinode
  rw [h.sb, h.block]

theorem own (h : s.SameDisk s') : s'.own s'.dinode = s.own s.dinode := by
  rw [h.dinode]
  exact funext fun y => own_eq rfl h.sb (fun _ => .refl _) fun _ => by rw [h.block]

theorem taken (h : s.SameDisk s') : s'.taken = s.taken := by
  unfold State.taken
  rw [h.sb, h.block]

theorem record (h : s.SameDisk s') : s'.record = s.record := by
  unfold State.record State.bytes State.byte
  rw [h.own, h.block]

theorem findRecord (h : s.SameDisk s') : s'.findRecord = s.findRecord := by
  unfold State.findRecord
  rw [h.dinode, h.record]

end State.SameDisk

section
variable {s0 s : State} {held : Multiset Nat} {i ip dp : Nat}

theorem State.Along.refl (h : s.Sound) (hlinked : s.Linked) : s.Along s 0 :=
  ⟨rfl, rfl, fun _ => rfl, h, hlinked⟩

theorem State.Along.disk (h : s0.Along s held) : s0.SameDisk s := ⟨h.sb, h.block⟩

theorem State.Along.dinode (h : s0.Along s held) : s.dinode = s0.dinode := h.disk.dinode

theorem State.Along.taken (h : s0.Along s held) : s.taken = s0.taken := h.disk.taken

theorem State.Along.record (h : s0.Along s held) : s.record = s0.record := h.disk.record

theorem State.Along.pos (h : s0.Along s (i ::ₘ held)) : 0 < s.ref i := by
  rw [h.ref, Multiset.count_cons_self]
  omega

/-! ## The cache -/

/-- Only memory and the log's account have changed. -/
theorem State.Along.quiet (h : s0.Along s held) (hsb : s'.sb = s.sb)
    (hblock : s'.block = s.block) (hinode : s'.inode = s.inode) (href : s'.ref = s.ref)
    (hvalid : s'.valid = s.valid) : s0.Along s' held := by
  have hdinode : s'.dinode = s.dinode := by
    unfold State.dinode
    rw [hsb, hblock]
  refine ⟨hsb.trans h.sb, hblock.trans h.block, fun i => by rw [href]; exact h.ref i,
    h.sound.of_disk hsb hblock fun i => ?_, ?_⟩
  · unfold State.Cached
    rw [hsb, href, hvalid, hinode, hdinode]
    exact h.sound.cached i
  · unfold State.Linked
    rw [hsb, href, hvalid, hinode, hdinode]
    exact h.linked

theorem along_iget (h : s0.Along s held) : Leaves (iget i) s
    (fun r s' => r = i ∧ s0.Along s' (i ::ₘ held) ∧ ∀ j, s.Locked j → s'.Locked j) E := by
  have hsound : Leaves (iget i) s (fun _ s' => s'.Sound) Harmless := sound_iget h.sound
  unfold iget at hsound ⊢
  rw [leaves_get_bind] at hsound ⊢
  have hcount (n : Nat) (hn : n = s.ref i + 1) (j : Nat) :
      update s.ref i n j = s0.ref j + (i ::ₘ held).count j := by
    rcases eq_or_ne j i with rfl | hne
    · rw [update_self, Multiset.count_cons_self, hn, h.ref]
      rfl
    · rw [update_of_ne hne, Multiset.count_cons_of_ne hne]
      exact h.ref j
  split
  · next href =>
    rw [if_pos href] at hsound
    refine ⟨rfl, ⟨h.sb, h.block, hcount _ rfl, hsound, fun j hj hr hv => h.linked j hj ?_ hv⟩,
      fun j hl => ⟨hl.lt, ?_, hl.valid⟩⟩
    · rcases eq_or_ne j i with rfl | hne
      · exact href
      · have hr : 0 < update s.ref i (s.ref i + 1) j := hr
        rwa [update_of_ne hne] at hr
    · change 0 < update s.ref i (s.ref i + 1) j
      rcases eq_or_ne j i with rfl | hne
      · rw [update_self]
        omega
      · rw [update_of_ne hne]
        exact hl.ref
  · next href =>
    rw [if_neg href] at hsound
    refine ⟨rfl, ⟨h.sb, h.block, hcount _ (by omega), hsound, fun j hj hr hv => ?_⟩, fun j hl => ?_⟩
    · have hr : 0 < update s.ref i 1 j := hr
      have hv : update s.valid i false j = true := hv
      rcases eq_or_ne j i with rfl | hne
      · rw [update_self] at hv
        cases hv
      · rw [update_of_ne hne] at hr hv
        exact h.linked j hj hr hv
    · have hne : j ≠ i := by
        rintro rfl
        exact href hl.ref
      refine ⟨hl.lt, ?_, ?_⟩
      · change 0 < update s.ref i 1 j
        rw [update_of_ne hne]
        exact hl.ref
      · change update s.valid i false j = true
        rw [update_of_ne hne]
        exact hl.valid

theorem along_idup (h : s0.Along s held) (href : 0 < s.ref i) :
    Leaves (idup i) s (fun r s' => r = i ∧ s0.Along s' (i ::ₘ held)) E := by
  have hget : idup i s = iget i s := by
    change _ = (if s.ref i > 0 then _ else _ : EStateM Panic State Nat) s
    rw [if_pos href]
    rfl
  have hleaves := along_iget (i := i) (E := E) h
  unfold Leaves at hleaves ⊢
  rw [hget]
  split at hleaves
  · exact ⟨hleaves.1, hleaves.2.1⟩
  · exact hleaves

/-- An inode is locked, unless it is free. -/
theorem along_ilock (h : s0.Along s held) (hi : ip < s.sb.ninodes) (href : 0 < s.ref ip) :
    Leaves (ilock ip) s (fun _ s' => s0.Along s' held ∧ s'.Locked ip)
      fun e _ => e = .noType ∧ (s0.dinode ip).type = .free := by
  refine leaves_ilock_cases (fun hlock => ?_) (fun h0 => absurd href (by omega)) fun _ hno => ?_
  swap
  · refine ⟨rfl, ?_⟩
    by_contra hne
    exact hno ⟨href, .inr (by rwa [h.dinode])⟩
  obtain ⟨hsound, hlocked⟩ := h.sound.lock hi hlock
  unfold lock at hsound hlocked ⊢
  split
  · next hv => exact ⟨h, hi, href, hv⟩
  next hv =>
  rw [if_neg hv] at hsound hlocked
  refine ⟨⟨h.sb, h.block, h.ref, hsound, fun j hj hr hv' => ?_⟩, hlocked⟩
  change (update s.inode ip (s.dinode ip) j).nlink = (s.dinode j).nlink
  have hv' : update s.valid ip true j = true := hv'
  rcases eq_or_ne j ip with rfl | hne
  · rw [update_self]
  · rw [update_of_ne hne] at hv' ⊢
    exact h.linked j hj hr hv'

/-- An inode that is kept is not freed. -/
theorem State.Along.not_last (h : s0.Along s (ip ::ₘ held)) (hkept : s0.Kept ip) :
    ¬ (s.ref ip = 1 ∧ s.valid ip ∧ (s.inode ip).nlink = 0) := by
  rintro ⟨hone, hv, hlink⟩
  have hi : ip < s.sb.ninodes := by
    rw [h.sb]
    exact hkept.1
  obtain ⟨hsame, htype⟩ := h.sound.cached ip hi h.pos hv
  rw [h.linked ip hi h.pos hv, h.dinode] at hlink
  rw [hsame.type, h.dinode] at htype
  rw [h.ref, Multiset.count_cons_self] at hone
  rcases hkept.2 with hfree | href | hne
  · exact htype hfree
  · omega
  · exact hne hlink

/-- A reference is put; the inode is kept. -/
theorem along_iput (h : s0.Along s (ip ::ₘ held)) (hkept : s0.Kept ip) :
    Leaves (iput ip) s (fun _ s' => s0.Along s' held) E := by
  have hip : ip < s.sb.ninodes := by rw [h.sb]; exact hkept.1
  have hsound := sound_iput h.sound hip
  unfold iput at hsound ⊢
  rw [leaves_get_bind] at hsound ⊢
  rw [if_neg (h.not_last hkept)] at hsound ⊢
  refine ⟨h.sb, h.block, fun j => ?_, hsound, fun j hj hr hv => h.linked j hj ?_ hv⟩
  · change update s.ref ip (s.ref ip - 1) j = _
    rcases eq_or_ne j ip with rfl | hne
    · rw [update_self, h.ref, Multiset.count_cons_self]
      rfl
    · rw [update_of_ne hne, h.ref, Multiset.count_cons_of_ne hne]
  · have hr : 0 < update s.ref ip (s.ref ip - 1) j := hr
    rcases eq_or_ne j ip with rfl | hne
    · exact h.pos
    · rwa [update_of_ne hne] at hr

/-- An inode that a path has led to is locked, unless it is free. -/
theorem ends_ilock_free (h : s0.Along s (ip ::ₘ held)) (hkept : s0.Kept ip) :
    Ends (lower (ilock ip)) s (fun _ s' => s0.Along s' (ip ::ₘ held) ∧ s'.Locked ip)
      fun _ => (s0.dinode ip).type = .free :=
  ends_lower ((along_ilock h (by rw [h.sb]; exact hkept.1) h.pos).mono (fun _ _ => id)
    fun _ _ he => he.2)

theorem ends_ilock (h : s0.Along s (ip ::ₘ held)) (hkept : s0.Kept ip) :
    Ends (lower (ilock ip)) s (fun _ s' => s0.Along s' (ip ::ₘ held) ∧ s'.Locked ip)
      fun _ => True :=
  (ends_ilock_free h hkept).mono (fun _ _ => id) fun _ _ => trivial

theorem ends_iput (h : s0.Along s (ip ::ₘ held)) (hkept : s0.Kept ip) :
    Ends (lower (iput ip)) s (fun _ s' => s0.Along s' held) E :=
  ends_lower (along_iput h hkept)

/-! ## Lookups -/

/-- What `dirlookup` has found. -/
def State.Found (s0 s : State) (held : Multiset Nat) (dp : Nat) (name : Name) :
    Option (Nat × Nat) → Prop
  | none => s0.lookup dp name = none ∧ s0.Along s held
  | some (off, ip) => s0.Along s (ip ::ₘ held) ∧
      ∃ k, s0.lookup dp name = some k ∧ off = 16 * k ∧ ip = (s0.record dp k).inum

theorem ends_dirlookup (h : s0.Along s held) (hl : s.Locked dp)
    (htype : (s0.dinode dp).type = .dir) : Ends (dirlookup dp name) s
      (fun r s' => s0.Found s' held dp name r ∧ s'.Locked dp)
      fun e => e = .dirlinkRead ∧ ¬ 16 ∣ (s0.dinode dp).size := by
  have htype' : (s.inode dp).type = .dir := by rw [h.sound.type_eq hl, h.dinode, htype]
  have hdev : (s.inode dp).type ≠ .dev := by rw [htype']; nofun
  have hscan : Ends (scanAll dp (fun de => de.inum ≠ 0 ∧ namecmp name de.name = 0) .dirlinkRead
    (16 * 0)) s _ _ := ends_scanAll h.sound hl hdev
  rw [h.disk.findRecord, h.record, h.dinode] at hscan
  unfold dirlookup
  rw [ends_get_bind, if_neg (not_not.2 htype')]
  refine hscan.bind ?_
  rintro r _ ⟨rfl, mem, stores, rfl⟩
  have h' : s0.Along { s with mem, stores } held := h.quiet rfl rfl rfl rfl rfl
  have hl' : { s with mem, stores }.Locked dp := ⟨hl.lt, hl.ref, hl.valid⟩
  cases hfind : s0.lookup dp name with
  | none =>
    rw [lookup] at hfind
    rw [hfind]
    exact ⟨⟨hfind, h'⟩, hl'⟩
  | some k =>
    have hfind' := hfind
    rw [lookup] at hfind'
    rw [hfind']
    refine (ends_lower (along_iget h')).bind ?_
    rintro _ t ⟨rfl, ht, hlocked⟩
    exact ⟨⟨ht, k, hfind, rfl, rfl⟩, hlocked dp hl'⟩

/-- What is found is kept. -/
theorem State.Named.found (hn : s0.Named) (hkept : s0.Kept dp)
    (htype : (s0.dinode dp).type = .dir) (h : s0.Found s held dp name (some (off, ip))) :
    s0.child dp name = some ip ∧ s0.Kept ip := by
  obtain ⟨-, k, hk, -, rfl⟩ := h
  obtain ⟨hlt, hp⟩ := findRecord_some hk
  have hp : (s0.record dp k).inum ≠ 0 ∧ namecmp name (s0.record dp k).name = 0 := by simpa using hp
  refine ⟨by rw [child, hk]; rfl, hn.records dp hkept.1 htype ?_ k hlt hp.1⟩
  exact hkept.2.resolve_left (by rw [htype]; nofun)

theorem State.Filled.child (hf : s0.Filled) (hkept : s0.Kept dp)
    (htype : (s0.dinode dp).type = .dir) (h : s0.child dp name = some ip) :
    (s0.dinode ip).type ≠ .free := by
  obtain ⟨k, hk, rfl⟩ := Option.map_eq_some_iff.1 h
  obtain ⟨hlt, hp⟩ := findRecord_some hk
  have hp : (s0.record dp k).inum ≠ 0 ∧ namecmp name (s0.record dp k).name = 0 := by simpa using hp
  exact hf.records dp hkept.1 htype (hkept.2.resolve_left (by rw [htype]; nofun)) k hlt hp.1

/-- Where a path has led. -/
def State.Led (s0 s : State) (held : Multiset Nat) (parent : Bool) (goal : Option (Nat × Name)) :
    Option (Nat × Name) → Prop
  | none => goal = none ∧ s0.Along s held
  | some (ip, name) => goal = some (ip, name) ∧ s0.Along s (ip ::ₘ held) ∧ s0.Kept ip ∧
      (parent = true → (s0.dinode ip).type = .dir)

theorem ends_namexEnd (h : s0.Along s (ip ::ₘ held))
    (hkept : s0.Kept ip) : Ends (namexEnd parent ip) s
      (fun r s' => s0.Led s' held parent (if parent then none else some (ip, [])) r) E := by
  unfold namexEnd
  cases parent with
  | true =>
    refine (ends_iput h hkept).bind fun _ t ht => ?_
    exact ⟨rfl, ht⟩
  | false => exact ⟨rfl, h, hkept, nofun⟩

/-- The loop of `namex` ends where the path leads. What stops it is an inode that is not allocated,
or a directory that ends within a record. -/
theorem ends_namexLoop (hn : s0.Named)
    (h : s0.Along s (ip ::ₘ held)) (hkept : s0.Kept ip) : Ends (namexLoop parent fuel ip path) s
      (fun r s' => s0.Led s' held parent (s0.walk parent fuel ip path) r)
      fun _ => ¬ (s0.Filled ∧ (s0.dinode ip).type ≠ .free) := by
  induction fuel generalizing s ip path with
  | zero =>
    unfold namexLoop walk
    exact ends_namexEnd h hkept
  | succ fuel ih =>
    unfold namexLoop walk
    rcases skipelem path with _ | ⟨name, rest⟩
    · exact ends_namexEnd h hkept
    dsimp only
    refine ((ends_ilock_free h hkept).mono (fun _ _ => id) fun _ hfree hf => hf.2 hfree).bind ?_
    rintro _ t ⟨ht, hl⟩
    rw [ends_get_bind, ht.sound.type_eq hl, ht.dinode]
    split
    · refine (ends_iput ht hkept).bind fun _ u hu => ?_
      exact ⟨rfl, hu⟩
    next htype =>
    have htype := not_not.1 htype
    split
    · exact ⟨rfl, ht, hkept, fun _ => htype⟩
    refine ((ends_dirlookup ht hl htype).mono (fun _ _ => id) fun _ he hf =>
      he.2 (hf.1.whole ip hkept.1 htype)).bind ?_
    rintro r u ⟨hu, -⟩
    cases r with
    | none =>
      refine (ends_iput hu.2 hkept).bind fun _ v hv => ?_
      refine ⟨?_, hv⟩
      rw [child, hu.1]
      rfl
    | some r =>
      obtain ⟨off, next⟩ := r
      obtain ⟨hchild, hnext⟩ := hn.found hkept htype hu
      have hswap := hu.1
      rw [Multiset.cons_swap] at hswap
      refine (ends_iput hswap hkept).bind fun _ v hv => ?_
      rw [hchild]
      refine (ih hv hnext).mono (fun _ _ => id) fun _ he hf => he ⟨hf.1, ?_⟩
      exact hf.1.child hkept htype hchild

/-- `namex` ends where the path leads. -/
theorem ends_namex_filled (path : List UInt8) (parent : Bool) (hn : s0.Named)
    (h : s0.Along s held) (hcwd : cwd < s0.sb.ninodes) (href : 0 < s0.ref cwd) :
    Ends (namex cwd path parent) s
      (fun r s' => s0.Led s' held parent (s0.resolve cwd path parent) r)
      fun _ => ¬ (s0.Filled ∧ (s0.dinode (start cwd path)).type ≠ .free) := by
  have hkept : s0.Kept (start cwd path) := by
    unfold start
    split
    · exact hn.root
    · exact ⟨hcwd, .inr (.inl href)⟩
  have hfirst {E : Panic → State → Prop} :
      Leaves (if path.head? = some slash then iget ROOTINO else idup cwd) s
        (fun r s' => r = start cwd path ∧ s0.Along s' (start cwd path ::ₘ held)) E := by
    unfold start
    split
    · exact (along_iget h).mono (fun _ _ hr => ⟨hr.1, hr.2.1⟩) fun _ _ => id
    · exact along_idup h (by rw [h.ref]; omega)
  unfold namex
  refine (ends_lower hfirst).bind ?_
  rintro _ t ⟨rfl, ht⟩
  exact ends_namexLoop hn ht hkept

theorem ends_namex (hn : s0.Named)
    (h : s0.Along s held) (hcwd : cwd < s0.sb.ninodes) (href : 0 < s0.ref cwd) :
    Ends (namex cwd path parent) s
      (fun r s' => s0.Led s' held parent (s0.resolve cwd path parent) r) fun _ => True :=
  (ends_namex_filled path parent hn h hcwd href).mono (fun _ _ => id) fun _ _ => trivial

end

end Msboss.Fs
