import Msboss.Fs.Entries
import Msboss.Fs.Failing

/-!
# Paths and their elements

`namex` takes a path apart with `skipelem` while it follows it. What it follows are the elements of
the path, its longest runs of bytes other than `'/'`, as far as they fit a record (`elements`):
`namei` returns the inode that they lead to one after the other (`State.follow`), and `nameiparent`
the directory that all but the last lead to, with the last as the name (`State.followParent`).
Neither needs to know of slashes. -/

namespace Msboss.Fs

open List State
open Inodes (Name Dirent skipelem slash)

/-! ## Elements -/

/-- The longest runs of bytes other than `'/'`. -/
def runs (path : List UInt8) : List Name := (path.splitOnP (· == slash)).filter (· ≠ [])

/-- The elements of a path. -/
def elements (path : List UInt8) : List Name := (runs path).map (·.take DIRSIZ)

section
variable {path rest w : List UInt8} {name : Name}

@[simp] theorem runs_slash (path : List UInt8) : runs (slash :: path) = runs path := by
  unfold runs
  rw [splitOnP_cons_eq_if_modifyHead, if_pos (beq_self_eq_true slash)]
  rfl

theorem runs_dropWhile (path : List UInt8) : runs (path.dropWhile (· = slash)) = runs path := by
  induction path with
  | nil => rfl
  | cons c path ih =>
    rw [dropWhile_cons]
    split
    · next hc =>
      rw [of_decide_eq_true hc, runs_slash]
      exact ih
    · rfl

/-- A run up to a slash, or to the end. -/
theorem runs_append (hne : w ≠ []) (hw : ∀ c ∈ w, c ≠ slash)
    (hrest : rest.head? = some slash ∨ rest = []) : runs (w ++ rest) = w :: runs rest := by
  have hw' : ∀ c ∈ w, (c == slash) = false := fun c hc => beq_eq_false_iff_ne.2 (hw c hc)
  rcases hrest with hrest | rfl
  · obtain ⟨rest, rfl⟩ : ∃ l, rest = slash :: l := by
      cases rest with
      | nil => cases hrest
      | cons c l => exact ⟨l, by rw [Option.some.inj hrest]⟩
    rw [runs_slash]
    unfold runs
    rw [splitOnP_append_cons_of_forall_mem hw' slash (beq_self_eq_true slash),
      filter_cons_of_pos (by simpa using hne)]
  · unfold runs
    rw [append_nil, splitOnP_eq_singleton hw', filter_cons_of_pos (by simpa using hne)]
    rfl

/-- A path that does not begin with a slash. -/
theorem runs_split (hne : path ≠ []) (hhead : path.head? ≠ some slash) :
    runs path = path.takeWhile (· ≠ slash) :: runs (path.dropWhile (· ≠ slash)) := by
  have hsplit := takeWhile_append_dropWhile (p := fun c => decide (c ≠ slash)) (l := path)
  have hrest : (path.dropWhile (· ≠ slash)).head? = some slash ∨
    path.dropWhile (· ≠ slash) = [] := by
    cases hd : path.dropWhile (· ≠ slash) with
    | nil => exact .inr rfl
    | cons c l =>
      have hc := head_dropWhile_not (fun c => decide (c ≠ slash)) (w := by rw [hd]; nofun)
      simp only [hd, head_cons, decide_eq_false_iff_not, not_not] at hc
      rw [hc]
      exact .inl rfl
  have hw : ∀ c ∈ path.takeWhile (· ≠ slash), c ≠ slash := by
    intro c hc
    have := mem_takeWhile_imp hc
    exact of_decide_eq_true this
  have hwne : path.takeWhile (· ≠ slash) ≠ [] := by
    cases path with
    | nil => exact absurd rfl hne
    | cons c l =>
      have hc : c ≠ slash := fun hc => hhead (by rw [hc]; rfl)
      rw [takeWhile_cons, if_pos (decide_eq_true hc)]
      nofun
  rw [← runs_append hwne hw hrest, hsplit]

theorem head_dropWhile_slash (path : List UInt8) :
    (path.dropWhile (· = slash)).head? ≠ some slash := by
  cases hd : path.dropWhile (· = slash) with
  | nil => nofun
  | cons c l =>
    have hc := head_dropWhile_not (fun c => decide (c = slash)) (w := by rw [hd]; nofun)
    simp only [hd, head_cons, decide_eq_false_iff_not] at hc
    rw [List.head?_cons]
    exact fun h => hc (Option.some.inj h)

/-- There is an element left exactly if there is a byte other than a slash. -/
theorem elements_eq_nil_iff (hhead : path.head? ≠ some slash) : elements path = [] ↔ path = [] := by
  constructor
  · intro h
    by_contra hne
    rw [elements, runs_split hne hhead, map_cons] at h
    cases h
  · rintro rfl
    rfl

/-- `skipelem` at the end of a path. -/
theorem elements_of_skipelem_none (h : skipelem path = none) : elements path = [] := by
  unfold skipelem at h
  dsimp only at h
  split at h
  · next hnil =>
    rw [elements, ← runs_dropWhile, hnil]
    rfl
  · cases h

/-- `skipelem` splits off the first element, and leaves no slash before the next. -/
theorem elements_of_skipelem (h : skipelem path = some (name, rest)) :
    elements path = name :: elements rest ∧ (elements rest = [] ↔ rest = []) ∧
      rest.length < path.length := by
  unfold skipelem at h
  dsimp only at h
  split at h
  · cases h
  next hne =>
  cases h
  have hhead := head_dropWhile_slash path
  have hruns := runs_split hne hhead
  refine ⟨?_, elements_eq_nil_iff (head_dropWhile_slash _), ?_⟩
  · rw [elements, ← runs_dropWhile path, hruns, map_cons, elements, runs_dropWhile]
  · have h1 := (dropWhile_sublist (l := path) fun c => decide (c = slash)).length_le
    have h2 := (dropWhile_sublist
      (l := (path.dropWhile (· = slash)).dropWhile (· ≠ slash)) fun c =>
        decide (c = slash)).length_le
    have h3 : ((path.dropWhile (· = slash)).dropWhile (· ≠ slash)).length <
        (path.dropWhile (· = slash)).length := by
      cases hd : path.dropWhile (· = slash) with
      | nil => exact absurd hd hne
      | cons c l =>
        rw [hd] at hhead
        have hc : c ≠ slash := fun hc => hhead (by rw [hc]; rfl)
        rw [dropWhile_cons, if_pos (decide_eq_true hc), length_cons]
        exact Nat.lt_succ_of_le (dropWhile_sublist _).length_le
    omega

/-- The bytes of an element and of what follows are bytes of the path. -/
theorem skipelem_subset (h : skipelem path = some (name, rest)) :
    name ⊆ path ∧ rest ⊆ path ∧ name.length ≤ DIRSIZ := by
  unfold skipelem at h
  dsimp only at h
  split at h
  · cases h
  cases h
  have hdrop := (dropWhile_sublist (l := path) fun c => decide (c = slash)).subset
  refine ⟨fun c hc => hdrop ((takeWhile_sublist _).subset (mem_of_mem_take hc)),
    fun c hc => hdrop ((dropWhile_sublist _).subset ((dropWhile_sublist _).subset hc)),
    length_take_le _ _⟩

end

/-! ## Following elements -/

namespace State

/-- The inode of the first record in use with this name. -/
def target (s : State) (d : Nat) (name : Name) : Option Nat :=
  (((List.range ((s.dinode d).size / 16)).map (s.record d)).find? fun de =>
    de.inum ≠ 0 ∧ de.name = name).map Dirent.inum

/-- Where names lead one after the other. -/
def follow (s : State) : Nat → List Name → Option Nat
  | ip, [] => some ip
  | ip, name :: names =>
    if (s.dinode ip).type = .dir then
      (s.target ip name).bind fun next => s.follow next names
    else none

/-- The directory that all names but the last lead to, and the last. -/
def followParent (s : State) (ip : Nat) (names : List Name) : Option (Nat × Name) :=
  match names.getLast? with
  | none => none
  | some name =>
    match s.follow ip names.dropLast with
    | none => none
    | some dp => if (s.dinode dp).type = .dir then some (dp, name) else none

/-- The file system as a path finds it: what `Ready` says, records that lead to allocated inodes,
and an allocated root and current directory. -/
structure Graph (s : State) (cwd : Nat) : Prop extends s.Ready cwd where
  filled : s.Filled
  root_allocated : (s.dinode ROOTINO).type ≠ .free
  cwd_allocated : (s.dinode cwd).type ≠ .free

end State

section
variable {s : State} {d ip : Nat} {path : List UInt8} {names : List Name} {name : Name}

theorem child_eq_target (hname : 0 ∉ name) (hlen : name.length ≤ DIRSIZ) :
    s.child d name = s.target d name := by
  unfold State.child State.lookup State.findRecord State.target
  rw [Nat.sub_zero, ← range_eq_range', List.find?_map, Option.map_map]
  congr 1
  congr 1
  funext k
  simp only [Function.comp_apply, namecmp_record_iff hname, take_of_length_le hlen]

/-- `namex` without `parent` follows all elements. -/
theorem walk_eq_follow (hpath : 0 ∉ path) (hfuel : path.length ≤ fuel) :
    s.walk false fuel ip path = (s.follow ip (elements path)).map (·, []) := by
  induction fuel generalizing ip path with
  | zero =>
    obtain rfl := eq_nil_of_length_eq_zero (Nat.le_zero.1 hfuel)
    rfl
  | succ fuel ih =>
    rw [walk]
    cases h : skipelem path with
    | none => rw [elements_of_skipelem_none h]; rfl
    | some r =>
      obtain ⟨name, rest⟩ := r
      obtain ⟨hel, -, hlt⟩ := elements_of_skipelem h
      obtain ⟨hname, hrest, hlen⟩ := skipelem_subset h
      rw [hel, follow]
      dsimp only
      by_cases htype : (s.dinode ip).type = .dir
      · rw [if_neg (not_not.2 htype), if_neg (by simp), if_pos htype,
          child_eq_target (fun h0 => hpath (hname h0)) hlen]
        cases s.target ip name with
        | none => rfl
        | some next => exact ih (fun h0 => hpath (hrest h0)) (by omega)
      · rw [if_pos htype, if_neg htype]
        rfl

/-- The first of several names. -/
theorem followParent_cons (hne : names ≠ []) : s.followParent ip (name :: names) =
    if (s.dinode ip).type = .dir then (s.target ip name).bind fun next => s.followParent next names
    else none := by
  obtain ⟨last, hlast⟩ := Option.ne_none_iff_exists'.1 (mt List.getLast?_eq_none_iff.1 hne)
  have hlast' : (name :: names).getLast? = some last := by
    rw [List.getLast?_cons, hlast]
    rfl
  have hdrop : (name :: names).dropLast = name :: names.dropLast := dropLast_cons_of_ne_nil hne
  unfold followParent
  rw [hlast', hlast, hdrop, follow]
  dsimp only
  by_cases htype : (s.dinode ip).type = .dir
  · rw [if_pos htype, if_pos htype]
    cases s.target ip name with
    | none => rfl
    | some next => rfl
  · rw [if_neg htype, if_neg htype]

/-- `namex` with `parent` follows all elements but the last. -/
theorem walk_eq_followParent (hpath : 0 ∉ path) (hfuel : path.length ≤ fuel) :
    s.walk true fuel ip path = s.followParent ip (elements path) := by
  induction fuel generalizing ip path with
  | zero =>
    obtain rfl := eq_nil_of_length_eq_zero (Nat.le_zero.1 hfuel)
    rfl
  | succ fuel ih =>
    rw [walk]
    cases h : skipelem path with
    | none => rw [elements_of_skipelem_none h]; rfl
    | some r =>
      obtain ⟨name, rest⟩ := r
      obtain ⟨hel, hlast, hlt⟩ := elements_of_skipelem h
      obtain ⟨hname, hrest, hlen⟩ := skipelem_subset h
      rw [hel]
      dsimp only
      by_cases hend : rest = []
      · rw [hend]
        change _ = (if (s.dinode ip).type = .dir then some (ip, name) else none)
        by_cases htype : (s.dinode ip).type = .dir
        · rw [if_neg (not_not.2 htype), if_pos ⟨rfl, rfl⟩, if_pos htype]
        · rw [if_pos htype, if_neg htype]
      · rw [followParent_cons (mt hlast.1 hend)]
        by_cases htype : (s.dinode ip).type = .dir
        · rw [if_neg (not_not.2 htype), if_neg fun h => hend h.2, if_pos htype,
            child_eq_target (fun h0 => hpath (hname h0)) hlen]
          cases s.target ip name with
          | none => rfl
          | some next => exact ih (fun h0 => hpath (hrest h0)) (by omega)
        · rw [if_pos htype, if_neg htype]

/-- Names lead nowhere exactly if one of them is looked up in what is no directory, or is not
found. -/
theorem follow_eq_none_iff : s.follow ip names = none ↔ ∃ i dp name, names[i]? = some name ∧
    s.follow ip (names.take i) = some dp ∧
      ((s.dinode dp).type ≠ .dir ∨ s.target dp name = none) := by
  induction names generalizing ip with
  | nil =>
    refine iff_of_false nofun ?_
    rintro ⟨i, dp, name, hi, -⟩
    cases hi
  | cons first names ih =>
    rw [follow]
    by_cases htype : (s.dinode ip).type = .dir
    swap
    · exact iff_of_true (if_neg htype) ⟨0, ip, first, rfl, rfl, .inl htype⟩
    rw [if_pos htype]
    cases hnext : s.target ip first with
    | none => exact iff_of_true rfl ⟨0, ip, first, rfl, rfl, .inr hnext⟩
    | some next =>
      rw [Option.bind_some, ih]
      have hstep (l : List Name) : s.follow ip (first :: l) = s.follow next l := by
        rw [follow, if_pos htype, hnext]
        rfl
      constructor
      · rintro ⟨i, dp, name, hi, hf, hbad⟩
        exact ⟨i + 1, dp, name, hi, by rw [take_succ_cons, hstep, hf], hbad⟩
      · rintro ⟨_ | i, dp, name, hi, hf, hbad⟩
        · cases hi
          cases hf
          rcases hbad with hbad | hbad
          · exact absurd htype hbad
          · rw [hnext] at hbad
            cases hbad
        · rw [take_succ_cons, hstep] at hf
          exact ⟨i, dp, name, hi, hf, hbad⟩

/-- The references that a lookup leaves are one to the inode that it returns. -/
theorem ends_namex_graph (hG : s.Graph cwd) (path : List UInt8) (parent : Bool) :
    ∃ s', namex cwd path parent s = .ok (s.resolve cwd path parent, s') ∧
      s.Along s' ((s.resolve cwd path parent).elim 0 fun r => {r.1}) := by
  have hstart : (s.dinode (start cwd path)).type ≠ .free := by
    unfold start
    split
    · exact hG.root_allocated
    · exact hG.cwd_allocated
  obtain ⟨r, s', hok, hled⟩ := ((ends_namex_filled path parent hG.named
    (.refl hG.sound hG.linked) hG.cwd_lt hG.cwd_ref).mono (fun _ _ => id)
    fun _ he => he ⟨hG.filled, hstart⟩).exists_ok
  rcases r with _ | ⟨ip, name⟩
  · obtain ⟨hgoal, halong⟩ := hled
    exact ⟨s', by rw [hok, hgoal], by rw [hgoal]; exact halong⟩
  · obtain ⟨hgoal, halong, -⟩ := hled
    exact ⟨s', by rw [hok, hgoal], by rw [hgoal]; exact halong⟩

end

/-- A disk with a root directory that has the entry `"."` only. -/
structure DotOnly (s : State) : Prop where
  ninodes : s.sb.ninodes = 8
  others : ∀ i < 8, i ≠ ROOTINO → (s.dinode i).type = .free
  root : (s.dinode ROOTINO).type = .dir ∧ (s.dinode ROOTINO).nlink = 1 ∧
    (s.dinode ROOTINO).size = 16 ∧ 0 < s.ref ROOTINO
  record : (s.record ROOTINO 0).inum = ROOTINO
  linked : ∀ i < 8, (s.inode i).nlink = (s.dinode i).nlink

instance (s : State) : Decidable (DotOnly s) :=
  decidable_of_iff (s.sb.ninodes = 8 ∧ (∀ i < 8, i ≠ ROOTINO → (s.dinode i).type = .free) ∧
      ((s.dinode ROOTINO).type = .dir ∧ (s.dinode ROOTINO).nlink = 1 ∧
        (s.dinode ROOTINO).size = 16 ∧ 0 < s.ref ROOTINO) ∧
      (s.record ROOTINO 0).inum = ROOTINO ∧ ∀ i < 8, (s.inode i).nlink = (s.dinode i).nlink)
    ⟨fun h => ⟨h.1, h.2.1, h.2.2.1, h.2.2.2.1, h.2.2.2.2⟩,
      fun h => ⟨h.ninodes, h.others, h.root, h.record, h.linked⟩⟩

theorem DotOnly.graph (h : DotOnly s) (hs : s.Sound) : s.Graph ROOTINO := by
  obtain ⟨htype, -, hsize, href⟩ := h.root
  have hlt : ROOTINO < s.sb.ninodes := by rw [h.ninodes]; decide
  have hroot : s.Kept ROOTINO := ⟨hlt, .inr (.inl href)⟩
  have hdir {d : Nat} (hd : d < s.sb.ninodes) (hdir : (s.dinode d).type = .dir) : d = ROOTINO := by
    by_contra hne
    rw [h.ninodes] at hd
    rw [h.others d hd hne] at hdir
    cases hdir
  have hrecord {d k : Nat} (hd : d < s.sb.ninodes) (htype : (s.dinode d).type = .dir)
      (hk : k < (s.dinode d).size / 16) : (s.record d k).inum = ROOTINO := by
    obtain rfl := hdir hd htype
    rw [hsize] at hk
    obtain rfl : k = 0 := by omega
    exact h.record
  have hfree : (s.dinode ROOTINO).type ≠ .free := by rw [htype]; nofun
  refine ⟨⟨hs, fun i hi _ _ => h.linked i (by rwa [h.ninodes] at hi),
    ⟨hroot, fun d hd ht _ k hk _ => by rw [hrecord hd ht hk]; exact hroot⟩, hlt, href⟩,
    ⟨fun d hd ht => ?_, fun d hd ht _ k hk _ => by rw [hrecord hd ht hk]; exact hfree⟩, hfree,
      hfree⟩
  rw [hdir hd ht, hsize]

end Msboss.Fs
