import Msboss.Vm.Calls
import Msboss.Vm.Account

/-!
# The names of regions

No function but those of `exec` writes to memory that is not its to write: they fail with a panic
only (`Tame`). Those that map a region leave the names in `shm_arr` and the number of those in use
as they are (`Calm`), so that `shm_get` finds the entry it was told is free.
-/

namespace Msboss.Vm

open Memory

/-- The names, and the number of those in use, are as before. -/
structure SameNames (m m' : Memory) : Prop where
  name : ∀ i, (m'.shm_arr i).name = (m.shm_arr i).name
  used : m'.used = m.used

theorem SameNames.refl (m : Memory) : SameNames m m := ⟨fun _ => rfl, rfl⟩

theorem SameNames.trans (h : SameNames m m') (h' : SameNames m' m'') : SameNames m m'' :=
  ⟨fun i => (h'.name i).trans (h.name i), h'.used.trans h.used⟩

/-- The search goes by names. -/
theorem SameNames.shm_find (h : SameNames m m') (str : List UInt8) :
    m'.shm_find str = m.shm_find str := by
  simp only [Memory.shm_find, h.name]

/-- The computation does not end in a wild write. -/
structure Tame {α : Type} (x : Except Stop α) : Prop where
  ne_wild : x ≠ .error .wild

/-- The computation does not end in a wild write, and if it returns, the memory in what it returns
has the names of `m`. -/
structure Calm {α : Type} (x : Except Stop α) (m : Memory) (mem : α → Memory) : Prop where
  tame : Tame x
  names : ∀ a, x = .ok a → SameNames m (mem a)

section
variable {α β : Type} {m m' : Memory} {mem : α → Memory} {mem' : β → Memory}

theorem tame_ok (a : α) : Tame (.ok a : Except Stop α) := ⟨nofun⟩

theorem tame_panic (p : Panic) : Tame (.error (.panic p) : Except Stop α) := ⟨nofun⟩

theorem Tame.bind {x : Except Stop α} {f : α → Except Stop β} (hx : Tame x)
    (hf : ∀ a, x = .ok a → Tame (f a)) : Tame (x >>= f) :=
  ⟨bind_ne_error hx.ne_wild fun a ha => (hf a ha).ne_wild⟩

theorem calm_ok (h : SameNames m (mem a)) : Calm (.ok a) m mem where
  tame := tame_ok a
  names _ ha := by
    cases ha
    exact h

theorem calm_panic (p : Panic) : Calm (.error (.panic p) : Except Stop α) m mem :=
  ⟨tame_panic p, nofun⟩

/-- What is only read has no memory in it. -/
theorem calm_read {x : Except Stop α} (hx : Tame x) (m : Memory) : Calm x m fun _ => m :=
  ⟨hx, fun _ _ => .refl m⟩

theorem Calm.bind (hx : Calm x m mem)
    (hf : ∀ a, Calm (f a) (mem a) mem') : Calm (x >>= f) m mem' where
  tame := hx.tame.bind fun a _ => (hf a).tame
  names b hb := by
    obtain ⟨a, ha, hb⟩ := bind_eq_ok.1 hb
    exact (hx.names a ha).trans ((hf a).names b hb)

theorem Calm.of_same (hx : Calm x m' mem) (h : SameNames m m') : Calm x m mem :=
  ⟨hx.tame, fun a ha => h.trans (hx.names a ha)⟩

end

/-! ## `kalloc.c` and `vm.c` -/

section
variable {w u : Bool} {acc : Int} {oldsz newsz : Nat} {m m' : Memory}

theorem names_kalloc {o : Option Frame} (h : m.kalloc = (o, m')) : SameNames m m' := by
  cases o with
  | none =>
    obtain ⟨-, rfl⟩ := kalloc_none h
    exact ⟨fun _ => rfl, rfl⟩
  | some f =>
    rw [(kalloc_some h).2]
    exact ⟨fun _ => rfl, rfl⟩

theorem calm_kfree (m : Memory) (pa : Nat) : Calm (m.kfree pa) m id := by
  simp only [kfree]
  split
  · exact calm_panic _
  · exact calm_ok ⟨fun _ => rfl, rfl⟩

theorem names_walkpgdir (h : m.walkpgdir d va = (b, m', d')) : SameNames m m' := by
  unfold walkpgdir at h
  split at h
  · cases h
    exact .refl m
  split at h
  · next hk =>
    cases h
    exact names_kalloc hk
  · next hk =>
    cases h
    exact names_kalloc hk

theorem calm_mapLoop : ∀ (n : Nat) (m : Memory) (d : PageDir) (a pa : Nat),
    Calm (mapLoop w u n m d a pa) m (·.2.1)
  | 0, m, _, _, _ => calm_ok (.refl m)
  | n + 1, m, d, a, pa => by
    simp only [mapLoop]
    split
    · next hw => exact calm_ok (names_walkpgdir hw)
    · next hw =>
      split
      · exact calm_panic _
      · exact (calm_mapLoop n ..).of_same (names_walkpgdir hw)

theorem calm_mappages (m : Memory) (d : PageDir) (va size pa : Nat) :
    Calm (m.mappages d va size pa w u) m (·.2.1) := calm_mapLoop ..

theorem tame_kmapLoop : ∀ (ks : List Kmap) (m : Memory) (d : PageDir), Tame (m.kmapLoop ks d)
  | [], _, _ => tame_ok _
  | k :: ks, m, d => by
    refine (calm_mappages ..).tame.bind fun x _ => ?_
    split
    · exact tame_ok _
    · exact tame_kmapLoop ks _ _

theorem tame_setupkvm (m : Memory) : Tame m.setupkvm := by
  unfold setupkvm
  split
  · exact tame_ok _
  split
  · exact tame_panic _
  · exact tame_kmapLoop ..

theorem tame_deallocLoop : ∀ (n : Nat) (m : Memory) (d : PageDir) (a : Nat),
    Tame (deallocLoop oldsz acc n m d a)
  | 0, _, _, _ => tame_ok _
  | n + 1, m, d, a => by
    simp only [deallocLoop]
    split
    swap
    · exact tame_ok _
    split
    · exact tame_deallocLoop n ..
    split
    swap
    · exact tame_deallocLoop n ..
    split
    · exact tame_panic _
    split
    · exact tame_deallocLoop n ..
    · exact (calm_kfree ..).tame.bind fun m _ => tame_deallocLoop n m _ _

theorem tame_deallocuvm (m : Memory) (d : PageDir) (oldsz newsz : Nat) (acc : Int) :
    Tame (m.deallocuvm d oldsz newsz acc) := by
  unfold deallocuvm
  split
  · exact tame_ok _
  · exact (tame_deallocLoop ..).bind fun _ _ => tame_ok _

theorem tame_allocLoop : ∀ (n : Nat) (m : Memory) (d : PageDir) (a : Nat),
    Tame (allocLoop oldsz newsz n m d a)
  | 0, _, _, _ => tame_ok _
  | n + 1, m, d, a => by
    simp only [allocLoop]
    split
    · exact (tame_deallocuvm ..).bind fun _ _ => tame_ok _
    · exact (calm_mappages ..).tame.bind fun _ _ => tame_allocLoop n ..

theorem tame_allocuvm (m : Memory) (d : PageDir) (oldsz newsz : Nat) :
    Tame (m.allocuvm d oldsz newsz) := by
  unfold allocuvm
  split
  · exact tame_ok _
  split
  · exact tame_ok _
  · exact tame_allocLoop ..

theorem tame_freeTables (d : PageDir) : ∀ (is : List (Fin 1024)) (m : Memory),
    Tame (freeTables d is m)
  | [], _ => tame_ok _
  | i :: is, m => by
    simp only [freeTables]
    split
    · exact tame_freeTables d is m
    · exact (calm_kfree ..).tame.bind fun m _ => tame_freeTables d is m

theorem tame_freevm (m : Memory) (d : PageDir) (acc : Int) : Tame (m.freevm d acc) :=
  (tame_deallocuvm ..).bind fun _ _ => (tame_freeTables ..).bind fun m _ => (calm_kfree m _).tame

theorem tame_copyLoop (pgdir : PageDir) : ∀ (n : Nat) (m : Memory) (d : PageDir) (i : Nat),
    Tame (copyLoop pgdir n m d i)
  | 0, _, _, _ => tame_ok _
  | n + 1, m, d, i => by
    simp only [copyLoop]
    split
    · exact tame_panic _
    split
    swap
    · exact tame_panic _
    split
    · refine (calm_mappages ..).tame.bind fun x _ => ?_
      split
      · exact tame_ok _
      · exact tame_copyLoop pgdir n ..
    split
    · exact tame_ok _
    · refine (calm_mappages ..).tame.bind fun x _ => ?_
      split
      · exact tame_ok _
      · exact tame_copyLoop pgdir n ..

theorem tame_copyuvm (m : Memory) (d : PageDir) (sz : Nat) : Tame (m.copyuvm d sz) := by
  refine (tame_setupkvm m).bind fun x _ => ?_
  split
  · exact tame_ok _
  · refine (tame_copyLoop ..).bind fun y _ => ?_
    split
    · exact tame_ok _
    · exact (tame_freevm ..).bind fun _ _ => tame_ok _

end

/-! ## `shm.h` -/

section

theorem tame_nullPte (m : Memory) (cur : PageDir) : Tame (m.nullPte cur) := by
  unfold nullPte
  split
  · split
    · exact tame_ok _
    · exact tame_panic _
  · exact tame_panic _

theorem calm_remapLoop (sz : Nat) : ∀ (n : Nat) (m : Memory) (d : PageDir) (a : Nat),
    Calm (remapLoop sz n m d a) m Prod.fst
  | 0, m, _, _ => calm_ok (.refl m)
  | n + 1, m, d, a => by
    simp only [remapLoop]
    split
    swap
    · exact calm_ok (.refl m)
    have hrest (x : Nat × Pte) : Calm (do
        let y ← m.mappages d ((x.1 + (2 ^ 32 - PGSIZE)) % 2 ^ 32) PGSIZE x.2.addr true true
        remapLoop sz n y.2.1 y.2.2 ((x.1 + PGSIZE) % 2 ^ 32)) m Prod.fst :=
      (calm_mappages ..).bind fun _ => calm_remapLoop sz n ..
    split
    · exact (calm_read (tame_ok _) m).bind hrest
    · exact (calm_read (tame_nullPte ..) m).bind fun _ => (calm_read (tame_ok _) m).bind hrest

theorem calm_deallocshm (m : Memory) (P : Proc) (oldsz newsz : Nat) (ref : Slot) (shmMap : Nat) :
    Calm (m.deallocshm P oldsz newsz ref shmMap) m (·.2.1) := by
  unfold deallocshm
  split
  · exact calm_ok (.refl m)
  split
  · exact calm_ok (.refl m)
  dsimp only
  split
  · split
    · exact calm_ok (.refl m)
    · exact (calm_remapLoop ..).bind fun _ => calm_ok (.refl _)
  · refine (calm_read (tame_nullPte ..) m).bind fun e => ?_
    split
    · exact (calm_kfree ..).bind fun _ => calm_ok (.refl _)
    · exact calm_ok (.refl m)

theorem calm_allocshmLoop (oldsz newsz shmMap : Nat) :
    ∀ (n : Nat) (m : Memory) (P : Proc) (a mem : Nat),
      Calm (allocshmLoop oldsz newsz shmMap n m P a mem) m (·.2.1)
  | 0, m, _, _, _ => calm_ok (.refl m)
  | n + 1, m, P, a, mem => by
    simp only [allocshmLoop]
    split
    swap
    · exact (calm_mappages ..).bind fun _ => calm_allocshmLoop _ _ _ n ..
    split
    · next hk =>
      refine Calm.of_same ?_ (names_kalloc hk)
      exact (calm_deallocshm ..).bind fun _ => calm_ok (.refl _)
    · next f m1 hk =>
      have hfill : SameNames m (m1.fill f 0) := (names_kalloc hk).trans ⟨fun _ => rfl, rfl⟩
      exact ((calm_mappages ..).bind fun _ => calm_allocshmLoop _ _ _ n ..).of_same hfill

theorem calm_allocshm (m : Memory) (P : Proc) (oldsz newsz : Nat) (ref : Slot) (shmMap junk : Nat) :
    Calm (m.allocshm P oldsz newsz ref shmMap junk) m (·.2.1) := by
  unfold allocshm
  split
  · exact calm_ok (.refl m)
  split
  · exact calm_ok (.refl m)
  refine (calm_allocshmLoop ..).bind fun x => ?_
  split <;> exact calm_ok (.refl _)

theorem calm_shm_alloc (m : Memory) (P : Proc) (n : Int) (ref : Slot) (shmMap junk : Nat) :
    Calm (m.shm_alloc P n ref shmMap junk) m (·.2.1) := by
  unfold shm_alloc
  dsimp only
  split
  · refine (calm_allocshm ..).bind fun x => ?_
    split <;> exact calm_ok (.refl _)
  split
  · refine (calm_deallocshm ..).bind fun x => ?_
    split <;> exact calm_ok (.refl _)
  · exact calm_ok (.refl m)

end

/-! ## `proc.c` -/

theorem tame_growproc (m : Memory) (P : Proc) (n : Int) : Tame (m.growproc P n) := by
  unfold growproc
  dsimp only
  split
  · refine (tame_allocuvm ..).bind fun x _ => ?_
    split <;> exact tame_ok _
  split
  · refine (tame_deallocuvm ..).bind fun x _ => ?_
    split <;> exact tame_ok _
  · exact tame_ok _

theorem tame_assignLoop (m : Memory) (cur d : PageDir) (phys : Nat) :
    ∀ n i : Nat, Tame (m.assignLoop cur d phys n i)
  | 0, _ => tame_ok _
  | n + 1, i => by
    have hrest (e : Pte) : Tame (if e.addr = phys then .ok i else
        m.assignLoop cur d phys n (i + PGSIZE)) := by
      split
      · exact tame_ok _
      · exact tame_assignLoop m cur d phys n _
    simp only [assignLoop]
    split
    · exact (tame_ok _).bind fun e _ => hrest e
    · exact (tame_nullPte ..).bind fun e _ => hrest e

theorem tame_inherit (m : Memory) (P : Proc) (d : PageDir) :
    ∀ (is : List Slot) (vir : Slot → Nat), Tame (m.inherit P d is vir)
  | [], _ => tame_ok _
  | _ :: is, _ => (tame_assignLoop ..).bind fun _ _ => tame_inherit m P d is _

theorem tame_fork (s : State) (p : Pid) (P : Proc) : Tame (s.fork p P) := by
  unfold State.fork
  split
  · exact tame_ok _
  split
  · exact tame_ok _
  · refine (tame_copyuvm ..).bind fun x _ => ?_
    split
    · exact (calm_kfree ..).tame.bind fun _ _ => tame_ok _
    · exact (tame_inherit ..).bind fun _ _ => tame_ok _

theorem tame_wait {s : State} (h : s.wait p = some x) : Tame x := by
  unfold State.wait at h
  dsimp only at h
  split at h
  · split at h
    · cases h
    · obtain rfl := Option.some.inj h
      exact (calm_kfree ..).tame.bind fun _ _ => (tame_freevm ..).bind fun _ _ => tame_ok _
  · split at h
    · cases h
    · obtain rfl := Option.some.inj h
      exact tame_ok _

end Msboss.Vm
