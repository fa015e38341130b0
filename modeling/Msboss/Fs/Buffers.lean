import Msboss.Fs.Files
import Msboss.Fs.Layout

/-!
# The buffers of `read` and `write`

`sys_read` and `sys_write`, from their arguments on the user stack (`syscall.c`) to the copies that
`fileread` and `filewrite` make. A call should touch the bytes of its buffer only, and these should
be bytes of the process.

The length `n` is an `int` up to `fileread`, and a `uint` in `readi`. A negative one passes the test
of `argptr` if the buffer would start at its end, and `readi` takes it for a very long buffer, so
the rest of the file is copied to `p` (`Caller.Overruns`). In all other cases the calls do what they
should (`buffers_confined`).
-/

namespace Msboss.Fs

/-- What the calls use of `struct proc` and its trap frame. -/
structure Caller where
  sz : Nat
  esp : Nat
  ofile : Nat → Option File

/-- The state with no copies on record. -/
def State.unrecorded (s : State) : State := { s with loads := [], stores := [] }

/-- What makes `readi`, given `m` for a negative length, copy something: the file is no device and
has bytes from the offset on, the offset and the length do not wrap, and the first block is
there. -/
def State.Exceeds (s : State) (ip off m : Nat) : Prop :=
  (s.inode ip).type ≠ .dev ∧ off < (s.inode ip).size ∧ off + m < 2 ^ 32 ∧
    ∃ b s', bmap ip (off / BSIZE) s = .ok b s'

namespace Caller

/-- `fetchint(addr, _)`. -/
def fetchint (c : Caller) (mem : Nat → UInt8) (addr : Nat) : Option Nat :=
  if addr ≥ c.sz ∨ (addr + 4) % 2 ^ 32 > c.sz then none
  else some (Bytes.leNat (Bytes.read mem addr 4))

/-- `argint(n, _)`. -/
def argint (c : Caller) (mem : Nat → UInt8) (n : Nat) : Option Nat :=
  c.fetchint mem ((c.esp + 4 + 4 * n) % 2 ^ 32)

/-- `argptr(n, _, size)`. -/
def argptr (c : Caller) (mem : Nat → UInt8) (n : Nat) (size : Int) : Option Nat := do
  let i ← c.argint mem n
  if i ≥ c.sz ∨ (i + size) % 2 ^ 32 > c.sz then none else some i

/-- `argfd(n, _, _)`. -/
def argfd (c : Caller) (mem : Nat → UInt8) (n : Nat) : Option (Nat × File) := do
  let fd := int (← c.argint mem n)
  if fd < 0 ∨ fd ≥ NOFILE then none
  else (c.ofile fd.toNat).map fun f => (fd.toNat, f)

/-- The arguments of a call that passes the tests: the descriptor, its file, `p` and `n`. -/
def args (c : Caller) (mem : Nat → UInt8) : Option ((Nat × File) × Nat × Int) := do
  let f ← c.argfd mem 0
  let n := int (← c.argint mem 2)
  let p ← c.argptr mem 1 n
  return (f, p, n)

/-- `sys_read`. The copies on record are those of this call. -/
def sys_read (c : Caller) (w : Waits) : M (Int × Caller) := do
  modify State.unrecorded
  match c.args (← get).mem with
  | none => return (-1, c)
  | some ((fd, f), p, n) =>
    let (r, f) ← fileread w f p n
    return (r, { c with ofile := Function.update c.ofile fd (some f) })

/-- `sys_write`. -/
def sys_write (c : Caller) (w : Waits) : M (Int × Caller) := do
  modify State.unrecorded
  match c.args (← get).mem with
  | none => return (-1, c)
  | some ((fd, f), p, n) =>
    let (r, f) ← filewrite w f p n
    return (r, { c with ofile := Function.update c.ofile fd (some f) })

/-- The buffer that a call is given: `p` and `n`. -/
def buffer (c : Caller) (mem : Nat → UInt8) : Option (Nat × Int) := do
  let p ← c.argint mem 1
  let n ← c.argint mem 2
  return (p, int n)

/-- The address is in the buffer. -/
def InBuffer (c : Caller) (mem : Nat → UInt8) (a : Nat) : Prop :=
  ∃ p n, c.buffer mem = some (p, n) ∧ p ≤ a ∧ (a : Int) < p + n

/-- The bytes that a call touches are in its buffer, and a call that passes the tests has a buffer
in the process. -/
structure Confined (c : Caller) (mem : Nat → UInt8) (touched : List Nat) : Prop where
  within : ∀ a ∈ touched, c.InBuffer mem a
  inside : ∀ {f p n}, c.args mem = some (f, p, n) → p + max n 0 ≤ c.sz

/-- The most that a call may return. -/
def most (c : Caller) (mem : Nat → UInt8) : Int := (c.buffer mem).elim 0 fun b => max b.2 0

/-- A read with a negative length that goes past its buffer. -/
def Overruns (c : Caller) (s : State) : Prop :=
  ∃ fd f p n, c.args s.mem = some ((fd, f), p, n) ∧ n < 0 ∧ f.readable = true ∧ f.type = .inode ∧
    s.CanLock f.ip ∧ (s.unrecorded.lock f.ip).Exceeds f.ip f.off (n % 2 ^ 32).toNat

/-- What `sys_read` should leave of a state. -/
def StoresConfined (c : Caller) (s s' : State) : Prop :=
  c.Confined s.mem s'.stores ∧ ∀ a, ¬ c.InBuffer s.mem a → s'.mem a = s.mem a

/-- What `sys_write` should leave of a state. -/
def LoadsConfined (c : Caller) (s s' : State) : Prop :=
  c.Confined s.mem s'.loads ∧ s'.mem = s.mem

end Caller

/-! ## What is copied -/

/-- Nothing was copied from or to a caller. -/
structure Quiet (s s' : State) : Prop where
  mem : s'.mem = s.mem
  loads : s'.loads = s.loads
  stores : s'.stores = s.stores

section
variable {s s0 : State} {ip bn : Nat}

theorem Quiet.refl (s : State) : Quiet s s := ⟨rfl, rfl, rfl⟩

theorem quiet_aloof (s0 : State) (ip : Nat) : Aloof ip (Quiet s0) where
  log_write _ _ _ h := ⟨h.mem, h.loads, h.stores⟩
  setInode _ _ _ h := ⟨h.mem, h.loads, h.stores⟩

theorem quiet_bmap (h : Quiet s0 s) : Stays (bmap ip bn) s (Quiet s0) := (quiet_aloof s0 ip).bmap h

end

/-- From `s` to `s'`, bytes were stored at addresses that meet `R`, and nowhere else. -/
structure Stored (R : Nat → Prop) (s s' : State) : Prop where
  stores : ∀ a ∈ s'.stores, a ∈ s.stores ∨ R a
  mem : ∀ a, ¬ R a → s'.mem a = s.mem a

/-- From `s` to `s'`, bytes were loaded from addresses that meet `R`, and nothing was stored. -/
structure Loaded (R : Nat → Prop) (s s' : State) : Prop where
  loads : ∀ a ∈ s'.loads, a ∈ s.loads ∨ R a
  stores : s'.stores = s.stores
  mem : s'.mem = s.mem

section
variable {s s0 s1 : State} {R : Nat → Prop} {dst n : Nat}

theorem mem_addresses : a ∈ addresses dst n ↔ ∃ i < n, (dst + i) % 2 ^ 32 = a := by
  simp [addresses]

theorem storeBytes_of_notMem (h : a ∉ addresses dst bytes.length)
    : storeBytes mem dst bytes a = mem a := by
  rw [mem_addresses] at h
  induction bytes generalizing mem dst with
  | nil => rfl
  | cons b bs ih =>
    have hne : a ≠ dst % 2 ^ 32 := by
      rintro rfl
      exact h ⟨0, Nat.succ_pos _, rfl⟩
    rw [storeBytes, ih, Function.update_of_ne hne]
    rintro ⟨i, hi, rfl⟩
    exact h ⟨i + 1, Nat.succ_lt_succ hi, by rw [Nat.add_right_comm, Nat.add_assoc]⟩

theorem Stored.refl (R : Nat → Prop) (s : State) : Stored R s s :=
    ⟨fun _ h => .inl h, fun _ _ => rfl⟩

theorem Stored.quiet (h : Stored R s0 s) (h' : Quiet s s1) : Stored R s0 s1 :=
  ⟨by rw [h'.stores]; exact h.stores, by rw [h'.mem]; exact h.mem⟩

theorem stored_store (h : Stored R s0 s)
    (hR : ∀ i < bytes.length, R ((dst + i) % 2 ^ 32)) : Stays (store dst bytes)
      s (Stored R s0) := by
  have hmem : ∀ a ∈ addresses dst bytes.length, R a := by
    intro a ha
    obtain ⟨i, hi, rfl⟩ := mem_addresses.1 ha
    exact hR i hi
  refine ⟨fun a ha => ?_, fun a ha => ?_⟩
  · rcases List.mem_append.1 ha with ha | ha
    · exact h.stores a ha
    · exact .inr (hmem a ha)
  · exact (storeBytes_of_notMem fun hin => ha (hmem a hin)).trans (h.mem a ha)

theorem Loaded.refl (R : Nat → Prop) (s : State) : Loaded R s s := ⟨fun _ h => .inl h, rfl, rfl⟩

theorem Loaded.quiet (h : Loaded R s0 s) (h' : Quiet s s1) : Loaded R s0 s1 :=
  ⟨by rw [h'.loads]; exact h.loads, h'.stores.trans h.stores, h'.mem.trans h.mem⟩

theorem loaded_load (h : Loaded R s0 s) (hR : ∀ i < n, R ((dst + i) % 2 ^ 32)) :
    Stays (load dst n) s (Loaded R s0) := by
  refine ⟨fun a ha => ?_, h.stores, h.mem⟩
  rcases List.mem_append.1 ha with ha | ha
  · exact h.loads a ha
  · obtain ⟨i, hi, rfl⟩ := mem_addresses.1 ha
    exact .inr (hR i hi)

end

/-! ## The loops -/

section
variable {s s0 : State} {R : Nat → Prop} {ip dst off n : Nat}

theorem stored_bmap (h : Stored R s0 s) : Stays (bmap ip bn) s (Stored R s0) :=
  (quiet_bmap (Quiet.refl s)).mono (fun _ _ hq => h.quiet hq) fun _ _ hq => h.quiet hq

theorem loaded_bmap (h : Loaded R s0 s) : Stays (bmap ip bn) s (Loaded R s0) :=
  (quiet_bmap (Quiet.refl s)).mono (fun _ _ hq => h.quiet hq) fun _ _ hq => h.quiet hq

theorem stored_readLoop (hR : ∀ i < n, R ((dst + i) % 2 ^ 32))
    (h : Stored R s0 s) : Stays (readLoop ip dst off n fuel tot) s (Stored R s0) := by
  induction fuel generalizing s tot with
  | zero => exact h
  | succ fuel ih =>
    unfold readLoop
    split
    swap
    · exact h
    next htot =>
    refine (stored_bmap h).bind fun b s1 h₁ => ?_
    dsimp only
    rw [stays_get_bind]
    refine (stored_store h₁ fun i hi => ?_).bind fun _ s2 h₂ => ih h₂
    rw [Bytes.length_read] at hi
    rw [Nat.add_assoc]
    exact hR (tot + i) (by omega)

theorem loaded_writeLoop (hR : ∀ i < n, R ((src + i) % 2 ^ 32))
    (h : Loaded R s0 s) : Stays (writeLoop ip src off n fuel tot) s (Loaded R s0) := by
  induction fuel generalizing s tot with
  | zero => exact h
  | succ fuel ih =>
    unfold writeLoop
    split
    swap
    · exact h
    next htot =>
    refine (loaded_bmap h).bind fun b s1 h₁ => ?_
    refine (loaded_load h₁ fun i hi => ?_).bind fun data s2 h₂ => ?_
    · rw [Nat.add_assoc]
      exact hR (tot + i) (by omega)
    · rw [stays_get_bind]
      refine Stays.bind ?_ fun _ s3 h₃ => ih h₃
      exact ⟨h₂.loads, h₂.stores, h₂.mem⟩

theorem stored_consoleLoop (hR : ∀ i < n, R ((dst + i) % 2 ^ 32))
    (h : Stored R s0 s) : Stays (consoleLoop input n i dst) s (Stored R s0) := by
  induction n generalizing s i dst with
  | zero => exact h
  | succ n ih =>
    unfold consoleLoop
    split
    · exact h
    split
    · exact h
    refine (stored_store h fun j hj => ?_).bind fun _ s1 h₁ => ?_
    · rw [List.length_singleton, Nat.lt_one_iff] at hj
      exact hR j (by omega)
    split
    · exact h₁
    · refine ih (fun j hj => ?_) h₁
      rw [Nat.add_assoc, Nat.add_comm 1 j]
      exact hR (j + 1) (by omega)

theorem leaves_consoleread {k : Int} (hR : ∀ i : Nat, i < k → R ((dst + i) % 2 ^ 32))
    (h : Stored R s0 s) : Leaves (consoleread input dst k) s
      (fun r s' => Stored R s0 s' ∧ r ≤ max k 0) fun _ => Stored R s0 := by
  unfold consoleread
  refine Leaves.bind (R := fun _ => Stored R s0)
    (stored_consoleLoop (fun i hi => hR i (by omega)) h) fun r s1 h₁ => ?_
  split
  · exact ⟨h₁, by omega⟩
  · exact ⟨h₁, by omega⟩

theorem leaves_pipereadLoop {k : Int} {fuel i : Nat}
    (hR : ∀ i : Nat, i < k → R ((dst + i) % 2 ^ 32)) (hi : (i : Int) ≤ max k 0)
    (h : Stored R s0 s) : Leaves (pipereadLoop dst k fuel i p) s
      (fun r s' => Stored R s0 s' ∧ (r : Int) ≤ max k 0) fun _ => Stored R s0 := by
  induction fuel generalizing s i p with
  | zero => exact ⟨h, hi⟩
  | succ fuel ih =>
    unfold pipereadLoop
    split
    swap
    · exact ⟨h, hi⟩
    next hlt =>
    refine Leaves.bind (R := fun _ => Stored R s0) (stored_store h fun j hj => ?_)
      fun _ s1 h₁ => ih (by omega) h₁
    rw [List.length_singleton, Nat.lt_one_iff] at hj
    rw [hj]
    exact hR i hlt.1

theorem loaded_pipewriteLoop (hR : ∀ j < i + fuel, R ((dst + j) % 2 ^ 32))
    (h : Loaded R s0 s) : Stays (pipewriteLoop w dst fuel i) s (Loaded R s0) := by
  induction fuel generalizing s i with
  | zero => exact h
  | succ fuel ih =>
    unfold pipewriteLoop
    split
    · exact h
    refine (loaded_load h fun j hj => ?_).bind fun _ s1 h₁ => ih (fun j hj => hR j (by omega)) h₁
    rw [Nat.lt_one_iff] at hj
    rw [hj]
    exact hR i (by omega)

end

/-! ## `readi` and `writei` -/

section
variable {s s0 : State} {R : Nat → Prop} {ip dst off m : Nat} {input : Input}

theorem quiet_lock (s : State) (ip : Nat) : Quiet s (s.lock ip) := by
  unfold State.lock
  split
  · exact .refl s
  · exact ⟨rfl, rfl, rfl⟩

theorem int_of_lt (h : m < 2 ^ 31) : int m = m := if_pos h

theorem int_neg (h : 2 ^ 31 ≤ m) (h' : m < 2 ^ 32) : int m < 0 := by
  rw [int, if_neg (by omega)]
  omega

/-- A read with a length below `2 ^ 31` stays in its buffer. -/
theorem leaves_readi (hm : m < 2 ^ 31) (hR : ∀ i < m, R ((dst + i) % 2 ^ 32)) (h : Stored R s0 s) :
    Leaves (readi input ip dst off m) s (fun r s' => Stored R s0 s' ∧ r ≤ m)
      fun _ => Stored R s0 := by
  unfold readi
  rw [leaves_get_bind]
  dsimp only
  split
  · split
    · rw [int_of_lt hm]
      refine (leaves_consoleread (fun i hi => hR i (by omega)) h).mono
        (fun r s' h => ?_) fun _ _ => id
      exact ⟨h.1, by have := h.2; omega⟩
    · exact ⟨h, by omega⟩
  split
  · exact ⟨h, by omega⟩
  next hoff =>
  have hle :
    (if (off + m) % 2 ^ 32 > (s.inode ip).size then (s.inode ip).size - off else m) ≤ m := by
    split
    · omega
    · exact le_rfl
  refine Leaves.bind (R := fun _ => Stored R s0)
    (stored_readLoop (fun i hi => hR i (by omega)) h) fun _ s1 h₁ => ⟨h₁, ?_⟩
  rw [int_of_lt (by omega)]
  omega

theorem leaves_readi_negative (hm : 2 ^ 31 ≤ m) (hm' : m < 2 ^ 32) (hno : ¬ s.Exceeds ip off m)
    (h : Stored R s0 s) : Leaves (readi input ip dst off m) s (fun r s' => Stored R s0 s' ∧ r ≤ 0)
      fun _ => Stored R s0 := by
  unfold readi
  rw [leaves_get_bind]
  dsimp only
  split
  · have hneg := int_neg hm hm'
    split
    · refine (leaves_consoleread (fun i hi => by omega) h).mono (fun r s' h => ?_) fun _ _ => id
      exact ⟨h.1, by have := h.2; omega⟩
    · exact ⟨h, by omega⟩
  next htype =>
  split
  · exact ⟨h, by omega⟩
  next hoff =>
  have hwrap : off + m < 2 ^ 32 := by omega
  rcases Nat.lt_or_ge off (s.inode ip).size with hlt | hge
  · -- there are bytes to copy, but no block for the first of them
    generalize hn : (if (off + m) % 2 ^ 32 > (s.inode ip).size then (s.inode ip).size - off
      else m) = n
    obtain ⟨k, rfl⟩ : ∃ k, n = k + 1 := by
      refine Nat.exists_eq_add_one.2 ?_
      rw [← hn]
      split <;> omega
    have hpanic : Leaves (bmap ip (off / BSIZE)) s (fun _ _ => False) fun _ => Stored R s0 := by
      have hq : Stays (bmap ip (off / BSIZE)) s (Quiet s) := quiet_bmap (Quiet.refl s)
      unfold Stays Leaves at hq
      unfold Leaves
      cases hb : bmap ip (off / BSIZE) s with
      | ok b s' => exact hno ⟨htype, hlt, hwrap, b, s', hb⟩
      | error e s' =>
        rw [hb] at hq
        exact h.quiet hq
    unfold readLoop
    rw [if_pos (Nat.succ_pos k), Nat.add_zero, leaves_bind, leaves_bind]
    exact hpanic.mono (fun _ _ => False.elim) fun _ _ => id
  · have hzero : (if (off + m) % 2 ^ 32 > (s.inode ip).size then (s.inode ip).size - off
        else m) = 0 := by
      rw [if_pos (by omega)]
      omega
    rw [hzero]
    exact ⟨h, le_rfl⟩

theorem grows_readLoop (h : a ∈ s.stores) :
    Stays (readLoop ip dst off n fuel tot) s fun s' => a ∈ s'.stores := by
  induction fuel generalizing s tot with
  | zero => exact h
  | succ fuel ih =>
    unfold readLoop
    split
    swap
    · exact h
    have hb : Stays (bmap ip ((off + tot) / BSIZE)) s fun s' => a ∈ s'.stores :=
      (quiet_bmap (Quiet.refl s)).mono (fun _ _ hq => by rw [hq.stores]; exact h)
        fun _ _ hq => by rw [hq.stores]; exact h
    refine hb.bind fun b s1 h₁ => ?_
    dsimp only
    rw [stays_get_bind]
    refine Stays.bind ?_ fun _ s2 h₂ => ih h₂
    exact List.mem_append_left _ h₁

/-- A read that exceeds its buffer copies a byte to its start. -/
theorem exceeds_readi (hm : 2 ^ 31 ≤ m) (hex : s.Exceeds ip off m) :
    Stays (readi input ip dst off m) s fun s' => dst % 2 ^ 32 ∈ s'.stores := by
  obtain ⟨htype, hlt, hwrap, b, s', hb⟩ := hex
  unfold readi
  rw [stays_get_bind]
  dsimp only
  rw [if_neg htype, if_neg (by omega)]
  generalize hn : (if (off + m) % 2 ^ 32 > (s.inode ip).size then (s.inode ip).size - off
    else m) = n
  obtain ⟨k, rfl⟩ : ∃ k, n = k + 1 := by
    refine Nat.exists_eq_add_one.2 ?_
    rw [← hn]
    split <;> omega
  refine Stays.bind ?_ fun _ _ h => h
  unfold readLoop
  rw [if_pos (Nat.succ_pos k), Nat.add_zero]
  refine leaves_bind.2 ?_
  unfold Leaves
  rw [hb]
  change Stays _ s' _
  rw [stays_get_bind]
  refine Stays.bind ?_ fun _ s2 h₂ => grows_readLoop h₂
  refine List.mem_append_right s'.stores (mem_addresses.2 ⟨0, ?_, rfl⟩)
  rw [Bytes.length_read]
  have := Nat.mod_lt off (show 0 < BSIZE by decide)
  omega

theorem loaded_writei (hm : m < 2 ^ 31) (hR : ∀ i < m, R ((dst + i) % 2 ^ 32))
    (h : Loaded R s0 s) : Leaves (writei ip dst off m) s (fun r s' => Loaded R s0 s' ∧ r ≤ m)
      fun _ => Loaded R s0 := by
  unfold writei
  rw [leaves_get_bind]
  dsimp only
  split
  · split
    · rw [int_of_lt hm]
      unfold consolewrite
      refine Leaves.bind (R := fun _ => Loaded R s0)
        (loaded_load h fun i hi => hR i (by omega)) fun _ s1 h₁ => ⟨h₁, le_rfl⟩
    · exact ⟨h, by omega⟩
  split
  · exact ⟨h, by omega⟩
  split
  · exact ⟨h, by omega⟩
  refine Leaves.bind (R := fun _ => Loaded R s0) (loaded_writeLoop hR h) fun _ s1 h₁ => ?_
  have hret : int m ≤ m := by rw [int_of_lt hm]
  split
  · exact ⟨⟨h₁.loads, h₁.stores, h₁.mem⟩, hret⟩
  · exact ⟨h₁, hret⟩

end

/-! ## `fileread` and `filewrite` -/

section
variable {s s0 : State} {R : Nat → Prop} {p : Nat} {n : Int} {f : File} {w : Waits}

/-- A read with a length that is not negative. -/
theorem leaves_fileread (hn : 0 ≤ n) (hn' : n < 2 ^ 31)
    (hR : ∀ i : Nat, i < n → R ((p + i) % 2 ^ 32)) (h : Stored R s0 s) :
    Leaves (fileread w f p n) s (fun r s' => Stored R s0 s' ∧ r.1 ≤ n) fun _ => Stored R s0 := by
  unfold fileread
  split
  swap
  · exact ⟨h, by omega⟩
  split
  · refine Leaves.bind (R := fun r s' => Stored R s0 s' ∧ r ≤ n) ?_ fun r s1 h₁ => h₁
    unfold piperead
    split
    · exact ⟨h, by omega⟩
    · refine (leaves_pipereadLoop hR (by omega) h).bind fun r s1 h₁ => ⟨h₁.1, ?_⟩
      have := h₁.2
      omega
  · refine Leaves.bind (R := fun _ => Stored R s0)
      (leaves_ilock (fun _ => h.quiet (quiet_lock s f.ip))
        fun _ => ⟨h, h.quiet (quiet_lock s f.ip)⟩)
      fun _ s1 h₁ => ?_
    refine Leaves.bind (leaves_readi (by omega) (fun i hi => hR i (by omega)) h₁)
      fun r s2 h₂ => ⟨h₂.1, ?_⟩
    have := h₂.2
    omega
  · exact h

/-- A read with a negative length that does not exceed its buffer copies nothing. -/
theorem leaves_fileread_negative (hn : n < 0) (hn' : -2 ^ 31 ≤ n)
    (hno : f.readable = true → f.type = .inode → s.CanLock f.ip →
      ¬ (s.lock f.ip).Exceeds f.ip f.off (n % 2 ^ 32).toNat) (h : Stored R s0 s) :
    Leaves (fileread w f p n) s (fun r s' => Stored R s0 s' ∧ r.1 ≤ 0) fun _ => Stored R s0 := by
  unfold fileread
  split
  swap
  · exact ⟨h, by omega⟩
  next hread =>
  split
  · refine Leaves.bind (R := fun r s' => Stored R s0 s' ∧ r ≤ 0) ?_ fun r s1 h₁ => h₁
    unfold piperead
    split
    · exact ⟨h, by omega⟩
    · refine (leaves_pipereadLoop (k := n) (fun i hi => by omega) (by omega) h).bind
        fun r s1 h₁ => ⟨h₁.1, ?_⟩
      have := h₁.2
      omega
  · next htype =>
    rw [leaves_bind]
    refine leaves_ilock (fun hlock => ?_) fun _ => ⟨h, h.quiet (quiet_lock s f.ip)⟩
    exact Leaves.bind (leaves_readi_negative (by omega) (by omega) (hno hread htype hlock)
      (h.quiet (quiet_lock s f.ip))) fun r s2 h₂ => h₂
  · exact h

/-- A read with a negative length that exceeds its buffer copies a byte to its start. -/
theorem exceeds_fileread (hn : n < 0) (hn' : -2 ^ 31 ≤ n) (hread : f.readable = true)
    (htype : f.type = .inode) (hlock : s.CanLock f.ip)
    (hex : (s.lock f.ip).Exceeds f.ip f.off (n % 2 ^ 32).toNat) :
    Stays (fileread w f p n) s fun s' => p % 2 ^ 32 ∈ s'.stores := by
  unfold fileread
  rw [if_pos hread, htype]
  refine leaves_bind.2 (leaves_ilock (fun _ => ?_) fun h => absurd hlock h)
  exact Stays.bind (exceeds_readi (by omega) hex) fun _ _ h => h

theorem loaded_filewriteLoop (hn : n < 2 ^ 31)
    (hR : ∀ j : Nat, j < n → R ((p + j) % 2 ^ 32)) (h : Loaded R s0 s) :
    Stays (filewriteLoop ip p n fuel i off) s (Loaded R s0) := by
  induction fuel generalizing s i off with
  | zero => exact h
  | succ fuel ih =>
    unfold filewriteLoop
    split
    swap
    · exact h
    next hi =>
    refine Stays.bind (P := Loaded R s0) ⟨h.loads, h.stores, h.mem⟩ fun _ s1 h₁ => ?_
    refine Stays.bind (P := Loaded R s0)
      (leaves_ilock (fun _ => h₁.quiet (quiet_lock s1 ip))
        fun _ => ⟨h₁, h₁.quiet (quiet_lock s1 ip)⟩)
      fun _ s2 h₂ => ?_
    have hwrite : Stays (writei ip (p + i) off (min (n - i).toNat filewriteMax)) s2
        (Loaded R s0) := by
      refine (loaded_writei (by omega) (fun j hj => ?_) h₂).mono (fun _ _ h => h.1) fun _ _ => id
      rw [Nat.add_assoc]
      exact hR (i + j) (by omega)
    refine hwrite.bind fun r s3 h₃ => ?_
    dsimp only
    split
    · exact h₃
    split
    · exact h₃
    · exact ih h₃

theorem leaves_filewrite (hn : n < 2 ^ 31) (hR : ∀ i : Nat, i < n → R ((p + i) % 2 ^ 32))
    (h : Loaded R s0 s) : Leaves (filewrite w f p n) s
      (fun r s' => Loaded R s0 s' ∧ r.1 ≤ max n 0) fun _ => Loaded R s0 := by
  unfold filewrite
  split
  swap
  · exact ⟨h, by omega⟩
  split
  · refine Leaves.bind (R := fun r s' => Loaded R s0 s' ∧ r ≤ max n 0) ?_ fun r s1 h₁ => h₁
    unfold pipewrite
    refine Leaves.bind (R := fun _ => Loaded R s0)
      (loaded_pipewriteLoop (fun j hj => hR j (by omega)) h) fun b s1 h₁ => ?_
    split
    · exact ⟨h₁, by omega⟩
    · exact ⟨h₁, by omega⟩
  · refine Leaves.bind (R := fun _ => Loaded R s0) (loaded_filewriteLoop hn hR h)
      fun r s1 h₁ => ⟨h₁, ?_⟩
    dsimp only
    split <;> omega
  · exact h

end

/-! ## The calls -/

section
variable {c : Caller} {mem : Nat → UInt8} {s : State} {fd : Nat × File} {p : Nat} {n : Int}

theorem int_bounds (l : List UInt8) (hl : l.length = 4) :
    -2 ^ 31 ≤ int (Bytes.leNat l) ∧ int (Bytes.leNat l) < 2 ^ 31 := by
  have := Bytes.leNat_lt l
  rw [hl] at this
  unfold int
  split <;> omega

/-- What the tests of the calls come to. -/
theorem args_eq_some (h : c.args mem = some (fd, p, n)) : c.buffer mem = some (p, n) ∧ p < c.sz ∧
    (p + n) % 2 ^ 32 ≤ c.sz ∧ -2 ^ 31 ≤ n ∧ n < 2 ^ 31 := by
  unfold Caller.args at h
  obtain ⟨f, hf, h⟩ := Option.bind_eq_some_iff.1 h
  obtain ⟨k, hk, h⟩ := Option.bind_eq_some_iff.1 h
  obtain ⟨q, hq, h⟩ := Option.bind_eq_some_iff.1 h
  cases h
  unfold Caller.argptr at hq
  obtain ⟨i, hi, hq⟩ := Option.bind_eq_some_iff.1 hq
  split at hq
  · cases hq
  next htest =>
  cases hq
  have hbounds : -2 ^ 31 ≤ int k ∧ int k < 2 ^ 31 := by
    unfold Caller.argint Caller.fetchint at hk
    split at hk
    · cases hk
    · cases hk
      exact int_bounds _ (Bytes.length_read ..)
  refine ⟨?_, by omega, by omega, hbounds⟩
  simp only [Caller.buffer, hi, hk]
  rfl

/-- In a process below the kernel, a buffer that passes the tests is in the process. -/
theorem args_inside (hsz : c.sz < KERNBASE) (h : c.args mem = some (fd, p, n)) :
    p + max n 0 ≤ c.sz := by
  obtain ⟨-, hp, hwrap, hlo, hhi⟩ := args_eq_some h
  simp only [KERNBASE] at hsz
  omega

theorem inBuffer_of_args (hsz : c.sz < KERNBASE) (h : c.args mem = some (fd, p, n)) {i : Nat}
    (hi : i < n) : c.InBuffer mem ((p + i) % 2 ^ 32) := by
  have hin := args_inside hsz h
  simp only [KERNBASE] at hsz
  refine ⟨p, n, (args_eq_some h).1, ?_, ?_⟩
  · rw [Nat.mod_eq_of_lt (by omega)]
    omega
  · rw [Nat.mod_eq_of_lt (by omega)]
    omega

theorem most_of_args (h : c.args mem = some (fd, p, n)) : c.most mem = max n 0 := by
  rw [Caller.most, (args_eq_some h).1]
  rfl

theorem most_nonneg (c : Caller) (mem : Nat → UInt8) : 0 ≤ c.most mem := by
  unfold Caller.most
  cases c.buffer mem with
  | none => exact le_rfl
  | some b => exact le_max_right _ _

/-- A call that stores in its buffer only. -/
theorem storesConfined (hsz : c.sz < KERNBASE) (hR : ∀ a, R a → c.InBuffer s.mem a)
    (h : Stored R s.unrecorded s') : c.StoresConfined s s' := by
  refine ⟨⟨fun a ha => ?_, args_inside hsz⟩, fun a ha => h.mem a fun hr => ha (hR a hr)⟩
  rcases h.stores a ha with ha | ha
  · cases ha
  · exact hR a ha

theorem loadsConfined (hsz : c.sz < KERNBASE) (hR : ∀ a, R a → c.InBuffer s.mem a)
    (h : Loaded R s.unrecorded s') : c.LoadsConfined s s' := by
  refine ⟨⟨fun a ha => ?_, args_inside hsz⟩, h.mem⟩
  rcases h.loads a ha with ha | ha
  · cases ha
  · exact hR a ha

theorem sys_write_confined (hsz : c.sz < KERNBASE) (w : Waits) (s : State) :
    Leaves (c.sys_write w) s (fun r s' => c.LoadsConfined s s' ∧ r.1 ≤ c.most s.mem)
      fun _ => c.LoadsConfined s := by
  unfold Caller.sys_write
  rw [leaves_modify_bind, leaves_get_bind]
  cases hargs : c.args s.unrecorded.mem with
  | none =>
    refine ⟨loadsConfined hsz (fun _ => False.elim) (.refl _ _), ?_⟩
    have := most_nonneg c s.mem
    show (-1 : Int) ≤ _
    omega
  | some x =>
    obtain ⟨⟨fd, f⟩, p, n⟩ := x
    have hargs : c.args s.mem = some ((fd, f), p, n) := hargs
    have hload := leaves_filewrite (w := w) (f := f) (R := c.InBuffer s.mem)
      (args_eq_some hargs).2.2.2.2 (fun i hi => inBuffer_of_args hsz hargs hi)
      (Loaded.refl _ s.unrecorded)
    refine leaves_bind.2 (hload.mono (fun r s' h => ?_) fun _ s' h => ?_)
    · rw [leaves_pure, most_of_args hargs]
      exact ⟨loadsConfined hsz (fun _ => id) h.1, h.2⟩
    · exact loadsConfined hsz (fun _ => id) h

/-- Without an overrun, `sys_read` stays in its buffer. -/
theorem sys_read_confined (hsz : c.sz < KERNBASE) (w : Waits) (hno : ¬ c.Overruns s) :
    Leaves (c.sys_read w) s (fun r s' => c.StoresConfined s s' ∧ r.1 ≤ c.most s.mem)
      fun _ => c.StoresConfined s := by
  unfold Caller.sys_read
  rw [leaves_modify_bind, leaves_get_bind]
  cases hargs : c.args s.unrecorded.mem with
  | none =>
    refine ⟨storesConfined hsz (fun _ => False.elim) (.refl _ _), ?_⟩
    have := most_nonneg c s.mem
    show (-1 : Int) ≤ _
    omega
  | some x =>
    obtain ⟨⟨fd, f⟩, p, n⟩ := x
    have hargs : c.args s.mem = some ((fd, f), p, n) := hargs
    obtain ⟨-, -, -, hlo, hhi⟩ := args_eq_some hargs
    have hstore : Leaves (fileread w f p n) s.unrecorded
        (fun r s' => Stored (c.InBuffer s.mem) s.unrecorded s' ∧ r.1 ≤ max n 0)
        fun _ => Stored (c.InBuffer s.mem) s.unrecorded := by
      rcases Int.lt_or_le n 0 with hneg | hpos
      · have hread := leaves_fileread_negative (s := s.unrecorded) (w := w) (f := f)
          (p := p) hneg hlo
          (fun h1 h2 h3 h4 => hno ⟨fd, f, p, n, hargs, hneg, h1, h2, h3, h4⟩)
          (Stored.refl (c.InBuffer s.mem) s.unrecorded)
        exact hread.mono (fun r s' h => ⟨h.1, h.2.trans (le_max_right _ _)⟩) fun _ _ => id
      · have hread := leaves_fileread (w := w) (f := f) hpos hhi
          (fun i hi => inBuffer_of_args hsz hargs hi) (Stored.refl _ s.unrecorded)
        exact hread.mono (fun r s' h => ⟨h.1, h.2.trans (le_max_left _ _)⟩) fun _ _ => id
    refine leaves_bind.2 (hstore.mono (fun r s' h => ?_) fun _ s' h => ?_)
    · rw [leaves_pure, most_of_args hargs]
      exact ⟨storesConfined hsz (fun _ => id) h.1, h.2⟩
    · exact storesConfined hsz (fun _ => id) h

/-- With an overrun, it does not. -/
theorem sys_read_overruns (w : Waits) (hov : c.Overruns s) :
    Stays (c.sys_read w) s fun s' => ¬ c.StoresConfined s s' := by
  obtain ⟨fd, f, p, n, hargs, hneg, hread, htype, hlock, hex⟩ := hov
  obtain ⟨hbuf, -, -, hlo, -⟩ := args_eq_some hargs
  have hempty (a : Nat) (ha : c.InBuffer s.mem a) : False := by
    obtain ⟨q, k, hq, h1, h2⟩ := ha
    cases hbuf.symm.trans hq
    omega
  have hargs' : c.args s.unrecorded.mem = some ((fd, f), p, n) := hargs
  unfold Caller.sys_read
  rw [stays_modify_bind, stays_get_bind, hargs']
  have hin := exceeds_fileread (w := w) (p := p) (s := s.unrecorded) hneg hlo hread htype hlock hex
  refine leaves_bind.2 (hin.mono (fun r s' h => ?_) fun _ s' h => ?_)
  · exact fun hc => hempty _ (hc.1.within _ h)
  · exact fun hc => hempty _ (hc.1.within _ h)

/-- `sys_read` copies to its buffer only, and the buffer is in the process, unless it overruns it;
`sys_write` always copies from its buffer only. Neither returns more than the length of the
buffer. -/
theorem buffers_confined (hsz : c.sz < KERNBASE) (w : Waits) (s : State) :
    (Leaves (c.sys_read w) s (fun r s' => c.StoresConfined s s' ∧ r.1 ≤ c.most s.mem)
        (fun _ => c.StoresConfined s) ↔ ¬ c.Overruns s) ∧
      Leaves (c.sys_write w) s (fun r s' => c.LoadsConfined s s' ∧ r.1 ≤ c.most s.mem)
        fun _ => c.LoadsConfined s := by
  refine ⟨⟨fun h hov => ?_, fun hno => sys_read_confined hsz w hno⟩, sys_write_confined hsz w s⟩
  exact h.absurd (sys_read_overruns w hov) (fun _ _ h => not_not.2 h.1) fun _ _ h => not_not.2 h

end

/-! ## Two reads -/

namespace Reader

/-- A file of three bytes, open for reading as descriptor 0. -/
def caller : Caller where
  sz := 4096
  esp := 100
  ofile fd := if fd = 0 then
      some { type := .inode, readable := true, writable := false, ip := 1, off := 0 }
    else none

/-- The call `read(0, 200, n)`. -/
def state (n : Nat) : State where
  sb := { size := 1000, nblocks := 900, ninodes := 200, inodestart := 32, bmapstart := 58 }
  block b _ := if b = 500 then 65 else 0
  inode _ := { Inode.blank .file with size := 3, addrs := fun i => if i = 0 then 500 else 0 }
  ref _ := 1
  valid _ := true
  ops := []
  mem := Bytes.write (Bytes.write (fun _ => 0) 108 (Bytes.leBytes 4 200)) 112 (Bytes.leBytes 4 n)
  loads := []
  stores := []

/-- No call waits. -/
def waits : Waits := { input := fun _ => none, drained := none, gives_up := fun _ => false }

end Reader

/-- `read(0, 200, 2)` stays in its buffer. -/
theorem buffers_confined_two : Reader.caller.sz < KERNBASE ∧
    Leaves (Reader.caller.sys_read Reader.waits) (Reader.state 2)
      (fun r s' => Reader.caller.StoresConfined (Reader.state 2) s' ∧
        r.1 ≤ Reader.caller.most (Reader.state 2).mem)
      fun _ => Reader.caller.StoresConfined (Reader.state 2) := by
  have hsz : Reader.caller.sz < KERNBASE := by decide
  have hargs :
    ((Reader.caller.args (Reader.state 2).mem).all fun a => decide (0 ≤ a.2.2)) = true := by
    decide +kernel
  refine ⟨hsz, (buffers_confined hsz Reader.waits (Reader.state 2)).1.2 ?_⟩
  rintro ⟨fd, f, p, n, ha, hn, -⟩
  rw [ha] at hargs
  exact absurd hn (not_lt.2 (of_decide_eq_true hargs))

/-- `read(0, 200, -1)` copies the three bytes of the file and returns 3. -/
theorem read_negative_overruns : ∃ c s',
    Reader.caller.sys_read Reader.waits (Reader.state (2 ^ 32 - 1)) = .ok (3, c) s' ∧
    Reader.caller.buffer (Reader.state (2 ^ 32 - 1)).mem = some (200, -1) ∧
    s'.stores = [200, 201, 202] ∧
    ¬ Reader.caller.StoresConfined (Reader.state (2 ^ 32 - 1)) s' := by
  have hrun : (match Reader.caller.sys_read Reader.waits (Reader.state (2 ^ 32 - 1)) with
      | .ok (r, _) s' => decide (r = 3 ∧ s'.stores = [200, 201, 202])
      | .error _ _ => false) = true := by decide +kernel
  have hbuf : Reader.caller.buffer (Reader.state (2 ^ 32 - 1)).mem = some (200, -1) := by
    decide +kernel
  split at hrun
  swap
  · cases hrun
  next r c s' heq =>
  obtain ⟨rfl, hst⟩ := of_decide_eq_true hrun
  refine ⟨c, s', heq, hbuf, hst, fun hc => ?_⟩
  obtain ⟨p, n, hpn, h1, h2⟩ := hc.1.within 200 (by rw [hst]; exact .head _)
  cases hbuf.symm.trans hpn
  omega

end Msboss.Fs
