import Msboss.Param
import Msboss.Fss.Protocol

/-!
# The request record in memory

What the stubs of `fss.h` store in the shared request record, byte by byte in the client's memory,
and what the server's loop makes of the record: which branch it takes, and the system call that it
makes there. One call at a time; who waits for whom is in `Protocol`, whose `Request` is the record
as `request` reads it.

Paths and data go into the record by `strcpy`, which ends at a zero byte. So the bytes of a buffer
that has one are those of an earlier request from there on (`write_carries_iff`). The data that the
server reads from a file goes into the request record, and `fss_read` does not fetch it from there
(`read_delivers_iff`).
-/

namespace Msboss.Fss

open List

/-! ## Memory -/

/-- The address space of a process. -/
structure Mem where
  byte : Nat → UInt8
  mapped : Nat → Bool

namespace Mem

/-- `*a = c`. -/
def set (m : Mem) (a : Nat) (c : UInt8) : Mem := { m with byte := Function.update m.byte a c }

/-- Stores bytes from the address `a` on. -/
def put (m : Mem) (a : Nat) : List UInt8 → Mem
  | [] => m
  | c :: cs => (m.set a c).put (a + 1) cs

/-- The `n` bytes from the address `a` on. -/
def bytes (m : Mem) (a n : Nat) : List UInt8 := (range n).map fun i => m.byte (a + i)

/-- The loop of `strcpy(s, t)`; a byte that is not mapped is a trap. -/
def strcpyLoop : Nat → Mem → Nat → Nat → Option Mem
  | 0, _, _, _ => none
  | k + 1, m, s, t =>
    if m.mapped t ∧ m.mapped s then
      if m.byte t = 0 then some (m.set s (m.byte t))
      else strcpyLoop k (m.set s (m.byte t)) (s + 1) (t + 1)
    else none

/-- `strcpy(s, t)`. The loop cannot go on beyond the user's addresses. -/
def strcpy (m : Mem) (s t : Nat) : Option Mem := strcpyLoop KERNBASE m s t

/-- The length of the string at `a`, for a loop that reads it to its zero byte. -/
def strlenLoop : Nat → Mem → Nat → Option Nat
  | 0, _, _ => none
  | k + 1, m, a =>
    if m.mapped a then
      if m.byte a = 0 then some 0 else (strlenLoop k m (a + 1)).map (· + 1)
    else none

/-- The length of the string at `a`; a byte that is not mapped is a trap. -/
def strlen (m : Mem) (a : Nat) : Option Nat := strlenLoop KERNBASE m a

/-- `strcmp(p, q)` with a literal `q` and its zero byte. -/
def strcmp (m : Mem) (p : Nat) : List UInt8 → Int
  | [] => 0
  | q :: qs =>
    if m.byte p ≠ 0 ∧ m.byte p = q then m.strcmp (p + 1) qs
    else (m.byte p).toNat - q.toNat

end Mem

/-- A literal with its zero byte. -/
def literal (s : String) : List UInt8 := s.toList.map (fun c => UInt8.ofNat c.toNat) ++ [0]

/-- The bytes of an `int`. -/
def int32 (n : Int) : List UInt8 :=
  let w := (n % 2 ^ 32).toNat
  [UInt8.ofNat w, UInt8.ofNat (w / 2 ^ 8), UInt8.ofNat (w / 2 ^ 16), UInt8.ofNat (w / 2 ^ 24)]

/-- The `int` at the address `a`. -/
def Mem.int (m : Mem) (a : Nat) : Int :=
  let w : Nat := (m.byte a).toNat + 2 ^ 8 * (m.byte (a + 1)).toNat +
    2 ^ 16 * (m.byte (a + 2)).toNat + 2 ^ 24 * (m.byte (a + 3)).toNat
  if w < 2 ^ 31 then w else w - 2 ^ 32

/-! ## The stubs -/

/-- The fields of `struct fss_request`: `operation[7]` is at 0. -/
def ARG : Nat := 8
def FD : Nat := 12
def DATA : Nat := 16

/-- The length of `data`. -/
def DATASIZE : Nat := 1024

/-- The string that a stub stores in `operation`. -/
def Op.name : Op → String
  | .write => "write"
  | .read => "read"
  | .open => "open"
  | .close => "close"
  | .mkdir => "mkdir"
  | .unlink => "unlink"
  | .restore => "restore"

namespace Mem

/-- Stores an `int`, if there is one. -/
def putInt (m : Mem) (a : Nat) (v : Option Int) : Mem := v.elim m fun n => m.put a (int32 n)

/-- What a stub stores before `data` in the record at `req`: the operation, and `arg` and `fd` if it
has them. -/
def header (m : Mem) (req : Nat) (o : Op) (arg fd : Option Int) : Mem :=
  ((m.put req (literal o.name)).putInt (req + ARG) arg).putInt (req + FD) fd

/-- What a stub stores in the record at `req`. -/
def store (m : Mem) (req : Nat) (o : Op) (arg fd : Option Int) (data : Option Nat) : Option Mem :=
  data.elim (some (m.header req o arg fd)) fun ptr =>
    (m.header req o arg fd).strcpy (req + DATA) ptr

def fss_write (m : Mem) (req : Nat) (fd1 : Int) (ptr : Nat) (n : Int) : Option Mem :=
  m.store req .write (some n) (some fd1) (some ptr)

def fss_read (m : Mem) (req : Nat) (fd1 : Int) (ptr : Nat) (n : Int) : Option Mem :=
  m.store req .read (some n) (some fd1) (some ptr)

def fss_open (m : Mem) (req : Nat) (path : Nat) (fd1 : Int) : Option Mem :=
  m.store req .open none (some fd1) (some path)

def fss_close (m : Mem) (req : Nat) (fd1 : Int) : Option Mem :=
  m.store req .close none (some fd1) none

def fss_mkdir (m : Mem) (req : Nat) (path : Nat) : Option Mem :=
  m.store req .mkdir none none (some path)

def fss_unlink (m : Mem) (req : Nat) (path : Nat) : Option Mem :=
  m.store req .unlink none none (some path)

def fss_restore (m : Mem) (req : Nat) : Option Mem := m.store req .restore none none none

end Mem

/-! ## The server -/

/-- The operations in the order in which the server compares them. -/
def operations : List Op := [.write, .read, .open, .mkdir, .close, .unlink, .restore]

/-- A system call of the server; a path is where its string starts. -/
inductive Syscall
  | write (fd : Int) (data : List UInt8) (n : Int)
  | read (fd : Int) (n : Int)
  | open (path : List UInt8) (mode : Int)
  | close (fd : Int)
  | mkdir (path : List UInt8)
  | unlink (path : List UInt8)
  deriving DecidableEq, Repr

/-- The server's own memory, with the array `stored_path` at its address. The system call `open` in
`checkpoint` is given by what it finds: `opens a` says that the string at `a` is the path of a file.
The strings are apart from the arrays on the server's stack. -/
structure Server where
  mem : Mem
  stored_path : Nat
  opens : Nat → Bool

namespace Server

/-- The number of elements of `stored_path`. -/
def NPATH : Nat := 100

/-- `stored_path[fd]`, for whatever `fd` a request has. -/
def path (srv : Server) (fd : Int) : Option Nat :=
  let a := ((srv.stored_path + 4 * fd) % 2 ^ 32).toNat
  if (range 4).all fun i => srv.mem.mapped (a + i) then
    some (srv.mem.int a % 2 ^ 32).toNat
  else none

/-- `printf(1, "stored path = %s", stored_path[fd])` returns. A null pointer is printed as
`(null)`. -/
def prints (srv : Server) (fd : Int) : Bool :=
  (srv.path fd).any fun a => a = 0 ∨ (srv.mem.strlen a).isSome

/-- `checkpoint(fd, "/checkpoint/")` returns. Its array `path` has 1024 bytes for the twelve of
`dest` and the stored path. -/
def checkpoint (srv : Server) (fd : Int) : Bool :=
  (srv.path fd).any fun a =>
    !srv.opens a || (srv.mem.strlen a).any fun l => decide (12 + l < 1024)

end Server

namespace Mem

/-- The branch the server takes, if any. -/
def dispatch (m : Mem) (req : Nat) : Option Op :=
  operations.find? fun o => m.strcmp req (literal o.name) = 0

/-- The string in `data`, which ends with the field if there is no zero byte. -/
def dataString (m : Mem) (req : Nat) : List UInt8 :=
  (m.bytes (req + DATA) DATASIZE).takeWhile (· ≠ 0)

/-- The system call for the request, once the server has printed `stored_path[request->fd]`; it
leaves its loop on `restore` and on what it does not know. -/
def issued (m : Mem) (srv : Server) (req : Nat) : Option Syscall :=
  if srv.prints (m.int (req + FD)) then match m.dispatch req with
  | some .write => if srv.checkpoint (m.int (req + FD)) then some (.write (m.int (req + FD))
      (m.bytes (req + DATA) (m.int (req + ARG)).toNat) (m.int (req + ARG))) else none
  | some .read => some (.read (m.int (req + FD)) (m.int (req + ARG)))
  | some .open => some (.open (m.dataString req) (m.int (req + FD)))
  | some .mkdir => some (.mkdir (m.dataString req))
  | some .close => some (.close (m.int (req + FD)))
  | some .unlink => some (.unlink (m.dataString req))
  | some .restore | none => none
  else none

/-- The server's turn, as the client sees it in the shared records: a system call has a result,
which goes to `response->res`, and bytes that `read` stores in `request->data`. -/
def serve (m : Mem) (srv : Server) (req resp : Nat) (sys : Syscall → Int × List UInt8) :
    Option Mem :=
  (m.issued srv req).map fun c =>
    let (res, out) := sys c
    (m.put (req + DATA) out).put resp (int32 res)

/-- `fss_read(fd1, ptr, n)` with the server's turn, after which it returns `response->res`. -/
def readCall (m : Mem) (srv : Server) (req resp : Nat) (fd1 : Int) (ptr : Nat) (n : Int)
    (sys : Syscall → Int × List UInt8) : Option (Int × Mem) := do
  let m ← m.fss_read req fd1 ptr n
  let m ← m.serve srv req resp sys
  some (m.int resp, m)

end Mem

/-! ## What the stores do -/

namespace Mem

variable {m m' : Mem} {s t a b k n : Nat}

theorem set_byte (m : Mem) (a b : Nat) (c : UInt8) :
    (m.set a c).byte b = if b = a then c else m.byte b :=
  Function.update_apply ..

/-- `put` leaves what is before and behind. -/
theorem put_other (h : b < a ∨ a + cs.length ≤ b) : (m.put a cs).byte b = m.byte b := by
  induction cs generalizing m a with
  | nil => rfl
  | cons c cs ih =>
    rw [length_cons] at h
    rw [put, ih (by omega), set_byte, if_neg (by omega)]

theorem put_byte (h : i < cs.length) : (m.put a cs).byte (a + i) = cs[i] := by
  induction cs generalizing m a i with
  | nil => exact absurd h (Nat.not_lt_zero i)
  | cons c cs ih =>
    rw [put]
    cases i with
    | zero => rw [put_other (by omega), set_byte, if_pos (Nat.add_zero a)]; rfl
    | succ i =>
      rw [show a + (i + 1) = a + 1 + i by omega, ih (Nat.lt_of_succ_lt_succ h)]
      rfl

theorem bytes_add (m : Mem) (a k n : Nat) :
    m.bytes a (k + n) = m.bytes a k ++ m.bytes (a + k) n := by
  simp [bytes, range_add, Nat.add_assoc]

theorem bytes_congr (h : ∀ i < n, m'.byte (b + i) = m.byte (a + i)) : m'.bytes b n = m.bytes a n :=
  map_congr_left fun i hi => h i (mem_range.1 hi)

/-- An `int` is read back. -/
theorem int_put (hv : - 2 ^ 31 ≤ v ∧ v < 2 ^ 31) : (m.put a (int32 v)).int a = v := by
  have hbyte (i : Nat) (hi : i < 4) : (m.put a (int32 v)).byte (a + i) = (int32 v)[i] := put_byte hi
  have h0 : (m.put a (int32 v)).byte a = _ := hbyte 0 (by decide)
  unfold int
  rw [h0, hbyte 1 (by decide), hbyte 2 (by decide), hbyte 3 (by decide)]
  simp only [int32, getElem_cons_zero, getElem_cons_succ, UInt8.toNat_ofNat']
  split <;> omega

theorem int_congr (h : ∀ i < 4, m'.byte (a + i) = m.byte (a + i)) : m'.int a = m.int a := by
  unfold int
  rw [← Nat.add_zero a, h 0 (by decide), h 1 (by decide), h 2 (by decide), h 3 (by decide)]

/-! ## `strcpy` -/

/-- `strcpy` leaves what is before. -/
theorem strcpyLoop_below (h : strcpyLoop k m s t = some m') (hb : b < s) :
    m'.byte b = m.byte b := by
  induction k generalizing m s t with
  | zero => cases h
  | succ k ih =>
    simp only [strcpyLoop] at h
    split at h
    swap
    · cases h
    split at h
    · cases h
      rw [set_byte, if_neg hb.ne]
    · rw [ih h (hb.trans (Nat.lt_succ_self s)), set_byte, if_neg hb.ne]

/-- The first `n` bytes that `strcpy` copies: up to the zero byte those of the string, then the old
ones. The string may go on behind them. -/
theorem strcpyLoop_byte (h : strcpyLoop k m s t = some m')
    (hapart : ∀ i < n, ∀ j < n, t + i ≠ s + j) (hi : i < n) :
    m'.byte (s + i) = if ∃ j < i, m.byte (t + j) = 0 then m.byte (s + i) else m.byte (t + i) := by
  induction k generalizing m s t n i with
  | zero => cases h
  | succ k ih =>
    simp only [strcpyLoop] at h
    split at h
    swap
    · cases h
    split at h
    · next hz =>
      cases h
      rw [set_byte]
      cases i with
      | zero => simp
      | succ i =>
        rw [if_neg (by omega), if_pos ⟨0, Nat.succ_pos i, hz⟩]
    next hz =>
    cases i with
    | zero =>
      rw [strcpyLoop_below h (by omega), set_byte, if_pos (Nat.add_zero s), if_neg (by simp)]
      rfl
    | succ i =>
      obtain ⟨n, rfl⟩ := Nat.exists_eq_add_of_le' (show 1 ≤ n by omega)
      have hsrc {j : Nat} (hj : j < n) :
          (m.set s (m.byte t)).byte (t + 1 + j) = m.byte (t + (j + 1)) := by
        rw [set_byte, if_neg, Nat.add_assoc, Nat.add_comm 1 j]
        have := hapart (j + 1) (by omega) 0 (by omega)
        omega
      have hstep := ih h (n := n) (i := i) (fun i hi j hj => by
        have := hapart (i + 1) (by omega) (j + 1) (by omega)
        omega) (by omega)
      rw [hsrc (by omega), set_byte, if_neg (show s + 1 + i ≠ s by omega)] at hstep
      rw [show s + (i + 1) = s + 1 + i by omega, hstep]
      refine if_congr ?_ rfl rfl
      constructor
      · rintro ⟨j, hj, hc⟩
        rw [hsrc (by omega)] at hc
        exact ⟨j + 1, by omega, hc⟩
      · rintro ⟨j, hj, hc⟩
        cases j with
        | zero => exact absurd hc hz
        | succ j => exact ⟨j, by omega, by rw [hsrc (by omega)]; exact hc⟩

/-- The string at the address `a` has the length `n`. -/
structure IsString (m : Mem) (a n : Nat) : Prop where
  zero : m.byte (a + n) = 0
  ne_zero : ∀ i < n, m.byte (a + i) ≠ 0

/-- `strcpy` leaves what is behind the copy. -/
theorem strcpyLoop_above (h : strcpyLoop k m s t = some m') (hstr : m.IsString t n)
    (hapart : ∀ i ≤ n, ∀ j ≤ n, t + i ≠ s + j) (hb : s + n < b) : m'.byte b = m.byte b := by
  induction k generalizing m s t n with
  | zero => cases h
  | succ k ih =>
    simp only [strcpyLoop] at h
    split at h
    swap
    · cases h
    split at h
    · cases h
      rw [set_byte, if_neg (by omega)]
    next hz =>
    obtain ⟨n, rfl⟩ : ∃ l, n = l + 1 := by
      refine Nat.exists_eq_succ_of_ne_zero ?_
      rintro rfl
      exact hz hstr.zero
    have hsrc {j : Nat} (hj : j ≤ n) :
        (m.set s (m.byte t)).byte (t + 1 + j) = m.byte (t + (j + 1)) := by
      rw [set_byte, if_neg, Nat.add_assoc, Nat.add_comm 1 j]
      have := hapart (j + 1) (by omega) 0 (by omega)
      omega
    have hstr' : (m.set s (m.byte t)).IsString (t + 1) n :=
      ⟨by rw [hsrc le_rfl]; exact hstr.zero,
        fun i hi => by rw [hsrc hi.le]; exact hstr.ne_zero (i + 1) (by omega)⟩
    rw [ih h hstr' (fun i hi j hj => by
        have := hapart (i + 1) (by omega) (j + 1) (by omega)
        omega) (by omega), set_byte, if_neg (by omega)]

/-! ## The record after a stub -/

/-- `strcmp` on two strings in memory. -/
def cmp : List UInt8 → List UInt8 → Int
  | p :: ps, q :: qs => if p ≠ 0 ∧ p = q then cmp ps qs else p.toNat - q.toNat
  | _, _ => 0

/-- `strcmp` does not look behind the end of its first string. -/
theorem strcmp_eq_cmp (h0 : 0 ∈ ps)
    (h : ∀ i (hi : i < ps.length), m.byte (a + i) = ps[i]) : m.strcmp a qs = cmp ps qs := by
  induction qs generalizing a ps with
  | nil => cases ps <;> rfl
  | cons q qs ih =>
    cases ps with
    | nil => cases h0
    | cons p ps =>
      have hp : m.byte a = p := h 0 (Nat.succ_pos _)
      rw [strcmp, cmp, hp]
      split
      · next hc =>
        refine ih ((mem_cons.1 h0).resolve_left hc.1.symm) fun i hi => ?_
        have := h (i + 1) (Nat.succ_lt_succ hi)
        rw [show a + (i + 1) = a + 1 + i by omega] at this
        exact this
      · rfl

/-- The server takes the branch of the operation in the record, whatever is behind its name. -/
theorem dispatch_of_name
    (h : ∀ i (hi : i < (literal o.name).length), m.byte (req + i) = (literal o.name)[i]) :
    m.dispatch req = some o := by
  have hcmp (o' : Op) : m.strcmp req (literal o'.name) = cmp (literal o.name) (literal o'.name) :=
    strcmp_eq_cmp (mem_append_right _ (mem_singleton_self _)) h
  simp only [dispatch, hcmp]
  cases o <;> decide

theorem putInt_other {v : Option Int} (h : b < a ∨ a + 4 ≤ b) :
    (m.putInt a v).byte b = m.byte b := by
  cases v with
  | none => rfl
  | some n => exact put_other h

theorem int_putInt {v : Option Int} (hv : ∀ n ∈ v, - 2 ^ 31 ≤ n ∧ n < 2 ^ 31) :
    (m.putInt a v).int a = v.getD (m.int a) := by
  cases v with
  | none => rfl
  | some n => exact int_put (hv n rfl)

section
variable {req : Nat} {o : Op} {arg fd : Option Int} {data : Option Nat}

theorem length_name (o : Op) : (literal o.name).length ≤ ARG := by cases o <;> decide

theorem header_other (h : b < req ∨ req + DATA ≤ b) :
    (m.header req o arg fd).byte b = m.byte b := by
  have := length_name o
  simp only [ARG, DATA] at *
  rw [header, putInt_other (by simp only [FD]; omega), putInt_other (by simp only [ARG]; omega),
    put_other (by omega)]

/-- The fields before `data`, which `strcpy` to `data` leaves alone. -/
theorem store_below (h : m.store req o arg fd data = some m') (hb : b < req + DATA) :
    m'.byte b = (m.header req o arg fd).byte b := by
  cases data with
  | none =>
    cases h
    rfl
  | some ptr => exact strcpyLoop_below h hb

theorem dispatch_store (h : m.store req o arg fd data = some m') : m'.dispatch req = some o := by
  have hlen := length_name o
  refine dispatch_of_name fun i hi => ?_
  simp only [ARG] at hlen
  rw [store_below h (by simp only [DATA]; omega), header, putInt_other (by simp only [FD]; omega),
    putInt_other (by simp only [ARG]; omega), put_byte hi]

theorem arg_store (harg : ∀ n ∈ arg, - 2 ^ 31 ≤ n ∧ n < 2 ^ 31)
    (h : m.store req o arg fd data = some m') :
    m'.int (req + ARG) = arg.getD (m.int (req + ARG)) := by
  have hlen := length_name o
  rw [int_congr fun i hi => store_below h (by simp only [ARG, DATA]; omega), header,
    int_congr fun i hi => putInt_other (by simp only [ARG, FD]; omega), int_putInt harg,
    int_congr fun i hi => put_other (by omega)]

theorem fd_store (hfd : ∀ n ∈ fd, - 2 ^ 31 ≤ n ∧ n < 2 ^ 31)
    (h : m.store req o arg fd data = some m') : m'.int (req + FD) = fd.getD (m.int (req + FD)) := by
  have hlen := length_name o
  simp only [ARG] at hlen
  rw [int_congr fun i hi => store_below h (by simp only [FD, DATA]; omega), header, int_putInt hfd,
    int_congr fun i hi => putInt_other (by simp only [ARG, FD]; omega),
    int_congr fun i hi => put_other (by simp only [FD]; omega)]

/-- The first `n` bytes of `data`, for memory that is apart from the record. -/
theorem data_store (hn : n ≤ DATASIZE)
    (hbuf : ∀ i < n, ptr + i < req ∨ req + DATA + DATASIZE ≤ ptr + i)
    (h : m.store req o arg fd (some ptr) = some m') (hi : i < n) : m'.byte (req + DATA + i) =
      if ∃ j < i, m.byte (ptr + j) = 0 then m.byte (req + DATA + i) else m.byte (ptr + i) := by
  have hsrc {j : Nat} (hj : j < n) : (m.header req o arg fd).byte (ptr + j) = m.byte (ptr + j) :=
    header_other ((hbuf j hj).imp_right fun h => by omega)
  rw [strcpyLoop_byte (n := n) h (fun i hi j hj => by have := hbuf i hi; omega) hi, hsrc hi,
    header_other (.inr (Nat.le_add_right _ _))]
  refine if_congr (exists_congr fun j => and_congr_right fun hj => ?_) rfl rfl
  rw [hsrc (hj.trans hi)]

/-- Memory that is apart from the record and the copy stays as it is. -/
theorem store_apart (hstr : m.IsString ptr l)
    (hreq : ∀ i < max n (l + 1), ptr + i < req ∨ req + DATA + max DATASIZE (l + 1) ≤ ptr + i)
    (h : m.store req o arg fd (some ptr) = some m') (hi : i < max n (l + 1)) :
    m'.byte (ptr + i) = m.byte (ptr + i) := by
  have hsrc {j : Nat} (hj : j < max n (l + 1)) :
      (m.header req o arg fd).byte (ptr + j) = m.byte (ptr + j) :=
    header_other ((hreq j hj).imp_right fun h => by omega)
  rw [← hsrc hi]
  rcases hreq i hi with hlo | hhi
  · exact strcpyLoop_below h (by omega)
  have hstr' : (m.header req o arg fd).IsString ptr l :=
    ⟨by rw [hsrc (by omega)]; exact hstr.zero,
      fun j hj => by rw [hsrc (by omega)]; exact hstr.ne_zero j hj⟩
  refine strcpyLoop_above h hstr' (fun j hj j' hj' => ?_) (by omega)
  have := hreq j (by omega)
  omega

/-- The string that a stub copies to `data`. -/
theorem dataString_store (hstr : m.IsString ptr l) (hl : l < DATASIZE)
    (hbuf : ∀ i < l + 1, ptr + i < req ∨ req + DATA + DATASIZE ≤ ptr + i)
    (h : m.store req o arg fd (some ptr) = some m') : m'.dataString req = m.bytes ptr l := by
  have hbyte {i : Nat} (hi : i < l + 1) : m'.byte (req + DATA + i) = m.byte (ptr + i) := by
    rw [data_store hl hbuf h hi, if_neg]
    rintro ⟨j, hj, hz⟩
    exact hstr.ne_zero j (by omega) hz
  obtain ⟨r, hr⟩ : ∃ r, DATASIZE = l + (1 + r) := ⟨DATASIZE - (l + 1), by omega⟩
  rw [dataString, hr, bytes_add, bytes_add]
  have hzero : m'.bytes (req + DATA + l) 1 = [0] := by
    rw [← hstr.zero, ← hbyte (Nat.lt_succ_self l)]
    rfl
  rw [hzero, takeWhile_append_of_pos, singleton_append,
    takeWhile_cons_of_neg (by simp), append_nil]
  · exact bytes_congr fun i hi => hbyte (by omega)
  · intro c hc
    obtain ⟨i, hi, rfl⟩ := mem_map.1 hc
    have hi := mem_range.1 hi
    rw [hbyte (by omega)]
    exact decide_eq_true (hstr.ne_zero i hi)

end

end Mem

/-! ## The record and the request -/

/-- The request that the server reads in the record, with the number of the call that wrote it. -/
def Mem.request (m : Mem) (req stamp : Nat) : Request where
  operation := m.dispatch req
  arg := m.int (req + ARG)
  fd := m.int (req + FD)
  data := m.dataString req
  stamp := stamp

/-- The stores of a stub, by its fields. -/
def storesOf (o : Op) (arg fd : Option Int) (data : Option (List UInt8)) : List Store :=
  .operation o :: (arg.toList.map .arg ++ fd.toList.map .fd ++ data.toList.map .data)

/-- The fields before `data` that a stub stores, if it has them, and the string for `data`. -/
def Call.arg : Call → Option Int
  | .write _ _ n | .read _ _ n => some n
  | _ => none

def Call.fd : Call → Option Int
  | .write fd1 .. | .read fd1 .. | .open _ fd1 | .close fd1 => some fd1
  | _ => none

def Call.data : Call → Option (List UInt8)
  | .write _ ptr _ | .read _ ptr _ => some ptr
  | .open path _ | .mkdir path | .unlink path => some path
  | _ => none

theorem Call.stores_eq (c : Call) : c.stores = storesOf c.op c.arg c.fd c.data := by
  cases c <;> rfl

/-- The stubs store in memory what the stubs of `Protocol` store, for paths and buffers that are
strings and fit. -/
theorem Mem.request_store {m m' : Mem} {req k id : Nat} {o : Op} {arg fd : Option Int}
    {data : Option Nat} {str : Nat → Nat} (harg : ∀ n ∈ arg, - 2 ^ 31 ≤ n ∧ n < 2 ^ 31)
    (hfd : ∀ n ∈ fd, - 2 ^ 31 ≤ n ∧ n < 2 ^ 31)
    (hdata : ∀ ptr ∈ data, m.IsString ptr (str ptr) ∧ str ptr < DATASIZE ∧
      ∀ i < str ptr + 1, ptr + i < req ∨ req + DATA + DATASIZE ≤ ptr + i)
    (h : m.store req o arg fd data = some m') :
    m'.request req id = (storesOf o arg fd (data.map fun ptr => m.bytes ptr (str ptr))).foldl
      (fun r f => r.store id f) (m.request req k) := by
  have hstring : m'.dataString req =
      (data.map fun ptr => m.bytes ptr (str ptr)).getD (m.dataString req) := by
    cases data with
    | none =>
      obtain rfl := Option.some.inj h
      rw [Option.map_none, Option.getD_none, dataString, dataString,
        bytes_congr fun i _ => header_other (.inr (Nat.le_add_right _ _))]
    | some ptr =>
      obtain ⟨hstr, hlt, hbuf⟩ := hdata ptr rfl
      exact dataString_store hstr hlt hbuf h
  rw [request, dispatch_store h, arg_store harg h, fd_store hfd h, hstring, request]
  generalize m.dataString req = d0, (data.map fun ptr => m.bytes ptr (str ptr)) = d1
  cases arg <;> cases fd <;> cases d1 <;> rfl

/-! ## `fss_write` -/

section
variable {m m' : Mem} {srv : Server} {req resp ptr n : Nat} {fd1 : Int}

/-- The server gets past `stored_path[fd1]` for the descriptors that the array has, if the element
is null or a string that fits behind `/checkpoint/`. -/
theorem Server.served (hlow : srv.stored_path + 4 * NPATH ≤ 2 ^ 32)
    (hmapped : ∀ i < 4 * NPATH, srv.mem.mapped (srv.stored_path + i) = true)
    (h0 : 0 ≤ fd1) (h1 : fd1 < NPATH) (hpath : ∀ a ∈ srv.path fd1, a = 0 ∧ srv.opens a = false ∨
      ∃ l, srv.mem.strlen a = some l ∧ 12 + l < 1024) :
    srv.prints fd1 = true ∧ srv.checkpoint fd1 = true := by
  obtain ⟨k, rfl⟩ := Int.eq_ofNat_of_zero_le h0
  have hk : k < NPATH := by omega
  have haddr : (((srv.stored_path : Int) + 4 * (k : Int)) % 2 ^ 32).toNat =
    srv.stored_path + 4 * k := by
    omega
  obtain ⟨a, ha⟩ : ∃ a, srv.path k = some a := by
    unfold path
    refine ⟨_, if_pos (all_eq_true.2 fun i hi => ?_)⟩
    rw [haddr, Nat.add_assoc]
    have := mem_range.1 hi
    exact hmapped _ (by omega)
  rw [prints, checkpoint, ha]
  rcases hpath a ha with ⟨rfl, ho⟩ | ⟨l, hl, hlt⟩
  · simp [ho]
  · simp [hl, hlt]

/-- A memory of zeros, except for a buffer at 0x5000; the request record is at 0x8000 and the
response at 0x9000. -/
def bufferAt (cs : List UInt8) : Mem :=
  Mem.put { byte := fun _ => 0, mapped := fun a => decide (a < KERNBASE) } 0x5000 cs

/-- A server that has stored no path yet, with `stored_path` at 0x2000. -/
def freshServer : Server where
  mem := bufferAt []
  stored_path := 0x2000
  opens := fun _ => false

/-- `Mem.request_store` for the path `a`. -/
theorem request_store_unlink : ∃ m', (bufferAt [97]).fss_unlink 0x8000 0x5000 = some m' ∧
    m'.request 0x8000 1 = (storesOf .unlink none none (some ((bufferAt [97]).bytes 0x5000 1))).foldl
      (fun r f => r.store 1 f) ((bufferAt [97]).request 0x8000 0) := by
  obtain ⟨m', hm'⟩ : ∃ m', (bufferAt [97]).fss_unlink 0x8000 0x5000 = some m' := ⟨_, rfl⟩
  refine ⟨m', hm', @Mem.request_store _ _ _ _ _ _ _ _ (some 0x5000) (fun _ => 1)
    (fun _ h => by cases h) (fun _ h => by cases h) (fun _ h => ?_) hm'⟩
  cases h
  exact ⟨⟨rfl, by decide⟩, by decide, by decide⟩

/-- The client's buffer has the bytes of the file exactly if it had them before: nothing is stored
there. -/
theorem read_delivers_iff {l : Nat} {k : Int} {out : List UInt8} {sys : Syscall → Int × List UInt8}
    (hfd : - 2 ^ 31 ≤ fd1 ∧ fd1 < 2 ^ 31) (hn : n ≤ DATASIZE) (hstr : m.IsString ptr l)
    (hreq : ∀ i < max n (l + 1), ptr + i < req ∨ req + DATA + max DATASIZE (l + 1) ≤ ptr + i)
    (hresp : ∀ i < n, ptr + i < resp ∨ resp + 4 ≤ ptr + i)
    (hsys : sys (.read fd1 n) = ((out.length : Int), out)) (hout : out.length ≤ n)
    (h : m.readCall srv req resp fd1 ptr n sys = some (k, m')) :
    k = out.length ∧ (m'.bytes ptr out.length = out ∧
        (∀ i < n, out.length ≤ i → m'.byte (ptr + i) = m.byte (ptr + i)) ↔
      m.bytes ptr out.length = out) := by
  obtain ⟨m1, hread, h⟩ := Option.bind_eq_some_iff.1 h
  obtain ⟨m2, hserve, h⟩ := Option.bind_eq_some_iff.1 h
  obtain ⟨rfl, rfl⟩ := Prod.mk.inj (Option.some.inj h)
  have hdisp := Mem.dispatch_store hread
  have harg : m1.int (req + ARG) = n := Mem.arg_store (fun v hv => by
    cases hv
    simp only [DATASIZE] at hn
    omega) hread
  have hfd' : m1.int (req + FD) = fd1 := Mem.fd_store (fun v hv => by cases hv; exact hfd) hread
  obtain ⟨c, hissued, hserve⟩ := Option.map_eq_some_iff.1 hserve
  obtain rfl : Syscall.read fd1 n = c := by
    simp only [Mem.issued, hdisp, harg, hfd'] at hissued
    split at hissued
    · exact Option.some.inj hissued
    · cases hissued
  simp only [hsys] at hserve
  subst hserve
  have hlen : out.length ≤ DATASIZE := hout.trans hn
  have hsame {i : Nat} (hi : i < n) :
      ((m1.put (req + DATA) out).put resp (int32 out.length)).byte (ptr + i) =
        m.byte (ptr + i) := by
    have hi' : i < max n (l + 1) := hi.trans_le (le_max_left _ _)
    have hreq' := hreq i hi'
    rw [Mem.put_other (hresp i hi), Mem.put_other (by omega), Mem.store_apart hstr hreq hread hi']
  refine ⟨Mem.int_put (by simp only [DATASIZE] at hlen; omega), ?_⟩
  rw [Mem.bytes_congr fun i hi => hsame (hi.trans_le hout)]
  exact ⟨fun h => h.1, fun h => ⟨h, fun i hi _ => hsame hi⟩⟩

end

/-- A file with two bytes to read. -/
def twoBytes : Syscall → Int × List UInt8
  | .read .. => (2, [120, 121])
  | _ => (-1, [])

/-- A buffer that has the bytes of the file keeps them. -/
theorem read_delivers_same : ∃ m',
    (bufferAt [120, 121]).readCall freshServer 0x8000 0x9000 3 0x5000 4 twoBytes = some (2, m') ∧
    m'.bytes 0x5000 2 = [120, 121] := by
  obtain ⟨m', hm'⟩ : ∃ m',
      (bufferAt [120, 121]).readCall freshServer 0x8000 0x9000 3 0x5000 (4 : Nat) twoBytes =
        some (2, m') :=
    ⟨_, rfl⟩
  have hsys : twoBytes (.read 3 (4 : Nat)) =
      ((([120, 121] : List UInt8).length : Int), ([120, 121] : List UInt8)) := rfl
  have hstr : (bufferAt [120, 121]).IsString 0x5000 2 := ⟨by decide, by decide⟩
  have h := read_delivers_iff (by decide) (by decide) hstr (by decide) (by decide) hsys (by decide)
    hm'
  exact ⟨m', hm', (h.2.2 (by decide)).1⟩

/-- Any other buffer does not get them. -/
theorem read_delivers_nothing : ∃ m',
    (bufferAt []).readCall freshServer 0x8000 0x9000 3 0x5000 4 twoBytes = some (2, m') ∧
    m'.bytes 0x5000 2 = [0, 0] :=
  ⟨_, rfl, rfl⟩

end Msboss.Fss
