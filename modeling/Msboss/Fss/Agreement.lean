import Msboss.Fss.Protocol

/-!
# Answers and requests

The server frees the request mutex as soon as it has read the operation, and reads the rest of the
request after that. So the next client may have overwritten it by then, and the answer the first
client is woken with is the answer to something else (`not_agrees`).

If every client takes the request mutex only while no other call is past that point, the calls
follow each other, and each returns what the server made of its own request (`agrees_of_solo`). The
proof follows the one client inside (`Phase`): it writes while the server is at rest, then the
record carries its call until the server has executed it, and what it reads afterwards is that
result. A signal that nobody waits for only leaves the client where it is.
-/

namespace Msboss.Fss

open Function State List
open Instr

variable {ι : Type}

/-- The server has executed the request of the call `id`, with the call's operation and arguments,
and got `v`. -/
def Executed (l : List Exec) (id : Nat) (c : Call) (v : Int) : Prop :=
  ∃ e ∈ l, e.request.stamp = id ∧ e.request.Carries c ∧ e.res = v

/-- Every call that has returned got the server's result for its own request, and no request was
executed twice. -/
def Agrees (s : State ι) : Prop :=
  (∀ r ∈ s.returned, Executed s.executed r.id r.call r.retval) ∧
    (s.executed.map (·.request.stamp)).Nodup

/-- A client takes the request mutex only while every other one is in no call, or has not taken it
either. -/
def Solo (s : State ι) : Act ι → Prop
  | .client p => (s.client p).thread.code = (s.client p).call.code →
      ∀ q, q ≠ p → (s.client q).thread.code = [] ∨
        (s.client q).thread.code = (s.client q).call.code
  | _ => True

instance [DecidableEq ι] [Fintype ι] (s : State ι) : (a : Act ι) → Decidable (Solo s a)
  | .client _ => inferInstanceAs (Decidable (_ → ∀ _, _ → _ ∨ _))
  | .call .. => .isTrue trivial
  | .server _ => .isTrue trivial

/-! ## The invariant -/

/-- The server has not executed the request of the call `id`. -/
def Fresh (l : List Exec) (id : Nat) : Prop := id ∉ l.map (·.request.stamp)

/-- The client is in no call, or has not taken the request mutex. -/
def Outside (l : List Exec) (c : Client) : Prop :=
  c.thread = ⟨[], false⟩ ∨ c.thread = ⟨c.call.code, false⟩ ∧ Fresh l c.id

/-- What the clients outside and the past have to do with the present: `cur` is the one client
inside, if there is one. -/
structure Serial (s : State ι) (cur : Option ι) : Prop where
  once : (s.executed.map (·.request.stamp)).Nodup
  bound : ∀ e ∈ s.executed, e.request.stamp < s.calls
  answered : ∀ r ∈ s.returned, Executed s.executed r.id r.call r.retval
  active : ∀ p, (s.client p).thread.code ≠ [] → (s.client p).id < s.calls
  distinct : ∀ p q, (s.client p).thread.code ≠ [] → (s.client q).thread.code ≠ [] →
    (s.client p).id = (s.client q).id → p = q
  outside : ∀ p, some p ≠ cur → Outside s.executed (s.client p)

/-- What the server has made of the request in the record so far. -/
inductive Asked (s : State ι) (c : Client) : Prop
  /-- The signal was lost, or the answer was. -/
  | lost : Quiet s.server → Asked s c
  | woken : s.server = ⟨[dispatch], false⟩ → Fresh s.executed c.id → Asked s c
  | working {l : List Instr} :
      s.server = ⟨l ++ [exec c.call.op, cv_signal .resp], false⟩ →
      l <:+ [mutex_unlock .req, mutex_lock .resp] → Fresh s.executed c.id → Asked s c
  | done : s.server = ⟨[cv_signal .resp], false⟩ → Executed s.executed c.id c.call s.res → Asked s c

/-- Where the client `c` inside is, and the server with it. -/
inductive Inside (s : State ι) (c : Client) : Prop
  | writing (fs : List Store) : c.thread = ⟨fs.map store ++ c.call.signal, false⟩ →
      Quiet s.server → Fresh s.executed c.id →
      (fs.foldl (fun r f => r.store c.id f) s.request).Carries c.call →
      (fs.foldl (fun r f => r.store c.id f) s.request).stamp = c.id → Inside s c
  | asking : (c.thread = ⟨mutex_lock .resp :: c.call.wait, false⟩ ∨
        ∃ b, c.thread = ⟨c.call.wait, b⟩) →
      s.request.Carries c.call → s.request.stamp = c.id → Asked s c → Inside s c
  | leaving {k : List Instr} : c.thread = ⟨k, false⟩ → k <:+ c.call.post → k ≠ [] →
      Quiet s.server → Executed s.executed c.id c.call s.res →
      (readRes ∉ k → c.retval = s.res) → Inside s c

/-- The invariant of runs in which the calls follow each other. -/
inductive Phase (s : State ι) : Prop
  | nobody : Serial s none → Quiet s.server → Phase s
  | inside (p : ι) : Serial s (some p) → Inside s (s.client p) → Phase s

/-! ## Small facts -/

section
variable {l : List Exec} {id : Nat} {c : Call} {v : Int}

theorem Executed.cons (h : Executed l id c v) (e : Exec) : Executed (e :: l) id c v := by
  obtain ⟨e', he, h⟩ := h
  exact ⟨e', .tail _ he, h⟩

/-- The stores of a stub make the record carry the call. -/
theorem Call.carries_stores (c : Call) (r : Request) (id : Nat) :
    (c.stores.foldl (fun r f => r.store id f) r).Carries c ∧
      (c.stores.foldl (fun r f => r.store id f) r).stamp = id := by
  cases c <;> simp [Call.stores, Request.store, Request.Carries, Call.op]

/-- A client inside is in a call and has taken the request mutex. -/
theorem Inside.code {s : State ι} {c : Client} (h : Inside s c) :
    c.thread.code ≠ [] ∧ c.thread.code ≠ c.call.code := by
  have hlock : mutex_lock .req ∈ c.call.code := by rw [Call.code_eq]; exact .head _
  have hpost : mutex_lock .req ∉ c.call.post := by cases c.call <;> simp [Call.post]
  have key : ∀ code : List Instr, code ≠ [] → mutex_lock .req ∉ code →
      code ≠ [] ∧ code ≠ c.call.code :=
    fun code h0 hn => ⟨h0, fun he => hn (he ▸ hlock)⟩
  cases h with
  | writing fs ht =>
    rw [ht]
    refine key _ (by simp [Call.signal]) ?_
    cases c.call <;> simp [Call.signal, Call.wait, Call.post]
  | asking ht =>
    rcases ht with ht | ⟨b, ht⟩ <;> rw [ht] <;> exact key _ (by simp [Call.wait])
      (by simpa [Call.wait] using hpost)
  | leaving ht hs h0 =>
    rw [ht]
    exact key _ h0 fun hm => hpost (hs.mem hm)

/-- What is said of the server and the client inside depends on four fields. -/
theorem Asked.congr {s s' : State ι} {c c' : Client} (h : Asked s c) (hid : c'.id = c.id)
    (hcall : c'.call = c.call) (hserver : s'.server = s.server) (hexec : s'.executed = s.executed)
    (hres : s'.res = s.res) : Asked s' c' := by
  cases h with
  | lost h => exact .lost (by rwa [hserver])
  | woken h hf => exact .woken (by rwa [hserver]) (by rwa [hexec, hid])
  | working h hl hf => exact .working (by rwa [hserver, hcall]) hl (by rwa [hexec, hid])
  | done h he => exact .done (by rwa [hserver]) (by rwa [hexec, hid, hcall, hres])

theorem Inside.congr {s s' : State ι} {c : Client} (h : Inside s c) (hserver : s'.server = s.server)
    (hexec : s'.executed = s.executed) (hreq : s'.request = s.request) (hres : s'.res = s.res) :
    Inside s' c := by
  cases h with
  | writing fs h1 h2 h3 h4 h5 =>
    exact .writing fs h1 (by rwa [hserver]) (by rwa [hexec]) (by rwa [hreq]) (by rwa [hreq])
  | asking h1 h2 h3 h4 =>
    exact .asking h1 (by rwa [hreq]) (by rwa [hreq]) (h4.congr rfl rfl hserver hexec hres)
  | leaving h1 h2 h3 h4 h5 h6 =>
    exact .leaving h1 h2 h3 (by rwa [hserver]) (by rwa [hexec, hres]) (by rwa [hres])

end

section
variable {s s' : State ι} {cur cur' : Option ι} {p : ι}

/-- What a step keeps that neither executes nor returns. -/
theorem Serial.frame (h : Serial s cur) (hexec : s'.executed = s.executed)
    (hcalls : s'.calls = s.calls) (hret : s'.returned = s.returned)
    (hid : ∀ q, (s'.client q).id = (s.client q).id ∧
      ((s'.client q).thread.code ≠ [] → (s.client q).thread.code ≠ []))
    (hout : ∀ q, some q ≠ cur' → Outside s.executed (s'.client q)) : Serial s' cur' where
  once := by rw [hexec]; exact h.once
  bound := by rw [hexec, hcalls]; exact h.bound
  answered := by rw [hexec, hret]; exact h.answered
  active q hq := by rw [(hid q).1, hcalls]; exact h.active q ((hid q).2 hq)
  distinct q r hq hr he := by
    rw [(hid q).1, (hid r).1] at he
    exact h.distinct q r ((hid q).2 hq) ((hid r).2 hr) he
  outside q hq := by rw [hexec]; exact hout q hq

/-- What a step of client `p` keeps that stays in its call. -/
theorem Serial.move (h : Serial s cur) (hexec : s'.executed = s.executed)
    (hcalls : s'.calls = s.calls) (hret : s'.returned = s.returned)
    (hoff : ∀ q, q ≠ p → s'.client q = s.client q)
    (hid : (s'.client p).id = (s.client p).id) (hact : (s.client p).thread.code ≠ [])
    (hcur : ∀ q, q ≠ p → some q ≠ cur) : Serial s' (some p) := by
  refine h.frame hexec hcalls hret (fun q => ?_) fun q hq => ?_
  · rcases eq_or_ne q p with rfl | hqp
    · exact ⟨hid, fun _ => hact⟩
    · rw [hoff q hqp]; exact ⟨rfl, id⟩
  · have hqp : q ≠ p := fun he => hq (congrArg some he)
    rw [hoff q hqp]
    exact h.outside q (hcur q hqp)

/-- The clients outside wait for nothing. -/
theorem Serial.signal_client (h : Serial s cur)
    (hcur : ∀ q, some q = cur → (s.client q).thread.waiting = false) (m : Mux) (q : ι) :
    (s.signal m).client q = s.client q := by
  have hw : (s.client q).thread.waiting = false := by
    by_cases hq : some q = cur
    · exact hcur q hq
    · rcases h.outside q hq with ht | ⟨ht, -⟩ <;> rw [ht]
  simp [signal, Thread.wake_of_not_waiting hw]

/-! ## The steps -/

variable [DecidableEq ι]

/-- A client begins a call. -/
theorem Phase.call (h : Phase s) (hp : (s.client p).thread.code = []) (c : Call) :
    Phase ({ s with calls := s.calls + 1 }.setClient p
      { thread := ⟨c.code, false⟩, call := c, id := s.calls, retval := 0 }) := by
  set s' := ({ s with calls := s.calls + 1 }.setClient p
    { thread := { code := c.code, waiting := false }, call := c, id := s.calls, retval := 0 })
    with hs'
  have hself : s'.client p =
      { thread := ⟨c.code, false⟩, call := c, id := s.calls, retval := 0 } := by
    simp [hs', setClient]
  have hoff : ∀ q, q ≠ p → s'.client q = s.client q := fun q hq => by
    simp [hs', setClient, hq]
  have hserial : ∀ cur, Serial s cur → Serial s' cur := fun cur hS => by
    refine ⟨hS.once, fun e he => Nat.lt_succ_of_lt (hS.bound e he), hS.answered, fun q hq => ?_,
      fun q r hq hr he => ?_, fun q hq => ?_⟩
    · rcases eq_or_ne q p with rfl | hqp
      · rw [hself]; exact Nat.lt_succ_self _
      · rw [hoff q hqp] at hq ⊢; exact Nat.lt_succ_of_lt (hS.active q hq)
    · rcases eq_or_ne q p with rfl | hqp <;> rcases eq_or_ne r q with rfl | hrq
      · rfl
      · rw [hoff r hrq] at hr he
        rw [hself] at he
        exact absurd he (hS.active r hr).ne'
      · rfl
      rcases eq_or_ne r p with rfl | hrp
      · rw [hoff q hqp] at hq he
        rw [hself] at he
        exact absurd he (hS.active q hq).ne
      · rw [hoff q hqp] at hq he
        rw [hoff r hrp] at hr he
        exact hS.distinct q r hq hr he
    · rcases eq_or_ne q p with rfl | hqp
      · rw [hself]
        refine .inr ⟨rfl, fun hmem => ?_⟩
        obtain ⟨e, he, heq⟩ := mem_map.1 hmem
        exact absurd heq (hS.bound e he).ne
      · rw [hoff q hqp]; exact hS.outside q hq
  cases h with
  | nobody hS hq => exact .nobody (hserial none hS) hq
  | inside q hS hI =>
    have hqp : q ≠ p := by rintro rfl; exact hI.code.1 hp
    refine .inside q (hserial _ hS) ?_
    rw [hoff q hqp]
    exact hI.congr rfl rfl rfl rfl

/-- A client takes the request mutex, alone. -/
theorem Phase.enter (hS : Serial s none) (hq : Quiet s.server)
    (hp : (s.client p).thread = ⟨(s.client p).call.code, false⟩)
    (hfresh : Fresh s.executed (s.client p).id) (hs : s.clientStep p = some s') : Phase s' := by
  obtain ⟨hcar, hst⟩ := (s.client p).call.carries_stores s.request (s.client p).id
  rw [Call.code_eq] at hp
  simp only [clientStep, hp] at hs
  split at hs
  · cases hs
  cases hs
  refine .inside p (hS.move rfl rfl rfl (fun q hq => ?_) ?_ ?_ fun _ _ => nofun) ?_
  · simp [goto, setClient, setLock, hq]
  · simp [goto, setClient, setLock]
  · simp [hp]
  · refine .writing (s.client p).call.stores ?_ hq ?_ ?_ ?_
    · simp [goto, setClient, setLock]
    all_goals simpa [goto, setClient, setLock]

/-- The client inside writes to the record, or signals. -/
theorem Phase.write (hS : Serial s (some p)) {fs : List Store}
    (ht : (s.client p).thread = ⟨fs.map store ++ (s.client p).call.signal, false⟩)
    (hq : Quiet s.server) (hfresh : Fresh s.executed (s.client p).id)
    (hcar : (fs.foldl (fun r f => r.store (s.client p).id f) s.request).Carries (s.client p).call)
    (hst : (fs.foldl (fun r f => r.store (s.client p).id f) s.request).stamp = (s.client p).id)
    (hs : s.clientStep p = some s') : Phase s' := by
  cases fs with
  | cons f fs =>
    simp only [clientStep, ht, map_cons, cons_append, Option.some.injEq] at hs
    subst hs
    refine .inside p (hS.move rfl rfl rfl (fun q hq => ?_) ?_ ?_ fun q hq => by simpa using hq) ?_
    · simp [goto, setClient, hq]
    · simp [goto, setClient]
    · simp [ht]
    · refine .writing fs ?_ hq ?_ ?_ ?_
      · simp [goto, setClient]
      all_goals simpa [goto, setClient]
  | nil =>
    obtain ⟨rest, hrest, hcases⟩ : ∃ rest, (s.client p).call.signal = cv_signal .req :: rest ∧
        (rest = mutex_lock .resp :: (s.client p).call.wait ∨ rest = (s.client p).call.wait) := by
      cases (s.client p).call <;> simp [Call.signal]
    rw [hrest, map_nil, nil_append] at ht
    simp only [clientStep, ht, Option.some.injEq] at hs
    have hS' : Serial (s.goto p rest) (some p) := by
      refine hS.move rfl rfl rfl (fun q hq => ?_) ?_ ?_ fun q hq => by simpa using hq
      · simp [goto, setClient, hq]
      · simp [goto, setClient]
      · simp [ht]
    have hcl : ∀ q, ((s.goto p rest).signal .req).client q = (s.goto p rest).client q :=
      hS'.signal_client (fun q hq => by cases hq; simp [goto, setClient]) .req
    subst hs
    refine .inside p (hS'.frame rfl rfl rfl (fun q => ?_) fun q hq => ?_) ?_
    · rw [hcl q]; exact ⟨rfl, id⟩
    · rw [hcl q]; exact hS'.outside q hq
    · rw [hcl p]
      refine .asking ?_ ?_ ?_ ?_
      · rcases hcases with rfl | rfl
        · exact .inl (by simp [goto, setClient])
        · exact .inr ⟨false, by simp [goto, setClient]⟩
      · simpa [goto, setClient, signal] using hcar
      · simpa [goto, setClient, signal] using hst
      · rcases hq.wake with hq' | hq'
        · exact .lost hq'
        · exact .woken hq' (by simpa [goto, setClient, signal] using hfresh)

/-- The client inside waits for the response. -/
theorem Phase.ask (hS : Serial s (some p))
    (ht : (s.client p).thread = ⟨mutex_lock .resp :: (s.client p).call.wait, false⟩ ∨
      ∃ b, (s.client p).thread = ⟨(s.client p).call.wait, b⟩)
    (hcar : s.request.Carries (s.client p).call) (hst : s.request.stamp = (s.client p).id)
    (hask : Asked s (s.client p)) (hs : s.clientStep p = some s') : Phase s' := by
  have hact : (s.client p).thread.code ≠ [] := by
    rcases ht with ht | ⟨b, ht⟩ <;> rw [ht] <;> simp [Call.wait]
  -- whichever it is, only the thread of `p` and the mutex change
  obtain ⟨b, lk, rfl⟩ : ∃ b lk, s' = { s with locked := lk }.setClient p
      { s.client p with thread := ⟨(s.client p).call.wait, b⟩ } := by
    rcases ht with ht | ⟨b, ht⟩
    · simp only [clientStep, ht] at hs
      split at hs
      · cases hs
      · cases hs
        exact ⟨false, update s.locked .resp true, rfl⟩
    · cases b with
      | true => simp [clientStep, ht] at hs
      | false =>
        rw [Call.wait] at ht
        simp only [clientStep, ht, Option.some.injEq] at hs
        exact ⟨true, s.locked, hs.symm⟩
  refine .inside p (hS.move rfl rfl rfl (fun q hq => ?_) ?_ hact fun q hq => by simpa using hq) ?_
  · simp [setClient, hq]
  · simp [setClient]
  · refine .asking (.inr ⟨b, ?_⟩) ?_ ?_ ?_
    · simp [setClient]
    · simpa [setClient] using hcar
    · simpa [setClient] using hst
    · exact hask.congr (by simp [setClient]) (by simp [setClient]) rfl rfl rfl

/-- The client inside leaves. -/
theorem Phase.leave (hS : Serial s (some p))
    (ht : (s.client p).thread = ⟨code, false⟩) (hsuf : code <:+ (s.client p).call.post)
    (h0 : code ≠ []) (hq : Quiet s.server)
    (hex : Executed s.executed (s.client p).id (s.client p).call s.res)
    (hval : readRes ∉ code → (s.client p).retval = s.res) (hs : s.clientStep p = some s') :
    Phase s' := by
  obtain ⟨i, rest, rfl⟩ := exists_cons_of_ne_nil h0
  have hrest : rest <:+ (s.client p).call.post := (suffix_cons i rest).trans hsuf
  rcases Call.post_cons hsuf with ⟨rfl, hne⟩ | ⟨rfl, hne⟩ | ⟨rfl, rfl⟩
  · simp only [clientStep, ht, Option.some.injEq] at hs
    subst hs
    refine .inside p (hS.move rfl rfl rfl (fun q hq => ?_) ?_ ?_ fun q hq => by simpa using hq) ?_
    · simp [goto, setClient, setLock, hq]
    · simp [goto, setClient, setLock]
    · simp [ht]
    · refine .leaving (k := rest) ?_ ?_ hne hq ?_ fun hn => ?_
      · simp [goto, setClient]
      · simpa [goto, setClient, setLock] using hrest
      · simpa [goto, setClient, setLock] using hex
      · simpa [goto, setClient, setLock] using hval (by simpa using hn)
  · simp only [clientStep, ht, Option.some.injEq] at hs
    subst hs
    refine .inside p (hS.move rfl rfl rfl (fun q hq => ?_) ?_ ?_ fun q hq => by simpa using hq) ?_
    · simp [setClient, hq]
    · simp [setClient]
    · simp [ht]
    · refine .leaving (k := rest) ?_ ?_ hne hq ?_ fun _ => ?_
      · simp [setClient]
      · simpa [setClient] using hrest
      · simpa [setClient] using hex
      · simp [setClient]
  · simp only [clientStep, ht, Option.some.injEq] at hs
    subst hs
    have hval := hval (by simp)
    refine .nobody ⟨hS.once, hS.bound, fun r hr => ?_, fun q hq => ?_, fun q r hq hr he => ?_,
      fun q _ => ?_⟩ hq
    · rcases mem_cons.1 hr with rfl | hr
      · simpa [hval, goto, setClient] using hex
      · exact hS.answered r hr
    · have hqp : q ≠ p := by rintro rfl; simp [goto, setClient] at hq
      simp only [goto, setClient, update_of_ne hqp] at hq ⊢
      exact hS.active q hq
    · have hqp : q ≠ p := by rintro rfl; simp [goto, setClient] at hq
      have hrp : r ≠ p := by rintro rfl; simp [goto, setClient] at hr
      simp only [goto, setClient, update_of_ne hqp,
        update_of_ne hrp] at hq hr he
      exact hS.distinct q r hq hr he
    · rcases eq_or_ne q p with rfl | hqp
      · exact .inl (by simp [goto, setClient])
      · simp only [goto, setClient, update_of_ne hqp]
        exact hS.outside q (by simpa using hqp)

/-- A step of a client. -/
theorem Phase.client (h : Phase s) (hsolo : Solo s (.client p)) (hs : s.clientStep p = some s') :
    Phase s' := by
  have hidle : (s.client p).thread ≠ ⟨[], false⟩ := fun he => by simp [clientStep, he] at hs
  cases h with
  | nobody hS hq =>
    rcases hS.outside p nofun with he | ⟨he, hf⟩
    · exact absurd he hidle
    · exact Phase.enter hS hq he hf hs
  | inside q hS hI =>
    rcases eq_or_ne q p with rfl | hqp
    · cases hI with
      | writing fs h1 h2 h3 h4 h5 => exact Phase.write hS h1 h2 h3 h4 h5 hs
      | asking h1 h2 h3 h4 => exact Phase.ask hS h1 h2 h3 h4 hs
      | leaving h1 h2 h3 h4 h5 h6 => exact Phase.leave hS h1 h2 h3 h4 h5 h6 hs
    rcases hS.outside p (by simpa using hqp.symm) with he | ⟨he, -⟩
    · exact absurd he hidle
    · rcases hsolo (by rw [he]) q hqp with h0 | h1
      · exact absurd h0 hI.code.1
      · exact absurd h1 hI.code.2

omit [DecidableEq ι] in
/-- The server goes on without touching the records. -/
theorem Serial.server (h : Serial s cur) (t : Thread) (lk : Mux → Bool) :
    Serial { s with server := t, locked := lk } cur :=
  h.frame rfl rfl rfl (fun _ => ⟨rfl, id⟩) h.outside

omit [DecidableEq ι] in
/-- The server executes the request in the record. -/
theorem Phase.exec (hS : Serial s (some p))
    (ht : (s.client p).thread = ⟨mutex_lock .resp :: (s.client p).call.wait, false⟩ ∨
      ∃ b, (s.client p).thread = ⟨(s.client p).call.wait, b⟩)
    (hcar : s.request.Carries (s.client p).call) (hst : s.request.stamp = (s.client p).id)
    (hf : Fresh s.executed (s.client p).id) (r : Int) : Phase ({ s with
      res := r
      executed := { request := { s.request with operation := some (s.client p).call.op }, res := r }
        :: s.executed }.serve [cv_signal .resp]) := by
  have hact : (s.client p).thread.code ≠ [] := by
    rcases ht with ht | ⟨b, ht⟩ <;> rw [ht] <;> simp [Call.wait]
  have hop : { s.request with operation := some (s.client p).call.op } = s.request := by
    rw [← hcar.1]
  rw [hop]
  refine .inside p ⟨?_, fun e he => ?_, fun r hr => (hS.answered r hr).cons _,
    hS.active, hS.distinct,
    fun q hq => ?_⟩ (.asking ht hcar hst (.done rfl ⟨_, .head _, hst, hcar, rfl⟩))
  · exact nodup_cons.2 ⟨show s.request.stamp ∉ _ from hst ▸ hf, hS.once⟩
  · rcases mem_cons.1 he with rfl | he
    · exact hst ▸ hS.active p hact
    · exact hS.bound e he
  · refine (hS.outside q hq).imp id fun ⟨hq', hfq⟩ => ⟨hq', ?_⟩
    have hne : (s.client q).id ≠ s.request.stamp := fun he => hq <| congrArg some <|
      hS.distinct q p (by rw [hq', Call.code_eq]; simp) hact (he.trans hst)
    simpa [Fresh, serve, hne] using hfq

omit [DecidableEq ι] in
/-- The server signals that it has answered. -/
theorem Phase.respond (hS : Serial s (some p))
    (ht : (s.client p).thread = ⟨mutex_lock .resp :: (s.client p).call.wait, false⟩ ∨
      ∃ b, (s.client p).thread = ⟨(s.client p).call.wait, b⟩)
    (hcar : s.request.Carries (s.client p).call) (hst : s.request.stamp = (s.client p).id)
    (hex : Executed s.executed (s.client p).id (s.client p).call s.res) :
    Phase ((s.serve []).signal .resp) := by
  have hoff : ∀ q, some q ≠ some p → ((s.serve []).signal .resp).client q = s.client q := by
    intro q hq
    have hw : (s.client q).thread.waiting = false := by
      rcases hS.outside q hq with he | ⟨he, -⟩ <;> rw [he]
    simp [signal, serve, Thread.wake_of_not_waiting hw]
  have hcode : ((s.client p).thread.wake .resp).code ≠ [] → (s.client p).thread.code ≠ [] := by
    intro _
    rcases ht with ht | ⟨b, ht⟩ <;> rw [ht] <;> simp [Call.wait]
  have hS' : Serial ((s.serve []).signal .resp) (some p) := by
    refine hS.frame rfl rfl rfl (fun q => ?_) fun q hq => ?_
    · rcases eq_or_ne q p with rfl | hqp
      · exact ⟨rfl, hcode⟩
      · rw [hoff q (by simpa using hqp)]; exact ⟨rfl, id⟩
    · rw [hoff q hq]; exact hS.outside q hq
  have hquiet : Quiet ((s.serve []).signal .resp).server := .inl rfl
  refine .inside p hS' ?_
  rcases ht with ht | ⟨_ | _, ht⟩
  · exact .asking (.inl (by simp [signal, serve, ht, Thread.wake])) hcar hst
      (.lost hquiet)
  · exact .asking (.inr ⟨false, by simp [signal, serve, ht, Thread.wake]⟩) hcar hst
      (.lost hquiet)
  · refine .leaving (k := (s.client p).call.post) ?_ suffix_rfl ?_ hquiet hex fun hn => ?_
    · simp [signal, serve, ht, Thread.wake, Call.wait]
    · cases (s.client p).call <;> simp [Call.post]
    · exact absurd (by cases (s.client p).call <;> simp [Call.post]) hn

omit [DecidableEq ι] in
/-- A step of the server. -/
theorem Phase.server (h : Phase s) (hs : s.serverStep r = some s') : Phase s' := by
  cases h with
  | nobody hS hq =>
    obtain ⟨t, ht, rfl⟩ := hq.step hs
    exact .nobody (hS.server t s.locked) ht
  | inside p hS hI =>
    cases hI with
    | writing fs h1 hq h3 h4 h5 =>
      obtain ⟨t, ht, rfl⟩ := hq.step hs
      exact .inside p (hS.server t s.locked) (.writing fs h1 ht h3 h4 h5)
    | leaving h1 h2 h3 hq h5 h6 =>
      obtain ⟨t, ht, rfl⟩ := hq.step hs
      exact .inside p (hS.server t s.locked) (.leaving h1 h2 h3 ht h5 h6)
    | asking h1 h2 h3 h4 =>
      cases h4 with
      | lost hq =>
        obtain ⟨t, ht, rfl⟩ := hq.step hs
        exact .inside p (hS.server t s.locked) (.asking h1 h2 h3 (.lost ht))
      | woken hsv hf =>
        simp only [serverStep, hsv, h2.1, Option.some.injEq] at hs
        subst hs
        refine .inside p (hS.server _ s.locked) (.asking h1 h2 h3 ?_)
        by_cases hr : (s.client p).call.op = .restore
        · exact .lost (.inr (.inr (by rw [hr]; rfl)))
        · refine .working (l := [mutex_unlock .req, mutex_lock .resp]) ?_ suffix_rfl hf
          rw [branch_of_ne hr]
          rfl
      | @working l hsv hl hf =>
        rcases suffix_cons_iff.1 hl with rfl | hl'
        · simp only [serverStep, hsv, cons_append, Option.some.injEq] at hs
          subst hs
          exact .inside p (hS.server _ _) (.asking h1 h2 h3 (.working (l := [mutex_lock .resp]) rfl
            (suffix_cons ..) hf))
        rcases suffix_cons_iff.1 hl' with rfl | hl''
        · simp only [serverStep, hsv, cons_append] at hs
          split at hs
          · cases hs
          · cases hs
            exact .inside p (hS.server _ _) (.asking h1 h2 h3 (.working (l := []) rfl
              (nil_suffix ..) hf))
        · obtain rfl := suffix_nil.1 hl''
          simp only [serverStep, hsv, nil_append, Option.some.injEq] at hs
          subst hs
          exact Phase.exec hS h1 h2 h3 hf r
      | done hsv hex =>
        simp only [serverStep, hsv, Option.some.injEq] at hs
        subst hs
        exact Phase.respond hS h1 h2 h3 hex

omit [DecidableEq ι] in
theorem phase_initial : Phase (initial ι) :=
  .nobody ⟨nodup_nil, nofun, nofun, fun _ h => absurd rfl h, fun _ _ h => absurd rfl h,
    fun _ _ => .inl rfl⟩ (.inl rfl)

end

/-- **Calls that follow each other agree with the server.** In every run in which a client takes
the request mutex only while no other call is past that point, every call that returns has got the
server's result for its own request, and the server executes no request twice. -/
theorem agrees_of_solo [DecidableEq ι] {s : State ι} (h : ((system ι).restrict Solo).Reach s) :
    Agrees s := by
  have hP : Phase s := h.invariant
    (fun s hs => by
      obtain rfl : s = initial ι := hs
      exact phase_initial)
    (fun s a s' hP hs => by
      cases a with
      | call p c =>
        have hs := hs.2
        simp only [system, System.ofNext, next] at hs
        split at hs <;> cases hs
        exact hP.call ‹_› c
      | client p => exact hP.client hs.1 hs.2
      | server r => exact hP.server hs.2)
  cases hP with
  | nobody hS => exact ⟨hS.answered, hS.once⟩
  | inside p hS => exact ⟨hS.answered, hS.once⟩

/-- Two calls, the second after the first has returned. -/
def twoCalls : List (Act (Fin 2)) :=
  [[.server 0, .server 0, .call 0 (.close 3)], .replicate 5 (.client 0), .replicate 5 (.server 7),
    .replicate 3 (.client 0), [.server 0, .server 0, .call 1 (.close 4)], .replicate 5 (.client 1),
    .replicate 5 (.server 8), .replicate 3 (.client 1)].flatten

/-- `agrees_of_solo` on the run of `twoCalls`. -/
theorem agrees_twoCalls : ∃ s, ((system (Fin 2)).restrict Solo).Reach s ∧
    s.returned.map (·.retval) = [8, 7] ∧ Agrees s := by
  obtain ⟨s, hreach, h2⟩ := (system (Fin 2)).exists_reach Solo next (initial (Fin 2)) twoCalls
    (Q := fun s => s.returned.map (·.retval) = [8, 7]) rfl rfl (by decide +kernel)
  exact ⟨s, hreach, h2, agrees_of_solo hreach⟩

/-- Client 1 takes the request mutex when the server has freed it, and overwrites the descriptor
that client 0 wants closed before the server reads it. -/
def overwritten : List (Act (Fin 2)) :=
  [[.server 0, .server 0, .call 0 (.close 3)], .replicate 5 (.client 0),
    [.server 0, .server 0, .call 1 (.close 4)], .replicate 3 (.client 1), .replicate 3 (.server 7),
    .replicate 3 (.client 0)].flatten

/-- **Answers and requests do not agree.** In the run of `overwritten` the server closes descriptor
4, and the call that asked for descriptor 3 returns the result. -/
theorem not_agrees : ¬ ∀ s, (system (Fin 2)).Reach s → Agrees s := by
  intro H
  obtain ⟨s, hreach, hret, hexec⟩ := (system (Fin 2)).exists_run next (initial (Fin 2)) overwritten
    (Q := fun s => s.returned = [⟨0, .close 3, 7⟩] ∧ s.executed.map (·.request.fd) = [4]) rfl rfl
    (by decide +kernel)
  obtain ⟨e, he, -, ⟨-, hfd⟩, -⟩ := (H s hreach).1 ⟨0, .close 3, 7⟩ (by simp [hret])
  have hmem : e.request.fd ∈ s.executed.map (·.request.fd) := mem_map_of_mem he
  rw [hexec, hfd] at hmem
  simp at hmem

end Msboss.Fss
