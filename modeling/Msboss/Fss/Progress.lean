import Msboss.Fss.Protocol

/-!
# Getting stuck

A signal that nobody waits for is lost. If a client signals before the server has come to its
`cv_wait`, or the server answers before the client has come to its own, both wait for ever
(`not_unstuck`); and `fss_mkdir` takes the response mutex before it waits, so that the server can
not take it to answer.

If every signal finds whom it is for, and nobody calls `fss_mkdir`, somebody can always go on
(`unstuck_of_prompt`). The invariant `Live` says that the server works as long as a client waits
for it, and that whoever will unlock the response mutex is not blocked.
-/

namespace Msboss.Fss

open Instr State List

variable {ι : Type}

/-- The thread is blocked, in `mutex_lock` or in `cv_wait` with no signal since. -/
def Blocked (s : State ι) (t : Thread) : Prop :=
  t.waiting = true ∨ ∃ m, t.code.head? = some (mutex_lock m) ∧ s.locked m = true

/-- The client has written its request and signalled it, and has not been woken with an answer. -/
def Unanswered (t : Thread) : Prop := cv_signal .req ∉ t.code ∧ cv_wait .resp ∈ t.code

/-- A client waits for an answer, and the server and every client in a call are blocked. -/
def Stuck (s : State ι) : Prop :=
  (∃ p, Unanswered (s.client p).thread) ∧ Blocked s s.server ∧
    ∀ p, (s.client p).thread.code = [] ∨ Blocked s (s.client p).thread

/-- The server is waiting when a client signals, the clients that want an answer are waiting when
the server signals, and nobody calls `fss_mkdir`. -/
def Prompt (s : State ι) : Act ι → Prop
  | .call _ c => c.op ≠ .mkdir
  | .client p => (s.client p).thread.code.head? = some (cv_signal .req) →
      s.server = ⟨turn, true⟩
  | .server _ => s.server.code = [cv_signal .resp] →
      ∀ p, Unanswered (s.client p).thread → (s.client p).thread.waiting = true

instance (t : Thread) : Decidable (Unanswered t) := by
  dsimp only [Unanswered]; infer_instance

instance [Fintype ι] (s : State ι) : (a : Act ι) → Decidable (Prompt s a)
  | .call _ c => inferInstanceAs (Decidable (c.op ≠ .mkdir))
  | .client _ => inferInstanceAs (Decidable (_ → _))
  | .server _ => inferInstanceAs (Decidable (_ → ∀ _, _ → _))

/-! ## The invariant -/

/-- Where a client is in its call, which is not `fss_mkdir`. -/
inductive Stage (c : Call) (t : Thread) : Prop
  | idle : t = ⟨[], false⟩ → Stage c t
  | entering : t = ⟨c.code, false⟩ → Stage c t
  | writing (fs : List Store) : t = ⟨fs.map store ++ cv_signal .req :: c.wait, false⟩ → Stage c t
  | waiting (b : Bool) : t = ⟨c.wait, b⟩ → Stage c t
  | leaving {code : List Instr} : t = ⟨code, false⟩ → code <:+ c.post → code ≠ [] → Stage c t

/-- The server works on a request. -/
inductive Working (t : Thread) : Prop
  | woken : t = ⟨[dispatch], false⟩ → Working t
  | serving {o : Op} {l : List Instr} : t = ⟨l, false⟩ →
      l <:+ [mutex_unlock .req, mutex_lock .resp, exec o, cv_signal .resp] → l ≠ [] → Working t

/-- The server has the response mutex. -/
def Responding (t : Thread) : Prop :=
  (∃ o, t.code = [exec o, cv_signal .resp]) ∨ t.code = [cv_signal .resp]

/-- The client was woken with an answer and will unlock the response mutex. -/
def Unlocks (t : Thread) : Prop :=
  t.waiting = false ∧ (t.code.head? = some (mutex_unlock .resp) ∨
    t.code.head? = some readRes ∧ mutex_unlock .resp ∈ t.code)

/-- What the runs with prompt signals keep. -/
structure Live (s : State ι) : Prop where
  stage : ∀ p, Stage (s.client p).call (s.client p).thread
  noMkdir : ∀ p, (s.client p).thread.code ≠ [] → (s.client p).call.op ≠ .mkdir
  server : Quiet s.server ∨ Working s.server
  one : ∀ p q, Unanswered (s.client p).thread → Unanswered (s.client q).thread → p = q
  busy : ∀ p, Unanswered (s.client p).thread → Working s.server ∨ s.server = ⟨[exit], false⟩
  asked : Working s.server → ∃ p, Unanswered (s.client p).thread
  held : s.locked .resp = true → Responding s.server ∨ ∃ p, Unlocks (s.client p).thread

/-! ## Small facts -/

section
variable {c : Call} {t : Thread}

theorem not_unanswered_of_mem (h : cv_signal .req ∈ code) :
    ¬ Unanswered ⟨code, b⟩ := fun hu => hu.1 h

theorem unanswered_wait (c : Call) (b : Bool) : Unanswered ⟨c.wait, b⟩ := by
  cases c <;> simp [Unanswered, Call.wait, Call.post]

theorem not_unanswered_post (h : code <:+ c.post) (b : Bool) :
    ¬ Unanswered ⟨code, b⟩ := fun hu => by
  have := h.mem hu.2
  revert this
  cases c <;> simp [Call.post]

theorem signal_mem_code (c : Call) : cv_signal .req ∈ c.code := by
  cases c <;> simp [Call.code, fss_write, fss_read, fss_open, fss_close, fss_mkdir, fss_unlink,
    fss_restore]

theorem signal_of_not_mkdir (h : c.op ≠ .mkdir) : c.signal = cv_signal .req :: c.wait := by
  cases c <;> first | rfl | exact absurd rfl h

/-- A server that works is not at rest. -/
theorem Working.not_quiet (h : Working t) : ¬ Quiet t := by
  intro hq
  cases h with
  | woken h => rw [h] at hq; simp [Quiet, turn] at hq
  | serving h hl h0 =>
    rw [h] at hq
    obtain ⟨i, l, rfl⟩ := exists_cons_of_ne_nil h0
    simp only [suffix_cons_iff, suffix_nil, cons.injEq, reduceCtorEq,
      or_false] at hl
    rcases hl with ⟨rfl, rfl⟩ | ⟨rfl, rfl⟩ | ⟨rfl, rfl⟩ | ⟨rfl, rfl⟩ <;> simp [Quiet, turn] at hq

end

/-- In a live state somebody can go on. -/
theorem Live.not_stuck {s : State ι} (h : Live s) : ¬ Stuck s := by
  rintro ⟨⟨p, hp⟩, hsv, hcl⟩
  have hlock : Working s.server → s.locked .resp = true ∧ ¬ Responding s.server := by
    intro hw
    cases hw with
    | woken h' => rw [h'] at hsv; simp [Blocked] at hsv
    | serving h' hl h0 =>
      rw [h'] at hsv ⊢
      obtain ⟨i, l, rfl⟩ := exists_cons_of_ne_nil h0
      simp only [suffix_cons_iff, suffix_nil, cons.injEq, reduceCtorEq,
        or_false] at hl
      rcases hl with ⟨rfl, rfl⟩ | ⟨rfl, rfl⟩ | ⟨rfl, rfl⟩ | ⟨rfl, rfl⟩ <;>
        simp [Blocked] at hsv
      exact ⟨hsv, by simp [Responding]⟩
  rcases h.busy p hp with hw | he
  · obtain ⟨hl, hr⟩ := hlock hw
    rcases h.held hl with hr' | ⟨q, hq, hh⟩
    · exact hr hr'
    · rcases hcl q with h0 | hw' | ⟨m, hm, -⟩
      · rw [h0] at hh; simp at hh
      · rw [hq] at hw'; cases hw'
      · rw [hm] at hh; simp at hh
  · rw [he] at hsv; simp [Blocked] at hsv

/-! ## The steps -/

section
variable {s s' : State ι} {p : ι}

/-- A step of client `p` that wakes nobody and does not end its waiting. -/
theorem Live.move (h : Live s) (hserver : s'.server = s.server)
    (hoff : ∀ q, q ≠ p → s'.client q = s.client q)
    (hstage : Stage (s'.client p).call (s'.client p).thread)
    (hmk : (s'.client p).thread.code ≠ [] → (s'.client p).call.op ≠ .mkdir)
    (hun : Unanswered (s'.client p).thread ↔ Unanswered (s.client p).thread)
    (hheld : s'.locked .resp = true → s.locked .resp = true ∧
      (Unlocks (s.client p).thread → Unlocks (s'.client p).thread)) : Live s' := by
  have hun' : ∀ q, Unanswered (s'.client q).thread ↔ Unanswered (s.client q).thread := fun q => by
    rcases eq_or_ne q p with rfl | hqp
    · exact hun
    · rw [hoff q hqp]
  refine ⟨fun q => ?_, fun q => ?_, hserver ▸ h.server, fun q r hq hr => ?_, fun q hq => ?_,
    fun hw => ?_, fun hl => ?_⟩
  · rcases eq_or_ne q p with rfl | hqp
    · exact hstage
    · rw [hoff q hqp]; exact h.stage q
  · rcases eq_or_ne q p with rfl | hqp
    · exact hmk
    · rw [hoff q hqp]; exact h.noMkdir q
  · exact h.one q r ((hun' q).1 hq) ((hun' r).1 hr)
  · rw [hserver]; exact h.busy q ((hun' q).1 hq)
  · rw [hserver] at hw
    obtain ⟨q, hq⟩ := h.asked hw
    exact ⟨q, (hun' q).2 hq⟩
  · obtain ⟨hl', hp⟩ := hheld hl
    rw [hserver]
    refine (h.held hl').imp id ?_
    rintro ⟨q, hq⟩
    refine ⟨q, ?_⟩
    rcases eq_or_ne q p with rfl | hqp
    · exact hp hq
    · rwa [hoff q hqp]

/-- The server goes on without a signal, and keeps the response mutex if it has it. -/
theorem Live.serve (h : Live s)
    (hserver : s' = { s with server := t, locked := k, res := s'.res, executed := s'.executed })
    (hquiet : Quiet t ∨ Working t) (hwork : Working s.server → Working t ∨ t = ⟨[exit], false⟩)
    (hquiet' : Working t → Working s.server)
    (hexit : s.server = ⟨[exit], false⟩ → t = ⟨[exit], false⟩)
    (hheld : k .resp = true → Responding t ∨
      s.locked .resp = true ∧ (Responding s.server → Responding t)) : Live s' := by
  rw [hserver]
  refine ⟨h.stage, h.noMkdir, hquiet, h.one, fun q hq => ?_, fun hw => h.asked (hquiet' hw),
    fun hl => ?_⟩
  · rcases h.busy q hq with hw | he
    · exact hwork hw
    · exact .inr (hexit he)
  · rcases hheld hl with hr | ⟨hl', hr⟩
    · exact .inl hr
    · exact (h.held hl').imp hr id

/-- A client that waits has signalled and is at its `cv_wait`. -/
theorem Live.waiting (h : Live s) (hw : (s.client q).thread.waiting = true) :
    (s.client q).thread = ⟨(s.client q).call.wait, true⟩ := by
  cases h.stage q with
  | idle h | entering h | writing _ h | leaving h _ _ => rw [h] at hw; cases hw
  | waiting b h => rw [h] at hw ⊢; rw [show b = true from hw]

/-- What a signal for requests does to a client: nothing. -/
theorem Live.wake_req (h : Live s) (q : ι) :
    (s.client q).thread.wake .req = (s.client q).thread := by
  rcases hw : (s.client q).thread.waiting
  · exact Thread.wake_of_not_waiting hw _
  · rw [h.waiting hw]
    simp [Thread.wake, Call.wait]

theorem unlocks_post (c : Call) : Unlocks ⟨c.post, false⟩ := by
  cases c <;> simp [Unlocks, Call.post]

theorem not_responding_of_quiet (h : Quiet t) : ¬ Responding t := by
  obtain rfl | h | rfl := h
  · simp [Responding]
  · simp [Responding, h, turn]
  · simp [Responding]

variable [DecidableEq ι]

/-- A client signals its request to the waiting server. -/
theorem Live.signal (h : Live s) (hsv : s.server = ⟨turn, true⟩)
    (ht : (s.client p).thread = ⟨cv_signal .req :: (s.client p).call.wait, false⟩) :
    Live ((s.goto p (s.client p).call.wait).signal .req) := by
  set s' := (s.goto p (s.client p).call.wait).signal .req
  have hquiet : Quiet s.server := .inr (.inl (by rw [hsv]))
  have hnone : ∀ q, ¬ Unanswered (s.client q).thread := fun q hq => by
    rcases h.busy q hq with hw | he
    · exact hw.not_quiet hquiet
    · rw [hsv] at he; cases he
  have hself : s'.client p = { s.client p with thread := ⟨(s.client p).call.wait, false⟩ } := by
    simp [s', State.signal, State.goto, State.setClient, Thread.wake]
  have hoff : ∀ q, q ≠ p → s'.client q = s.client q := fun q hq => by
    simp [s', State.signal, State.goto, State.setClient, hq, h.wake_req q]
  have hsv' : s'.server = ⟨[dispatch], false⟩ := by
    simp [s', State.signal, State.goto, State.setClient, hsv, Thread.wake, turn]
  have hun : ∀ q, Unanswered (s'.client q).thread → q = p := fun q hq => by
    by_contra hqp
    rw [hoff q hqp] at hq
    exact hnone q hq
  refine ⟨fun q => ?_, fun q => ?_, .inr (.woken hsv'), fun q r hq hr => ?_,
    fun q _ => .inl (.woken hsv'), fun _ => ⟨p, ?_⟩, fun hl => .inr ?_⟩
  · rcases eq_or_ne q p with rfl | hqp
    · exact .waiting false (by rw [hself])
    · rw [hoff q hqp]; exact h.stage q
  · rcases eq_or_ne q p with rfl | hqp
    · rw [hself]; exact fun _ => h.noMkdir q (by simp [ht])
    · rw [hoff q hqp]; exact h.noMkdir q
  · rw [hun q hq, hun r hr]
  · rw [hself]; exact unanswered_wait _ _
  · rcases h.held hl with hr | ⟨q, hq⟩
    · exact absurd hr (not_responding_of_quiet hquiet)
    · have hqp : q ≠ p := by rintro rfl; simp [Unlocks, ht] at hq
      exact ⟨q, by rwa [hoff q hqp]⟩

/-- A step of a client. -/
theorem Live.client (h : Live s) (hprompt : Prompt s (.client p))
    (hs : s.clientStep p = some s') : Live s' := by
  have hmk := h.noMkdir p
  cases h.stage p with
  | idle ht => simp [clientStep, ht] at hs
  | entering ht =>
    have hsig := signal_of_not_mkdir (hmk (by simp [ht, Call.code_eq]))
    have hmem := not_unanswered_of_mem (b := false) (signal_mem_code (s.client p).call)
    rw [Call.code_eq, hsig] at ht hmem
    simp only [clientStep, ht] at hs
    split at hs <;> cases hs
    refine h.move (p := p) rfl (fun q hq => ?_) ?_ ?_ ?_ fun hl => ⟨?_, fun hu => ?_⟩
    · simp [State.goto, State.setClient, setLock, hq]
    · refine .writing (s.client p).call.stores ?_
      simp [State.goto, State.setClient, setLock]
    · simpa [State.goto, State.setClient, setLock] using hmk (by simp [ht])
    · rw [ht]
      refine iff_of_false ?_ hmem
      simp [State.goto, State.setClient, setLock, Unanswered]
    · simpa [State.goto, State.setClient, setLock] using hl
    · simp [ht, Unlocks] at hu
  | writing fs ht =>
    cases fs with
    | nil =>
      simp only [clientStep, ht, map_nil, nil_append, Option.some.injEq] at hs
      subst hs
      exact h.signal (hprompt (by simp [ht])) ht
    | cons f fs =>
      simp only [clientStep, ht, map_cons, cons_append, Option.some.injEq] at hs
      subst hs
      refine h.move (p := p) rfl (fun q hq => ?_) ?_ ?_ ?_ fun hl => ⟨hl, fun hu => ?_⟩
      · simp [State.goto, State.setClient, hq]
      · exact .writing fs (by simp [State.goto, State.setClient])
      · simpa [State.goto, State.setClient] using hmk (by simp [ht])
      · rw [ht]
        refine iff_of_false ?_ (not_unanswered_of_mem (by simp))
        simp [State.goto, State.setClient, Unanswered]
      · simp [ht, Unlocks] at hu
  | waiting b ht =>
    cases b with
    | true => simp [clientStep, ht] at hs
    | false =>
      have ht' := ht
      rw [Call.wait] at ht'
      simp only [clientStep, ht', Option.some.injEq] at hs
      subst hs
      refine h.move (p := p) rfl (fun q hq => ?_) ?_ ?_ ?_ fun hl => ⟨hl, fun hu => ?_⟩
      · simp [State.setClient, hq]
      · exact .waiting true (by simp [State.setClient, Call.wait])
      · simpa [State.setClient] using hmk (by simp [ht'])
      · rw [ht']
        simp [State.setClient, Unanswered]
      · simp [ht', Unlocks] at hu
  | leaving ht hsuf h0 =>
    obtain ⟨i, rest, rfl⟩ := exists_cons_of_ne_nil h0
    have hrest : rest <:+ (s.client p).call.post := (suffix_cons i rest).trans hsuf
    have hun := not_unanswered_post hsuf false
    have hun' := not_unanswered_post hrest false
    have hstage : Stage (s.client p).call ⟨rest, false⟩ := by
      rcases eq_or_ne rest [] with rfl | hne
      · exact .idle rfl
      · exact .leaving rfl hrest hne
    have hmk := hmk (by simp [ht])
    rcases Call.post_cons hsuf with ⟨rfl, hne⟩ | ⟨rfl, hne⟩ | ⟨rfl, rfl⟩
    · simp only [clientStep, ht, Option.some.injEq] at hs
      subst hs
      refine h.move (p := p) rfl (fun q hq => ?_) ?_ ?_ ?_ fun hl => ?_
      · simp [State.goto, State.setClient, setLock, hq]
      · simpa [State.goto, State.setClient, setLock] using hstage
      · simpa [State.goto, State.setClient, setLock] using fun _ => hmk
      · rw [ht]
        refine iff_of_false ?_ hun
        simpa [State.goto, State.setClient, setLock] using hun'
      · simp [State.goto, State.setClient, setLock] at hl
    · simp only [clientStep, ht, Option.some.injEq] at hs
      subst hs
      refine h.move (p := p) rfl (fun q hq => ?_) ?_ ?_ ?_ fun hl => ⟨hl, fun hu => ?_⟩
      · simp [State.setClient, hq]
      · simpa [State.setClient] using hstage
      · simpa [State.setClient] using fun _ => hmk
      · rw [ht]
        refine iff_of_false ?_ hun
        simpa [State.setClient] using hun'
      · -- only `fss_open` has its unlock after the read
        have hopen : mutex_unlock .resp ∈ rest := by simpa [Unlocks, ht] using hu
        obtain ⟨j, l, rfl⟩ := exists_cons_of_ne_nil hne
        rcases Call.post_cons hrest with ⟨rfl, -⟩ | ⟨rfl, -⟩ | ⟨rfl, rfl⟩
        · simp [State.setClient, Unlocks]
        · simpa [State.setClient, Unlocks] using hopen
        · simp at hopen
    · simp only [clientStep, ht, Option.some.injEq] at hs
      subst hs
      refine h.move (p := p) rfl (fun q hq => ?_) ?_ ?_ ?_ fun hl => ⟨hl, fun hu => ?_⟩
      · simp [State.goto, State.setClient, hq]
      · simpa [State.goto, State.setClient] using hstage
      · simp [State.goto, State.setClient]
      · rw [ht]
        refine iff_of_false ?_ hun
        simpa [State.goto, State.setClient] using hun'
      · simp [ht, Unlocks] at hu

omit [DecidableEq ι] in
/-- The server answers, and whoever wants the answer is waiting for it. -/
theorem Live.respond (h : Live s) (hsv : s.server = ⟨[cv_signal .resp], false⟩)
    (hprompt : ∀ p, Unanswered (s.client p).thread → (s.client p).thread.waiting = true) :
    Live ((s.serve []).signal .resp) := by
  set s' := (s.serve []).signal .resp
  have hwoken : ∀ q, Unanswered (s.client q).thread →
      (s'.client q).thread = ⟨(s.client q).call.post, false⟩ := fun q hq => by
    simp [s', State.signal, State.serve, h.waiting (hprompt q hq), Thread.wake, Call.wait]
  have hrest : ∀ q, ¬ Unanswered (s.client q).thread → (s'.client q).thread = (s.client q).thread :=
    fun q hq => by
      refine Thread.wake_of_not_waiting (Bool.eq_false_iff.2 fun hw => hq ?_) _
      rw [h.waiting hw]
      exact unanswered_wait _ _
  have hcall : ∀ q, (s'.client q).call = (s.client q).call := fun q => rfl
  have hnone : ∀ q, ¬ Unanswered (s'.client q).thread := fun q hq => by
    by_cases hu : Unanswered (s.client q).thread
    · rw [hwoken q hu] at hq
      exact not_unanswered_post suffix_rfl false hq
    · rw [hrest q hu] at hq
      exact hu hq
  have hquiet : Quiet s'.server := .inl rfl
  obtain ⟨p, hp⟩ := h.asked (.serving (o := .close) hsv (by simp [suffix_cons_iff]) (by simp))
  refine ⟨fun q => ?_, fun q hq => ?_, .inl hquiet, fun q _ hq => absurd hq (hnone q),
    fun q hq => absurd hq (hnone q), fun hw => absurd hquiet hw.not_quiet, fun _ => .inr ⟨p, ?_⟩⟩
  · rw [hcall q]
    by_cases hu : Unanswered (s.client q).thread
    · refine .leaving (hwoken q hu) suffix_rfl ?_
      cases (s.client q).call <;> simp [Call.post]
    · rw [hrest q hu]; exact h.stage q
  · rw [hcall q]
    refine h.noMkdir q fun h0 => hq ?_
    rw [hrest q fun hu => by simp [Unanswered, h0] at hu, h0]
  · rw [hwoken p hp]; exact unlocks_post _

omit [DecidableEq ι] in
/-- A step of the server. -/
theorem Live.serverStep (h : Live s) (hprompt : Prompt s (.server r))
    (hs : s.serverStep r = some s') : Live s' := by
  rcases h.server with hq | hw
  · obtain ⟨t, ht, rfl⟩ := hq.step hs
    refine h.serve (t := t) (k := s.locked) rfl (.inl ht) (fun hw => absurd hq hw.not_quiet)
      (fun hw => absurd ht hw.not_quiet) (fun he => ?_)
      fun hl => .inr ⟨hl, fun hr => absurd hr (not_responding_of_quiet hq)⟩
    simp [State.serverStep, he] at hs
  have hexit : ∀ t, s.server = ⟨[exit], false⟩ → t = (⟨[exit], false⟩ : Thread) := fun t he => by
    simp [State.serverStep, he] at hs
  cases hw with
  | woken hsv =>
    simp only [State.serverStep, hsv, Option.some.injEq] at hs
    subst hs
    have hnr : ¬ Responding s.server := by simp [hsv, Responding]
    -- the operation may be anything here, as another client may be writing already
    have hbranch : Working ⟨branch s.request.operation, false⟩ ∨
        (⟨branch s.request.operation, false⟩ : Thread) = ⟨[exit], false⟩ := by
      rcases s.request.operation with _ | o
      · exact .inr rfl
      · by_cases ho : o = .restore
        · exact .inr (by rw [ho]; rfl)
        · rw [branch_of_ne ho]
          exact .inl (.serving rfl suffix_rfl (by simp))
    refine h.serve (k := s.locked) rfl ?_ (fun _ => hbranch) (fun _ => .woken hsv) (hexit _)
      fun hl => .inr ⟨hl, fun hr => absurd hr hnr⟩
    exact hbranch.elim .inr fun he => .inl (.inr (.inr he))
  | @serving o l hsv hl h0 =>
    have hw : Working s.server := .serving hsv hl h0
    have hsub : ∀ l' ≠ [], l' <:+ l → Working ⟨l', false⟩ :=
      fun l' h0 hl' => .serving rfl (hl'.trans hl) h0
    obtain ⟨i, rest, rfl⟩ := exists_cons_of_ne_nil h0
    simp only [suffix_cons_iff, suffix_nil, cons.injEq, reduceCtorEq,
      or_false] at hl
    rcases hl with ⟨rfl, rfl⟩ | ⟨rfl, rfl⟩ | ⟨rfl, rfl⟩ | ⟨rfl, rfl⟩
    · simp only [State.serverStep, hsv, Option.some.injEq] at hs
      subst hs
      have hw' := hsub [mutex_lock .resp, exec o, cv_signal .resp] (by simp) (suffix_cons ..)
      refine h.serve rfl (.inr hw') (fun _ => .inl hw') (fun _ => hw) (hexit _)
        fun hl => .inr ⟨?_, ?_⟩
      · simpa [setLock] using hl
      · simp [hsv, Responding]
    · simp only [State.serverStep, hsv] at hs
      split at hs <;> cases hs
      have hw' := hsub [exec o, cv_signal .resp] (by simp) (suffix_cons ..)
      exact h.serve rfl (.inr hw') (fun _ => .inl hw') (fun _ => hw) (hexit _)
        fun _ => .inl (.inl ⟨o, rfl⟩)
    · simp only [State.serverStep, hsv, Option.some.injEq] at hs
      subst hs
      have hw' := hsub [cv_signal .resp] (by simp) (suffix_cons ..)
      exact h.serve (k := s.locked) rfl (.inr hw') (fun _ => .inl hw') (fun _ => hw) (hexit _)
        fun _ => .inl (.inr rfl)
    · simp only [State.serverStep, hsv, Option.some.injEq] at hs
      subst hs
      exact h.respond hsv (hprompt (by rw [hsv]))

/-- A client begins a call. -/
theorem Live.call (h : Live s) (hp : (s.client p).thread.code = []) {c : Call}
    (hc : c.op ≠ .mkdir) : Live ({ s with calls := s.calls + 1 }.setClient p
      { thread := ⟨c.code, false⟩, call := c, id := s.calls, retval := 0 }) := by
  refine h.move (p := p) rfl (fun q hq => ?_) (.entering ?_) (fun _ => ?_)
    (iff_of_false ?_ fun hu => ?_) fun hl => ⟨hl, fun hu => ?_⟩
  · simp [State.setClient, hq]
  · simp [State.setClient]
  · simpa [State.setClient] using hc
  · simpa [State.setClient] using not_unanswered_of_mem (signal_mem_code c)
  · simp [Unanswered, hp] at hu
  · simp [Unlocks, hp] at hu

omit [DecidableEq ι] in
theorem live_initial : Live (initial ι) where
  stage _ := .idle rfl
  noMkdir _ h := absurd rfl h
  server := .inl (.inl rfl)
  one _ _ h := by simp [initial, Unanswered] at h
  busy _ h := by simp [initial, Unanswered] at h
  asked h := absurd (.inl rfl) h.not_quiet
  held h := by simp [initial] at h

end

/-- **With prompt signals nobody gets stuck.** In every run in which the server is waiting whenever
a client signals, the clients that want an answer are waiting whenever the server signals, and
nobody calls `fss_mkdir`, a state in which a client waits for an answer is never one in which the
server and every client in a call are blocked. -/
theorem unstuck_of_prompt [DecidableEq ι] {s : State ι}
    (h : ((system ι).restrict Prompt).Reach s) : ¬ Stuck s := by
  have hL : Live s := h.invariant
    (fun s hs => by
      obtain rfl : s = initial ι := hs
      exact live_initial)
    (fun s a s' hL hs => by
      cases a with
      | call p c =>
        have hs' := hs.2
        simp only [system, System.ofNext, next] at hs'
        split at hs' <;> cases hs'
        exact hL.call ‹_› hs.1
      | client p => exact hL.client hs.1 hs.2
      | server r => exact hL.serverStep hs.1 hs.2)
  exact hL.not_stuck

/-- Two clients, the second of which writes its request while the first is answered. -/
def overlapping : List (Act (Fin 2)) :=
  [[.server 0, .server 0, .call 0 (.open [97] 0)], .replicate 6 (.client 0),
    .replicate 2 (.server 3),
    [.call 1 (.close 4)], .replicate 3 (.client 1), .replicate 5 (.server 3),
    .replicate 2 (.client 1), .replicate 2 (.server 0)].flatten

/-- `unstuck_of_prompt` on the run of `overlapping`: client 1 waits for its answer while the server
waits for the mutex that client 0 has still to unlock. -/
theorem unstuck_overlapping : ∃ s, ((system (Fin 2)).restrict Prompt).Reach s ∧
    Unanswered (s.client 1).thread ∧ s.server.code.head? = some (mutex_lock .resp) ∧
    s.locked .resp = true ∧ ¬ Stuck s := by
  obtain ⟨s, hreach, h1, h2, h3⟩ := (system (Fin 2)).exists_reach Prompt next (initial (Fin 2))
    overlapping
    (Q := fun s => Unanswered (s.client 1).thread ∧ s.server.code.head? = some (mutex_lock .resp) ∧
      s.locked .resp = true)
    rfl rfl (by decide +kernel)
  exact ⟨s, hreach, h1, h2, h3, unstuck_of_prompt hreach⟩

/-- One client signals before the server has come to its `cv_wait`. -/
def lostSignal : List (Act (Fin 1)) :=
  [[.server 0, .call 0 (.close 3)], .replicate 5 (.client 0), [.server 0]].flatten

/-- **The server and its clients can get stuck.** After the run of `lostSignal` the request of the
only client is signalled and not executed, and the server and the client wait for each other. -/
theorem not_unstuck : ¬ ∀ s, (system (Fin 1)).Reach s → ¬ Stuck s := by
  intro H
  obtain ⟨s, hreach, h0, hw, hsv⟩ := (system (Fin 1)).exists_run next (initial (Fin 1)) lostSignal
    (Q := fun s => Unanswered (s.client 0).thread ∧ (s.client 0).thread.waiting = true ∧
      s.server.waiting = true)
    rfl rfl (by decide +kernel)
  refine H s hreach ⟨⟨0, h0⟩, .inl hsv, fun p => .inr (.inl ?_)⟩
  rwa [Fin.fin_one_eq_zero p]

end Msboss.Fss
