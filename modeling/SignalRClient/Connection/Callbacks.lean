import SignalRClient.Connection.Shutdown

/-!
# Late callbacks of a transport

The callbacks of a transport look at the token source they have captured, and then act on whatever
session is current.  Between the two the user may stop the connection and start it again; and the
source of a session whose start has failed is never cancelled, so that its callbacks pass their check
for good.

* `reconnect_own` — an error reconnects the session of its transport;
* `no_stray_message` — a response is processed in the session of its transport.
-/

namespace SignalRClient.Connection

open Threads

/-! ## Errors -/

/-- An error callback gets to the compare-and-swap of `reconnect()` before a start has moved to
connecting since its check, and its own session has not failed. -/
def Fresh (s : State Mem Pc) (a : Act Input) : Prop :=
  ∀ n k c, s.pc a.thread = .error n k c .cas → s.mem.connState = .connected →
    k = s.mem.sessions ∧ s.mem.failed n = false

/-- From the capture of the token source on. -/
def ErrorPc.captured : ErrorPc → Bool
  | .unlock | .callback => true
  | _ => false

theorem runError_captured {m m' : Mem} {n k c n' k' c' : ℕ} {q q' : ErrorPc} {o : Outcome}
    (h : runError m n k c q o = some (m', .error n' k' c' q')) :
    n' = n ∧ (q' = .capture → q = .cas ∧ m.connState = .connected ∧ m'.sessions = m.sessions) ∧
      (q'.captured = true → (q = .capture ∧ c' = m.disconnectCts) ∨ (q.captured = true ∧ c' = c)) := by
  cases q <;> simp only [runError] at h <;> repeat' (split at h)
  all_goals simp only [reduceCtorEq, Option.some.injEq, Prod.mk.injEq, Pc.error.injEq, and_false] at h
  all_goals obtain ⟨rfl, rfl, -, rfl, rfl⟩ := h
  case cas.isTrue hc => exact ⟨rfl, fun _ => ⟨rfl, hc, rfl⟩, by simp [ErrorPc.captured]⟩
  case capture => exact ⟨rfl, by simp, fun _ => .inl ⟨rfl, rfl⟩⟩
  case unlock => exact ⟨rfl, by simp, fun _ => .inr ⟨rfl, rfl⟩⟩
  all_goals exact ⟨rfl, by simp, by simp [ErrorPc.captured]⟩

theorem next_error_pc {t : ℕ} {m m' : Mem} {p : Pc} {i : Input} {n k c : ℕ} {q' : ErrorPc}
    (h : next t m p i = some (m', .error n k c q')) :
    q' = .check ∨ ∃ n₀ k₀ c₀ q o, p = .error n₀ k₀ c₀ q ∧ runError m n₀ k₀ c₀ q o = some (m', .error n k c q') := by
  cases next_leads h with
  | @enter k _ _ _ _ hp =>
    cases k <;> cases hp
    exact .inl rfl
  | error h' => exact .inr ⟨_, _, _, _, _, rfl, h'⟩

/-- What an error callback that is about to reconnect belongs to. -/
theorem current_of_fresh {s : State Mem Pc} (h : prog.Reach OnTime s) {a : Act Input} (ha : Fresh s a)
    {n k c : ℕ} (hp : s.pc a.thread = .error n k c .cas) (hc : s.mem.connState = .connected) :
    n = s.mem.sessions := by
  obtain ⟨hk, hf⟩ := ha n k c hp hc
  rcases (((ledger_holds h).loc a.thread).checked n k (by rw [hp]; rfl)).2.2 with e | e
  · rw [e, hk]
  · rw [hf] at e
    cases e

theorem captured_holds {s : State Mem Pc} (h : prog.Reach (fun s a => OnTime s a ∧ Fresh s a) s) (t : ℕ)
    {n k c : ℕ} {q : ErrorPc} (ht : s.pc t = .error n k c q) :
    (q = .capture → n = s.mem.sessions) ∧ (q.captured = true → c = n) := by
  revert n k c q ht
  refine h.each (L := fun _ m p => ∀ {n k c : ℕ} {q : ErrorPc}, p = .error n k c q →
    (q = .capture → n = m.sessions) ∧ (q.captured = true → c = n)) (fun _ _ _ _ _ hp => by cases hp)
    (fun s a m' p' hr ha ih hn => ?_) t
  have hr' := hr.mono fun _ _ h => h.1
  have hl := life_holds hr'
  refine ⟨fun {n k c q} hp => ?_, fun u hu {n k c q} hp => ?_⟩
  · subst hp
    rcases next_error_pc hn with rfl | ⟨n₀, k₀, c₀, q₀, o, hp₀, h'⟩
    · exact ⟨nofun, nofun⟩
    · obtain ⟨rfl, hcap, hc⟩ := runError_captured h'
      refine ⟨fun hq => ?_, fun hq => ?_⟩
      · obtain ⟨rfl, hcn, hse⟩ := hcap hq
        rw [hse]
        exact current_of_fresh hr' ha.2 hp₀ hcn
      · rcases hc hq with ⟨rfl, rfl⟩ | ⟨hq₀, rfl⟩
        · rw [(ih _ hp₀).1 rfl]
          exact source_of_locked hr' (by rw [hp₀]; rfl) (by rw [hp₀]; rfl)
        · exact (ih _ hp₀).2 hq₀
  · refine ⟨fun hq => ?_, (ih u hp).2⟩
    rcases (next_writes hn).sessions with e | ⟨-, -, n', c', e, -⟩
    · rw [e]
      exact (ih u hp).1 hq
    · -- a new session cannot begin: the callback holds the lock
      have := (hl.pair a.thread u hu.symm).lock (by rw [e]; rfl)
      rw [hp, hq] at this
      cases this

/-- What the errors of the transport of session `n` do to the state. -/
structure ReconnectsOwn (s : State Mem Pc) (a : Act Input) (s' : State Mem Pc) : Prop where
  /-- a connection is lost by the error of the transport of the current session -/
  change : s.mem.connState = .connected → s'.mem.connState = .reconnecting →
    ∃ k c, s.pc a.thread = .error s.mem.sessions k c .cas
  /-- the reconnecting callback runs for the session of the transport -/
  callback : ∀ t n k c, s.pc t = .error n k c .callback → c = n

theorem next_lose {t : ℕ} {m m' : Mem} {p p' : Pc} {i : Input} (h : next t m p i = some (m', p'))
    (hc : m.connState = .connected) (hc' : m'.connState = .reconnecting) :
    ∃ n k c, p = .error n k c .cas := by
  rcases (next_writes h).state with e | hch
  · rw [e, hc] at hc'
    cases hc'
  · rw [hc'] at hch
    cases hch
    exact ⟨_, _, _, rfl⟩

/-- **An error reconnects its own session.** -/
theorem reconnect_own {s s' : State Mem Pc} {a : Act Input}
    (h : prog.Reach (fun s a => OnTime s a ∧ Fresh s a) s) (ha : Fresh s a)
    (hs : prog.step s a = some s') : ReconnectsOwn s a s' := by
  have hr := h.mono fun _ _ h => h.1
  obtain ⟨m', p', hn, rfl⟩ := Program.step_eq_some.mp hs
  refine ⟨fun hc hc' => ?_, fun t n k c hp => (captured_holds h t hp).2 rfl⟩
  obtain ⟨n, k, c, hp⟩ := next_lose hn hc hc'
  rw [← current_of_fresh hr ha hp hc]
  exact ⟨k, c, hp⟩

def fresh : Test Fresh where
  test s a :=
    match s.pc a.thread with
    | .error n k _ .cas => k = s.mem.sessions && !s.mem.failed n
    | _ => true
  sound h n k c hp _ := by simpa [hp] using h

theorem reconnect_own_lost : ∃ s s', ReconnectsOwn s (task 2 .ok) s' ∧
    s.mem.connState = .connected ∧ s'.mem.connState = .reconnecting := by
  obtain ⟨s, hr, hf⟩ := prog.exists_of_run (onTime.and fresh)
    (started 0 1 1 ++ [call 2 (.error 1)] ++ tasks 2 4)
    (fun s => (s.mem.connState, fresh.test s (task 2 .ok), (prog.step s (task 2 .ok)).map (·.mem.connState)))
    (.connected, true, some .reconnecting) rfl
  simp only [Prod.mk.injEq, Option.map_eq_some_iff] at hf
  obtain ⟨hc, ha, s', hs', hc'⟩ := hf
  exact ⟨s, s', reconnect_own hr (fresh.sound ha) hs', hc, hc'⟩

/-- An error callback of session 1 passes its check (thread 2); before it gets the lock, the user stops
the connection (thread 3) and starts it again. -/
def lateError : List (Act Input) :=
  started 0 1 1 ++ [call 2 (.error 1)] ++ tasks 2 2 ++ [call 3 .stop] ++ tasks 3 15 ++ started 4 5 2

theorem lateError_reconnects :
    ¬ ∀ s s' a, prog.Reachable s → prog.step s a = some s' → ReconnectsOwn s a s' := by
  intro hall
  obtain ⟨s, hr, hf⟩ := prog.exists_of_run Test.all (lateError ++ tasks 2 2)
    (fun s => (s.mem.connState, s.mem.sessions, s.pc 2, (prog.step s (task 2 .ok)).map (·.mem.connState)))
    (.connected, 2, .error 1 1 0 .cas, some .reconnecting) rfl
  simp only [Prod.mk.injEq, Option.map_eq_some_iff] at hf
  obtain ⟨hc, hse, hp, s', hs', hc'⟩ := hf
  obtain ⟨k, c, hp'⟩ := (hall s s' (task 2 .ok) hr hs').change hc hc'
  have hp₂ : s.pc (task 2 .ok).thread = .error 1 1 0 .cas := hp
  rw [hp₂, hse] at hp'
  cases hp'

/-! ## Messages -/

/-- No transport of a session whose start failed gets a response through its check after a later start
has reset the fields. -/
def NotFailed (s : State Mem Pc) (a : Act Input) : Prop :=
  ∀ n r c, s.pc a.thread = .message n r → s.mem.created n = some c → s.mem.cancelled c = false →
    s.mem.failed n = true → n = s.mem.epoch

/-- No start has reset the fields since the check of the callback that now acts. -/
def NotReset (s : State Mem Pc) (a : Act Input) : Prop :=
  ∀ n k e es, s.pc a.thread = .process n k (e :: es) → k = s.mem.epoch

def InSession (s : State Mem Pc) (a : Act Input) : Prop := OnTime s a ∧ NotFailed s a ∧ NotReset s a

theorem next_process_pc {t : ℕ} {m m' : Mem} {p : Pc} {i : Input} {n k : ℕ} {es : List Effect}
    (h : next t m p i = some (m', .process n k es)) :
    (∃ r c, p = .message n r ∧ m.created n = some c ∧ m.cancelled c = false ∧ k = m.epoch ∧ m' = m) ∨
      ∃ e, p = .process n k (e :: es) ∧ m' = m.effect n e := by
  cases next_leads h with
  | @enter k _ _ _ _ hp => cases k <;> cases hp
  | check hc hcan => exact .inl ⟨_, _, rfl, hc, hcan, rfl, rfl⟩
  | effect => exact .inr ⟨_, rfl, rfl⟩

theorem process_holds {s : State Mem Pc} (h : prog.Reach InSession s) (t : ℕ) {n k : ℕ} {es : List Effect}
    (ht : s.pc t = .process n k es) : n = k := by
  revert n k es ht
  refine h.each (L := fun _ _ (p : Pc) => ∀ {n k : ℕ} {es : List Effect}, p = .process n k es → n = k)
    (fun _ _ _ _ hp => by cases hp) (fun s a m' p' hr ha ih hn => ⟨fun {n k es} hp => ?_, fun u _ {n k es} hp => ih u hp⟩) t
  subst hp
  rcases next_process_pc hn with ⟨r, c, hp, hc, hcan, rfl, -⟩ | ⟨e, hp, -⟩
  · obtain ⟨-, h1, h2⟩ := (ledger_holds (hr.mono fun _ _ h => h.1)).glob.check hc hcan
    rcases h2 with e | e
    · have := (ledger_holds (hr.mono fun _ _ h => h.1)).glob.reset
      omega
    · exact ha.2.1 n r c hp hc hcan e
  · exact ih _ hp

/-- `m_message_id` and `m_groups_token` are empty or come from the transport of the session whose start
has last reset them. -/
structure FieldsFrom (m : Mem) : Prop where
  messageId : (m.messageIdFrom = none ∧ m.messageId = "") ∨ m.messageIdFrom = some m.epoch
  groupsToken : (m.groupsTokenFrom = none ∧ m.groupsToken = "") ∨ m.groupsTokenFrom = some m.epoch

theorem next_fields {t : ℕ} {m m' : Mem} {p p' : Pc} {i : Input} (h : next t m p i = some (m', p'))
    (hf : FieldsFrom m) : FieldsFrom m' ∨ ∃ n k e es, p = .process n k (e :: es) ∧ m' = m.effect n e := by
  rcases (next_records h).fields with ⟨hid, htoken, hidFrom, htokenFrom, hepoch⟩ | ⟨hid, htoken, hidFrom, htokenFrom⟩ | he
  · refine .inl ⟨?_, ?_⟩
    · rw [hid, hidFrom, hepoch]
      exact hf.messageId
    · rw [htoken, htokenFrom, hepoch]
      exact hf.groupsToken
  · exact .inl ⟨.inl ⟨hidFrom, hid⟩, .inl ⟨htokenFrom, htoken⟩⟩
  · exact .inr he

theorem FieldsFrom.effect {m : Mem} (h : FieldsFrom m) (e : Effect) : FieldsFrom (m.effect m.epoch e) := by
  cases e with
  | setGroupsToken g => exact ⟨h.messageId, .inr rfl⟩
  | setMessageId c => exact ⟨.inr rfl, h.groupsToken⟩
  | connectSet => exact ⟨h.messageId, h.groupsToken⟩
  | receive v => exact h

/-- A response is processed in the session that was current at its check. -/
theorem epoch_of_inSession {s : State Mem Pc} (h : prog.Reach InSession s) {a : Act Input}
    (ha : NotReset s a) {n k : ℕ} {e : Effect} {es : List Effect}
    (hp : s.pc a.thread = .process n k (e :: es)) : n = s.mem.epoch :=
  (process_holds h a.thread hp).trans (ha n k e es hp)

theorem fields_hold {s : State Mem Pc} (h : prog.Reach InSession s) : FieldsFrom s.mem := by
  refine h.invariant (J := fun s => FieldsFrom s.mem) ⟨.inl ⟨rfl, rfl⟩, .inl ⟨rfl, rfl⟩⟩
    fun s a m' p' hr ha hi hn => ?_
  rcases next_fields hn hi with hf | ⟨n, k, e, es, hp, rfl⟩
  · exact hf
  · rw [epoch_of_inSession hr ha.2.2 hp]
    exact hi.effect e

/-- What responses do to the fields and to the user. -/
structure NoStray (s : State Mem Pc) (a : Act Input) : Prop where
  fields : FieldsFrom s.mem
  /-- outside the critical section of a start, that is the current session -/
  current : s.mem.stopLock = false ∨ s.mem.connState ≠ .connecting → s.mem.epoch = s.mem.sessions
  /-- a field is changed, or a message delivered, by the transport of that session -/
  effect : ∀ n k e es, s.pc a.thread = .process n k (e :: es) → n = s.mem.epoch

/-- **No stray messages.**  A response has its effects in the session of its transport, in every run in
which no start resets the fields between the check of a callback and its effects, and no transport of a
failed session gets through the check. -/
theorem no_stray_message {s : State Mem Pc} {a : Act Input} (h : prog.Reach InSession s)
    (ha : InSession s a) : NoStray s a := by
  have hr := h.mono fun _ _ h => h.1
  refine ⟨fields_hold h, fun hc => ?_, fun n k e es hp => epoch_of_inSession h ha.2.2 hp⟩
  rcases hc with hl | hc
  · exact epoch_of_unlocked hr hl
  · exact ((ledger_holds hr).glob.current hc).2

def notFailed : Test NotFailed where
  test s a :=
    match s.pc a.thread with
    | .message n _ => !s.mem.failed n
    | _ => true
  sound h n r c hp _ _ hf := by simp [hp, hf] at h

def notReset : Test NotReset where
  test s a :=
    match s.pc a.thread with
    | .process _ k _ => k = s.mem.epoch
    | _ => true
  sound h n k e es hp := by simpa [hp] using h

def inSession : Test InSession := onTime.and (notFailed.and notReset)

theorem no_stray_message_init : ∃ s, NoStray s (task 1 .ok) ∧ s.mem.messageIdFrom = some 1 ∧
    s.mem.messageId = "d-1" ∧ s.pc 1 = .process 1 1 [.connectSet] := by
  obtain ⟨s, hr, hf⟩ := prog.exists_of_run inSession
    ([call 0 .start] ++ tasks 0 8 ++ [task 0 (.negotiated negotiationResponse)] ++ tasks 0 3 ++
      [call 1 (.message 1 (some initMessage))] ++ tasks 1 2)
    (fun s => (inSession.test s (task 1 .ok), s.mem.messageIdFrom, s.mem.messageId, s.pc 1))
    (true, some 1, "d-1", .process 1 1 [.connectSet]) rfl
  simp only [Prod.mk.injEq] at hf
  exact ⟨s, no_stray_message hr (inSession.sound hf.1), hf.2⟩

/-- A response to session 1 passes its check (thread 2); before it is processed, the user stops the
connection (thread 3) and the start of session 2 (thread 4) resets the fields. -/
def lateMessage : List (Act Input) :=
  started 0 1 1 ++ [call 2 (.message 1 (some initMessage))] ++ tasks 2 1 ++ [call 3 .stop] ++ tasks 3 15 ++
    [call 4 .start] ++ tasks 4 6

theorem lateMessage_stray : ¬ ∀ s a, prog.Reachable s → NoStray s a := by
  intro hall
  obtain ⟨s, hr, hf⟩ := prog.exists_of_run Test.all (lateMessage ++ tasks 2 1)
    (fun s => (s.mem.messageIdFrom, s.mem.epoch)) (some 1, 2) rfl
  simp only [Prod.mk.injEq] at hf
  have h := (hall s (task 2 .ok) hr).fields.messageId
  rw [hf.1, hf.2] at h
  simp at h

end SignalRClient.Connection
