import SignalRClient.Connection.Roles

/-!
# The life cycle of a connection

`next_writes` says what a step writes of the members that steer the life cycle, for all that follows.
`Pc.role` says which role of the protocol a thread has at a program counter, and `next_fits` that a
step is a move of the protocol.  One step of the code is none: the failure path of `start()`
publishes disconnected before it signals the event, and a later `start()` can reset the event in
between.  `OnTime` leaves out the late signal; `life_holds` is the protocol over all other runs.
-/

namespace SignalRClient.Connection

open Threads

/-! ## Where a step leads

A thread stays in its activity until that is finished; only an attempt that is given up goes on as a
`stop()`. -/

section

variable {m m' : Mem} {p' : Pc} {o : Outcome}

theorem runStart_pc {n c : ℕ} {q : StartPc} (h : runStart m n c q o = some (m', p')) :
    ∃ n' c' q', p' = .start n' c' q' := by
  cases q <;> simp only [runStart] at h <;> repeat' (split at h)
  all_goals simp only [reduceCtorEq, Option.some.injEq, Prod.mk.injEq] at h
  all_goals exact ⟨_, _, _, h.2.symm⟩

theorem runStop_pc {t : ℕ} {g : Origin} {q : StopPc} (h : runStop t m g q o = some (m', p')) :
    ∃ q', p' = .stop g q' := by
  cases q <;> simp only [runStop] at h <;> repeat' (split at h)
  all_goals simp only [reduceCtorEq, Option.some.injEq, Prod.mk.injEq] at h
  all_goals exact ⟨_, h.2.symm⟩

theorem runError_pc {n k c : ℕ} {q : ErrorPc} (h : runError m n k c q o = some (m', p')) :
    (∃ k' c' q', p' = .error n k' c' q') ∨ p' = .finished ∨ p' = .stop (.reconnect c m.sessions) .lock := by
  cases q <;> simp only [runError] at h <;> repeat' (split at h)
  all_goals simp only [reduceCtorEq, Option.some.injEq, Prod.mk.injEq] at h
  case failSet => exact .inr (.inr h.2.symm)
  all_goals first | exact .inl ⟨_, _, _, h.2.symm⟩ | exact .inr (.inl h.2.symm)

theorem runMessage_pc {n : ℕ} {r : Option Json} (h : runMessage m n r = some (m', p')) :
    m' = m ∧ (p' = .finished ∨ ∃ c, m.created n = some c ∧ m.cancelled c = false ∧
      p' = .process n m.epoch (processEffects r)) := by
  unfold runMessage at h
  split at h
  · cases h
  · rename_i c hc
    split at h <;> simp only [Option.some.injEq, Prod.mk.injEq] at h
    · exact ⟨h.1.symm, .inl h.2.symm⟩
    · rename_i hcan
      exact ⟨h.1.symm, .inr ⟨c, hc, by simpa using hcan, h.2.symm⟩⟩

theorem runTimer_pc {n : ℕ} (h : runTimer m n = some (m', p')) :
    (∃ v, v ≠ .unset ∧ m' = m.completeConnect n v) ∧ p' = .finished := by
  unfold runTimer at h
  split at h <;> simp only [reduceCtorEq, Option.some.injEq, Prod.mk.injEq] at h
  exact ⟨⟨_, by split <;> decide, h.1.symm⟩, h.2.symm⟩

/-- Where an activity begins. -/
def Call.entry : Call → Pc
  | .start => .start 0 0 .lock
  | .stop => .stop .user .lock
  | .message n r => .message n r
  | .error n => .error n 0 0 .check
  | .timer n => .timer n
  | .connectFailed _ => .finished

theorem enter_pc {k : Call} (h : enter m k = some (m', p')) : m'.toLedger = m.toLedger ∧ p' = k.entry := by
  cases k with
  | start | stop => cases h; exact ⟨rfl, rfl⟩
  | message | error | timer | connectFailed =>
    simp only [enter, Option.ite_none_right_eq_some, Option.some.injEq, Prod.mk.injEq] at h
    obtain ⟨-, rfl, rfl⟩ := h
    exact ⟨rfl, rfl⟩

end

/-- The steps of a thread, by its activities. -/
inductive Leads (t : ℕ) (m : Mem) : Pc → Input → Mem → Pc → Prop
  | enter {k : Call} {m' : Mem} {p' : Pc} : enter m k = some (m', p') → m'.toLedger = m.toLedger → p' = k.entry →
      Leads t m .idle (.call k) m' p'
  | start {n c n' c' : ℕ} {q q' : StartPc} {o : Outcome} {m' : Mem} :
      runStart m n c q o = some (m', .start n' c' q') → Leads t m (.start n c q) (.task o) m' (.start n' c' q')
  | stop {g : Origin} {q q' : StopPc} {o : Outcome} {m' : Mem} :
      runStop t m g q o = some (m', .stop g q') → Leads t m (.stop g q) (.task o) m' (.stop g q')
  | error {n k c k' c' : ℕ} {q q' : ErrorPc} {o : Outcome} {m' : Mem} :
      runError m n k c q o = some (m', .error n k' c' q') →
      Leads t m (.error n k c q) (.task o) m' (.error n k' c' q')
  | leave {n k c : ℕ} {q : ErrorPc} {o : Outcome} {m' : Mem} : runError m n k c q o = some (m', .finished) →
      Leads t m (.error n k c q) (.task o) m' .finished
  | giveUp {n k c : ℕ} {q : ErrorPc} {o : Outcome} {m' : Mem} :
      runError m n k c q o = some (m', .stop (.reconnect c m.sessions) .lock) →
      Leads t m (.error n k c q) (.task o) m' (.stop (.reconnect c m.sessions) .lock)
  | late {n : ℕ} {r : Option Json} {o : Outcome} : Leads t m (.message n r) (.task o) m .finished
  | check {n c : ℕ} {r : Option Json} {o : Outcome} : m.created n = some c → m.cancelled c = false →
      Leads t m (.message n r) (.task o) m (.process n m.epoch (processEffects r))
  | effect {n k : ℕ} {e : Effect} {es : List Effect} {o : Outcome} :
      Leads t m (.process n k (e :: es)) (.task o) (m.effect n e) (.process n k es)
  | processed {n k : ℕ} {o : Outcome} : Leads t m (.process n k []) (.task o) m .finished
  | timer {n c : ℕ} {o : Outcome} : m.created n = some c → Leads t m (.timer n) (.task o)
      (m.completeConnect n (if m.cancelled c then .set else .failed)) .finished

section

variable {t : ℕ} {m m' : Mem} {p p' : Pc} {i : Input}

theorem next_leads (h : next t m p i = some (m', p')) : Leads t m p i m' p' := by
  unfold next at h
  split at h
  · cases h
  · split at h
    · obtain ⟨hm, hp⟩ := enter_pc h
      exact .enter h hm hp
    · obtain ⟨_, _, _, rfl⟩ := runStart_pc h
      exact .start h
    · obtain ⟨_, rfl⟩ := runStop_pc h
      exact .stop h
    · rcases runError_pc h with ⟨_, _, _, rfl⟩ | rfl | rfl
      · exact .error h
      · exact .leave h
      · exact .giveUp h
    · obtain ⟨rfl, rfl | ⟨c, hc, hcan, rfl⟩⟩ := runMessage_pc h
      · exact .late
      · exact .check hc hcan
    · rename_i n k es o
      cases es <;> cases h
      · exact .processed
      · exact .effect
    · unfold runTimer at h
      split at h <;> cases h
      exact .timer (by assumption)
    · cases h

theorem next_start {n c : ℕ} {q : StartPc} (h : next t m (.start n c q) i = some (m', p')) :
    ∃ o, i = .task o ∧ runStart m n c q o = some (m', p') := by
  cases next_leads h with
  | start h' => exact ⟨_, rfl, h'⟩

theorem next_stop {g : Origin} {q : StopPc} (h : next t m (.stop g q) i = some (m', p')) :
    ∃ o, i = .task o ∧ runStop t m g q o = some (m', p') := by
  cases next_leads h with
  | stop h' => exact ⟨_, rfl, h'⟩

theorem next_error {n k c : ℕ} {q : ErrorPc} (h : next t m (.error n k c q) i = some (m', p')) :
    ∃ o, i = .task o ∧ runError m n k c q o = some (m', p') := by
  cases next_leads h with
  | error h' | leave h' | giveUp h' => exact ⟨_, rfl, h'⟩

/-- A thread in the middle of a `start()` was in it before. -/
theorem start_of_next {n c : ℕ} {q : StartPc} (h : next t m p i = some (m', .start n c q)) :
    (p = .idle ∧ n = 0 ∧ q = .lock ∧ m' = m) ∨
    ∃ n₀ c₀ q₀ o, p = .start n₀ c₀ q₀ ∧ i = .task o ∧ runStart m n₀ c₀ q₀ o = some (m', .start n c q) := by
  cases next_leads h with
  | @enter k _ _ he _ hp =>
    cases k <;> cases hp
    cases he
    exact .inl ⟨rfl, rfl, rfl, rfl⟩
  | start h' => exact .inr ⟨_, _, _, _, rfl, rfl, h'⟩

end

/-! ## The roles of the program counters -/

def StartPc.role : StartPc → Role
  | .lock | .failSet | .rejected | .started | .failed => {}
  | .cas | .reject => { locked := true }
  | .newCts | .reset => { locked := true, phase := some .connecting }
  | .fields | .unlock => { locked := true, phase := some .connecting, unset := true }
  | .succeedSet => { phase := some .connected, unset := true }
  | _ => { phase := some .connecting, unset := true }

def StopPc.role : StopPc → Role
  | .check | .unlock | .unlockIdle | .unlockCancelled | .contCas _ | .contNull | .contUnlock =>
    { locked := true }
  | .cancel => { locked := true, stopping := true }
  | .wait => { locked := true, stopping := true, cancels := true }
  | .recheck => { locked := true, stopping := true, cancels := true, passed := true }
  | .exchange => { locked := true, stopping := true, cancels := true, passed := true, closing := true }
  | _ => {}

def ErrorPc.role (c : ℕ) : ErrorPc → Role
  | .wait | .quit => { locked := true }
  | .cas => { locked := true, passed := true }
  | .capture => { locked := true, lost := true }
  | .callback | .relock => { watch := some c }
  | .unlock | .recheckCts => { locked := true, watch := some c }
  | .recheckState | .reset => { locked := true, watch := some c, live := true }
  | .release => { locked := true, phase := some .reconnecting, unset := true }
  | .build | .tryCheck | .tryConnect | .tryWait | .tryFailed | .tryWindow | .retryCheck | .okCas
  | .failSet => { phase := some .reconnecting, unset := true }
  | .okSet => { phase := some .connected, unset := true }
  | _ => {}

def Pc.role : Pc → Role
  | .start _ _ p => p.role
  | .stop _ p => p.role
  | .error _ _ c p => p.role c
  | _ => {}

/-- What a step can come from.  Outside `start()`, `stop()` and the error callback a step leaves the
ledger and the roles as they are. -/
theorem next_core {t : ℕ} {m m' : Mem} {p p' : Pc} {i : Input} (h : next t m p i = some (m', p')) :
    (∃ n c q o, p = .start n c q ∧ runStart m n c q o = some (m', p')) ∨
    (∃ g q o, p = .stop g q ∧ runStop t m g q o = some (m', p')) ∨
    (∃ n k c q o, p = .error n k c q ∧ runError m n k c q o = some (m', p')) ∨
    (m'.toLedger = m.toLedger ∧ p.role = {} ∧ p'.role = {}) := by
  cases next_leads h with
  | start h' => exact .inl ⟨_, _, _, _, rfl, h'⟩
  | stop h' => exact .inr (.inl ⟨_, _, _, rfl, h'⟩)
  | error h' | leave h' | giveUp h' => exact .inr (.inr (.inl ⟨_, _, _, _, _, rfl, h'⟩))
  | @enter k _ _ _ hm hp =>
    refine .inr (.inr (.inr ⟨hm, rfl, ?_⟩))
    rw [hp]
    cases k <;> rfl
  | effect => exact .inr (.inr (.inr ⟨by simp, rfl, rfl⟩))
  | _ => exact .inr (.inr (.inr ⟨rfl, rfl, rfl⟩))

/-! ## What a step writes -/

/-- The changes of the state, by the steps that make them. -/
inductive Change (m : Mem) : Pc → ConnectionState → Prop
  | start {n c : ℕ} : m.connState = .disconnected → Change m (.start n c .cas) .connecting
  | started {n c : ℕ} : m.connState = .connecting → Change m (.start n c .succeed) .connected
  | notStarted {n c : ℕ} : Change m (.start n c .failState) .disconnected
  | lost {n k c : ℕ} : m.connState = .connected → Change m (.error n k c .cas) .reconnecting
  | regained {n k c : ℕ} : m.connState = .reconnecting → Change m (.error n k c .okCas) .connected
  | stop {g : Origin} : Change m (.stop g .exchange) .disconnecting
  | stopped {g : Origin} {own : Bool} :
    m.connState = .disconnecting → Change m (.stop g (.contCas own)) .disconnected

/-- Who writes which of the members that steer the life cycle. -/
structure Writes (t : ℕ) (m : Mem) (p : Pc) (m' : Mem) (p' : Pc) : Prop where
  state : m'.connState = m.connState ∨ Change m p m'.connState := by exact .inl rfl
  sessions : m'.sessions = m.sessions ∨ (m'.sessions = m.sessions + 1 ∧ m.connState = .disconnected ∧
    ∃ n c, p = .start n c .cas ∧ p' = .start (m.sessions + 1) c .newCts) := by exact .inl rfl
  transport : m'.transport = m.transport ∨ (∃ n c, p = .start n c .setTransport ∨ p = .start n c .fail) ∨
    (∃ g, p = .stop g .contNull) := by exact .inl rfl
  event : m'.startCompleted = m.startCompleted ∨
    (∃ n c, p = .start n c .reset ∨ p = .start n c .succeedSet ∨ p = .start n c .failSet) ∨
    (∃ n k c, p = .error n k c .okSet ∨ p = .error n k c .failSet) ∨
    (∃ n k c, p = .error n k c .reset ∧ p' = .error n k c .release) := by exact .inl rfl
  cancelled : m'.cancelled = m.cancelled ∨ ((∃ g, p = .stop g .cancel) ∧
    m'.cancelled = Function.update m.cancelled m.disconnectCts true) := by exact .inl rfl
  stopper : m'.stopper = m.stopper ∨ ((∃ g, p = .stop g .exchange) ∧ m'.stopper = some t) := by
    exact .inl rfl

section Writes

variable {t : ℕ} {m m' : Mem} {p p' : Pc} {o : Outcome}

theorem runStart_writes {n c : ℕ} {q : StartPc} (h : runStart m n c q o = some (m', p')) :
    Writes t m (.start n c q) m' p' := by
  cases q <;> simp only [runStart] at h <;> repeat' (split at h)
  all_goals simp only [reduceCtorEq, Option.some.injEq, Prod.mk.injEq] at h
  all_goals obtain ⟨rfl, rfl⟩ := h
  case cas.isTrue hc => exact { state := .inr (.start hc), sessions := .inr ⟨rfl, hc, n, c, rfl, rfl⟩ }
  case reset => exact { event := .inr (.inl ⟨n, c, .inl rfl⟩) }
  case setTransport => exact { transport := .inr (.inl ⟨n, c, .inl rfl⟩) }
  case succeed.isTrue hc => exact { state := .inr (.started hc) }
  case succeedSet => exact { event := .inr (.inl ⟨n, c, .inr (.inl rfl)⟩) }
  case fail => exact { transport := .inr (.inl ⟨n, c, .inr rfl⟩) }
  case failState => exact { state := .inr .notStarted }
  case failSet => exact { event := .inr (.inl ⟨n, c, .inr (.inr rfl)⟩) }
  all_goals exact {}

theorem runStop_writes {g : Origin} {q : StopPc} (h : runStop t m g q o = some (m', p')) :
    Writes t m (.stop g q) m' p' := by
  cases q <;> simp only [runStop] at h <;> repeat' (split at h)
  all_goals simp only [reduceCtorEq, Option.some.injEq, Prod.mk.injEq] at h
  all_goals obtain ⟨rfl, rfl⟩ := h
  case cancel => exact { cancelled := .inr ⟨⟨g, rfl⟩, rfl⟩ }
  case exchange => exact { state := .inr .stop, stopper := .inr ⟨⟨g, rfl⟩, rfl⟩ }
  case contCas.isTrue hc => exact { state := .inr (.stopped hc) }
  case contNull => exact { transport := .inr (.inr ⟨g, rfl⟩) }
  all_goals exact {}

theorem runError_writes {n k c : ℕ} {q : ErrorPc} (h : runError m n k c q o = some (m', p')) :
    Writes t m (.error n k c q) m' p' := by
  cases q <;> simp only [runError] at h <;> repeat' (split at h)
  all_goals simp only [reduceCtorEq, Option.some.injEq, Prod.mk.injEq] at h
  all_goals obtain ⟨rfl, rfl⟩ := h
  case cas.isTrue hc => exact { state := .inr (.lost hc) }
  case reset => exact { event := .inr (.inr (.inr ⟨n, k, c, rfl, rfl⟩)) }
  case okCas.isTrue hc => exact { state := .inr (.regained hc) }
  case okSet => exact { event := .inr (.inr (.inl ⟨n, k, c, .inl rfl⟩)) }
  case failSet => exact { event := .inr (.inr (.inl ⟨n, k, c, .inr rfl⟩)) }
  all_goals exact {}

theorem next_writes {i : Input} (h : next t m p i = some (m', p')) : Writes t m p m' p' := by
  rcases next_core h with ⟨n, c, q, o, rfl, h'⟩ | ⟨g, q, o, rfl, h'⟩ | ⟨n, k, c, q, o, rfl, h'⟩ | ⟨hm, -⟩
  · exact runStart_writes h'
  · exact runStop_writes h'
  · exact runError_writes h'
  · constructor <;> exact .inl (by rw [hm])

/-- Token sources are never un-cancelled. -/
theorem Writes.cancelled_mono (h : Writes t m p m' p') {k : ℕ} (hk : m.cancelled k = true) :
    m'.cancelled k = true := by
  rcases h.cancelled with e | ⟨-, e⟩
  · rwa [e]
  · rw [e]
    by_cases hkc : k = m.disconnectCts
    · simp [hkc]
    · rwa [Function.update_of_ne hkc]

end Writes

/-! ## What a step records -/

/-- Who completes the `connect_request_tce` of session `n`, and how. -/
inductive Completes (m : Mem) : Pc → ℕ → Tce → Prop
  | connectFailed {n : ℕ} : Completes m .idle n .failed
  | error {n k c : ℕ} : Completes m (.error n k c .setException) n .failed
  | init {n k : ℕ} {es : List Effect} : Completes m (.process n k (.connectSet :: es)) n .set
  | timer {n c : ℕ} : m.created n = some c → Completes m (.timer n) n (if m.cancelled c then .set else .failed)

/-- Who writes which of the members that speak of one session. -/
structure Records (m : Mem) (p : Pc) (m' : Mem) (p' : Pc) : Prop where
  created : m'.created = m.created ∨ ∃ n c, p = .start n c .create ∧
    m'.created = Function.update m.created n (some m.disconnectCts) := by exact .inl rfl
  failed : m'.failed = m.failed ∨ ∃ n c, p = .start n c .failState ∧
    m'.failed = Function.update m.failed n true := by exact .inl rfl
  connectTce : m'.connectTce = m.connectTce ∨ ∃ n v, Completes m p n v ∧
    m'.connectTce = (m.completeConnect n v).connectTce := by exact .inl rfl
  timer : m'.timer = m.timer ∨ (∃ n c, p = .start n c .create ∧ m'.timer = Function.update m.timer n true) ∨
    ∃ n, p' = .timer n ∧ m'.timer = Function.update m.timer n false := by exact .inl rfl
  fields : (m'.messageId = m.messageId ∧ m'.groupsToken = m.groupsToken ∧ m'.messageIdFrom = m.messageIdFrom ∧
      m'.groupsTokenFrom = m.groupsTokenFrom ∧ m'.epoch = m.epoch) ∨
    (m'.messageId = "" ∧ m'.groupsToken = "" ∧ m'.messageIdFrom = none ∧ m'.groupsTokenFrom = none) ∨
    ∃ n k e es, p = .process n k (e :: es) ∧ m' = m.effect n e := by exact .inl ⟨rfl, rfl, rfl, rfl, rfl⟩

section Records

variable {t : ℕ} {m m' : Mem} {p p' : Pc} {o : Outcome}

theorem enter_records {k : Call} (h : enter m k = some (m', p')) : Records m .idle m' p' := by
  cases k with
  | start | stop => cases h; exact {}
  | message n r | error n =>
    simp only [enter, Option.ite_none_right_eq_some, Option.some.injEq, Prod.mk.injEq] at h
    obtain ⟨-, rfl, rfl⟩ := h
    exact {}
  | timer n =>
    simp only [enter, Option.ite_none_right_eq_some, Option.some.injEq, Prod.mk.injEq] at h
    obtain ⟨-, rfl, rfl⟩ := h
    exact { timer := .inr (.inr ⟨n, rfl, rfl⟩) }
  | connectFailed n =>
    simp only [enter, Option.ite_none_right_eq_some, Option.some.injEq, Prod.mk.injEq] at h
    obtain ⟨-, rfl, rfl⟩ := h
    exact { connectTce := .inr ⟨n, .failed, .connectFailed, rfl⟩ }

theorem runStart_records {n c : ℕ} {q : StartPc} (h : runStart m n c q o = some (m', p')) :
    Records m (.start n c q) m' p' := by
  cases q <;> simp only [runStart] at h <;> repeat' (split at h)
  all_goals simp only [reduceCtorEq, Option.some.injEq, Prod.mk.injEq] at h
  all_goals obtain ⟨rfl, rfl⟩ := h
  case fields => exact { fields := .inr (.inl ⟨rfl, rfl, rfl, rfl⟩) }
  case failState => exact { failed := .inr ⟨n, c, rfl, rfl⟩ }
  all_goals first
    | exact {}
    | exact { created := .inr ⟨n, c, rfl, rfl⟩, timer := .inr (.inl ⟨n, c, rfl, rfl⟩) }

theorem runStop_records {g : Origin} {q : StopPc} (h : runStop t m g q o = some (m', p')) :
    Records m (.stop g q) m' p' := by
  cases q <;> simp only [runStop] at h <;> repeat' (split at h)
  all_goals simp only [reduceCtorEq, Option.some.injEq, Prod.mk.injEq] at h
  all_goals obtain ⟨rfl, rfl⟩ := h; exact {}

theorem runError_records {n k c : ℕ} {q : ErrorPc} (h : runError m n k c q o = some (m', p')) :
    Records m (.error n k c q) m' p' := by
  cases q <;> simp only [runError] at h <;> repeat' (split at h)
  all_goals simp only [reduceCtorEq, Option.some.injEq, Prod.mk.injEq] at h
  all_goals obtain ⟨rfl, rfl⟩ := h
  case setException => exact { connectTce := .inr ⟨n, .failed, .error, rfl⟩ }
  all_goals exact {}

theorem next_records {i : Input} (h : next t m p i = some (m', p')) : Records m p m' p' := by
  cases next_leads h with
  | enter h' => exact enter_records h'
  | start h' => exact runStart_records h'
  | stop h' => exact runStop_records h'
  | error h' | leave h' | giveUp h' => exact runError_records h'
  | late | check | processed => exact {}
  | @effect n k e es =>
    have hfields : ∃ n' k' e' es', Pc.process n k (e :: es) = .process n' k' (e' :: es') ∧
        m.effect n e = m.effect n' e' := ⟨n, k, e, es, rfl, rfl⟩
    cases e with
    | connectSet => exact { connectTce := .inr ⟨n, .set, .init, rfl⟩, fields := .inr (.inr hfields) }
    | _ => exact { fields := .inr (.inr hfields) }
  | timer hc => exact { connectTce := .inr ⟨_, _, .timer hc, rfl⟩ }

end Records

/-! ## A state that is connecting has a start in progress -/

/-- A thread between the change to connecting and the change out of it. -/
def Pc.connects (p : Pc) : Prop := p.role.phase = some .connecting

instance (p : Pc) : Decidable p.connects := inferInstanceAs (Decidable (_ = _))

section Connects

variable {m m' : Mem} {p' : Pc} {o : Outcome}

theorem runStart_connects {n c : ℕ} {p : StartPc} (h : runStart m n c p o = some (m', p'))
    (hc : m'.connState = .connecting) :
    p'.connects ∨ (m.connState = .connecting ∧ ¬ (Pc.start n c p).connects) := by
  cases p <;> simp only [runStart] at h <;> repeat' (split at h)
  all_goals simp only [reduceCtorEq, Option.some.injEq, Prod.mk.injEq] at h
  all_goals obtain ⟨rfl, rfl⟩ := h
  all_goals simp_all [Pc.connects, Pc.role, StartPc.role]

/-- In every run a step keeps a start in progress, unless it takes the state out of connecting. -/
theorem next_connects {t : ℕ} {p : Pc} {i : Input} (h : next t m p i = some (m', p'))
    (hc : m'.connState = .connecting) : p'.connects ∨ (m.connState = .connecting ∧ ¬ p.connects) := by
  have hst : m.connState = .connecting ∨ ∃ n c, p = .start n c .cas := by
    rcases (next_writes h).state with e | hch
    · exact .inl (e.symm.trans hc)
    · rw [hc] at hch
      cases hch
      exact .inr ⟨_, _, rfl⟩
  rcases next_core h with ⟨n, c, q, o, rfl, h'⟩ | ⟨g, q, o, rfl, -⟩ | ⟨n, k, c, q, o, rfl, -⟩ | ⟨hm, hp, -⟩
  · exact runStart_connects h' hc
  · exact .inr ⟨by simpa using hst, by cases q <;> simp [Pc.connects, Pc.role, StopPc.role]⟩
  · exact .inr ⟨by simpa using hst, by cases q <;> simp [Pc.connects, Pc.role, ErrorPc.role]⟩
  · exact .inr ⟨by rw [← hc, hm], by simp [Pc.connects, hp]⟩

/-- In every run a connecting connection has a start in progress. -/
theorem exists_connects {s : State Mem Pc} (h : prog.Reachable s) (hc : s.mem.connState = .connecting) :
    ∃ t, (s.pc t).connects := by
  revert hc
  refine h.invariant (J := fun s => s.mem.connState = .connecting → ∃ t, (s.pc t).connects) ?_ ?_
  · intro hc; cases hc
  · intro s a m' p' _ _ ih hn hc
    rcases next_connects hn hc with hp | ⟨hm, hp⟩
    · exact ⟨a.thread, by simpa using hp⟩
    · obtain ⟨u, hu⟩ := ih hm
      have hne : u ≠ a.thread := by rintro rfl; exact hp hu
      exact ⟨u, by rwa [State.set_pc_of_ne _ _ _ _ hne]⟩

end Connects

section Steps

variable {m m' : Mem} {p' : Pc} {w : Role} {o : Outcome}

theorem runStart_fits {n c : ℕ} {p : StartPc} (h : runStart m n c p o = some (m', p'))
    (hf : Fits m.toCore p.role w) (hs : p = .failSet → w.unset = false) : Fits m'.toCore p'.role w := by
  cases p <;> simp only [runStart] at h <;> repeat' (split at h)
  all_goals simp only [reduceCtorEq, Option.some.injEq, Prod.mk.injEq] at h
  all_goals obtain ⟨rfl, rfl⟩ := h
  case lock.isFalse hl => exact hf.acquire (by simpa using hl)
  case cas.isTrue hc => exact hf.begin hc
  case reject => exact hf.release rfl rfl (by simp [StartPc.role])
  case newCts => exact hf.renew
  case reset => exact hf.resetStart
  case unlock => exact hf.release rfl rfl (by simp [StartPc.role])
  case succeed.isTrue => exact hf.succeed
  case succeed.isFalse hc => exact absurd (hf.loc.phase _ rfl) hc
  case succeedSet => exact hf.signal (hf.alone (by simp [StartPc.role]))
  case setTransport => exact hf.setTransport _
  case fail => exact hf.setTransport _
  case failState => exact hf.publish
  case failSet => exact hf.signal (hs rfl)
  -- the other steps change neither the role nor what the protocol speaks of
  all_goals exact hf

theorem runStop_fits {t : ℕ} {g : Origin} {p : StopPc} (h : runStop t m g p o = some (m', p'))
    (hf : Fits m.toCore p.role w) (hc : p = .wait → m.startCompleted = true → m.connState ≠ .connecting) :
    Fits m'.toCore p'.role w := by
  cases p <;> simp only [runStop] at h <;> repeat' (split at h)
  all_goals simp only [reduceCtorEq, Option.some.injEq, Prod.mk.injEq] at h
  all_goals obtain ⟨rfl, rfl⟩ := h
  case lock.isFalse hl => exact hf.acquire (by simpa using hl)
  case check.isFalse.isFalse hd => exact hf.look hd
  case cancel => exact hf.cancel
  case wait.isTrue he => exact hf.pass rfl he rfl (hc rfl he)
  case recheck.isTrue => exact hf.drop
  case recheck.isFalse hd => exact hf.settle hd
  case exchange => exact hf.exchange
  case unlock => exact hf.release rfl rfl (by simp [StopPc.role])
  case unlockIdle => exact hf.release rfl rfl (by simp [StopPc.role])
  case unlockCancelled => exact hf.release rfl rfl (by simp [StopPc.role])
  case contLock.isFalse hl => exact hf.acquire (by simpa using hl)
  case contCas.isTrue hd => exact hf.finish hd
  case contNull => exact hf.setTransport _
  case contUnlock => exact hf.release rfl rfl (by simp [StopPc.role])
  all_goals exact hf

theorem runError_fits {n k c : ℕ} {p : ErrorPc} (h : runError m n k c p o = some (m', p'))
    (hf : Fits m.toCore (p.role c) w) (hc : p = .wait → m.startCompleted = true → m.connState ≠ .connecting) :
    Fits m'.toCore p'.role w := by
  cases p <;> simp only [runError] at h <;> repeat' (split at h)
  all_goals simp only [reduceCtorEq, Option.some.injEq, Prod.mk.injEq] at h
  all_goals obtain ⟨rfl, rfl⟩ := h
  case lock.isFalse hl => exact hf.acquire (by simpa using hl)
  case wait.isTrue he => exact hf.pass rfl he rfl (hc rfl he)
  case cas.isTrue hc => exact hf.lose hc
  case cas.isFalse => exact hf.drop
  case capture => exact hf.capture
  case unlock => exact hf.release rfl rfl (by simp [ErrorPc.role])
  case relock.isFalse hl => exact hf.acquire (by simpa using hl)
  case recheckCts.isTrue => exact hf.drop
  case recheckCts.isFalse hl => exact hf.recheck (by simpa using hl)
  case recheckState.isFalse => exact hf.drop
  case reset => exact hf.attempt
  case release => exact hf.release rfl rfl (by simp [ErrorPc.role])
  case quit => exact hf.release rfl rfl (by simp [ErrorPc.role])
  case okCas.isTrue => exact hf.regain
  case okCas.isFalse hc => exact absurd (hf.loc.phase _ rfl) hc
  case okSet => exact hf.signal (hf.alone (by simp [ErrorPc.role]))
  case failSet => exact hf.signal (hf.alone (by simp [ErrorPc.role]))
  all_goals first | exact hf | exact hf.drop

/-- **Every step but a late signal is a move of the protocol.** -/
theorem next_fits {t : ℕ} {p : Pc} {i : Input} (h : next t m p i = some (m', p'))
    (hf : Fits m.toCore p.role w) (hs : ∀ n c, p = .start n c .failSet → w.unset = false)
    (hc : p.role.locked = true → p.role.phase = none → m.startCompleted = true → m.connState ≠ .connecting) :
    Fits m'.toCore p'.role w := by
  rcases next_core h with ⟨n, c, q, o, rfl, h'⟩ | ⟨g, q, o, rfl, h'⟩ | ⟨n, k, c, q, o, rfl, h'⟩ |
    ⟨hm, hp, hp'⟩
  · exact runStart_fits h' hf fun hq => hs n c (by rw [hq])
  · exact runStop_fits h' hf fun hq => by subst hq; exact hc rfl rfl
  · exact runError_fits h' hf fun hq => by subst hq; exact hc rfl rfl
  · rw [hm, hp']; exact hp ▸ hf

end Steps

/-! ## The protocol over runs -/

/-- The failure path of a `start()` does not signal `m_start_completed_event` while a later start or a
reconnect attempt that has reset the event is still to signal it. -/
def OnTime (s : State Mem Pc) (a : Act Input) : Prop :=
  ∀ n c, s.pc a.thread = .start n c .failSet → ∀ u, (s.pc u).role.unset = false

def onTime : Test OnTime where
  test s a :=
    match s.pc a.thread with
    | .start _ _ .failSet => false
    | _ => true
  sound h n c hp := by simp [hp] at h

def life : Outline Mem Pc where
  glob _ := True
  loc _ m p := p.role.Loc m.toCore
  pair m p q := p.role.Pair m.toCore q.role

theorem life_fits {s : State Mem Pc} (h : life.Holds s) {t u : ℕ} (hu : u ≠ t) :
    Fits s.mem.toCore (s.pc t).role (s.pc u).role :=
  ⟨h.loc t, h.loc u, h.pair t u hu.symm, h.pair u t hu⟩

/-- Who holds the lock and sees the event signaled sees a state other than connecting. -/
theorem not_connecting_of_signaled {s : State Mem Pc} (hr : prog.Reachable s) (h : life.Holds s) {t : ℕ}
    (hl : (s.pc t).role.locked = true) (hp : (s.pc t).role.phase = none)
    (he : s.mem.startCompleted = true) : s.mem.connState ≠ .connecting := by
  intro hc
  obtain ⟨u, hu⟩ := exists_connects hr hc
  have hne : u ≠ t := by
    rintro rfl
    rw [Pc.connects, hp] at hu
    cases hu
  have hph : (s.pc u).role.phase ≠ none := by rw [hu]; simp
  rcases (h.loc u).reset hph with hun | hul
  · have := ((h.loc u).unset hun).1
    rw [he] at this
    cases this
  · have := (h.pair t u hne.symm).lock hl
    rw [hul] at this
    cases this

/-- **The protocol holds in every run without a late signal.** -/
theorem life_holds {s : State Mem Pc} (h : prog.Reach OnTime s) : life.Holds s := by
  refine Outline.holds_of_reach ?_ ?_ h
  · refine ⟨trivial, fun t => ?_, fun t u _ => ?_⟩
    · constructor <;> simp [prog, Program.init, Pc.role, Role.Owns]
    · constructor <;> simp [prog, Program.init, Pc.role, Role.Owns]
  · intro s a m' p' hr ha hi hn
    have hf : ∀ u, u ≠ a.thread → Fits m'.toCore p'.role (s.pc u).role := fun u hu =>
      next_fits hn (life_fits hi hu) (fun n c hp => ha n c hp u)
        (not_connecting_of_signaled hr.reachable hi)
    exact
      { glob := trivial
        loc := (hf (a.thread + 1) (by omega)).loc
        other := fun u hu => (hf u hu).other
        left := fun u hu => (hf u hu).left
        right := fun u hu => (hf u hu).right
        others := fun q r => Role.Pair.mono fun k hk => (next_writes hn).cancelled_mono hk }

/-! ## Legal changes of the state -/

/-- The life cycle. -/
inductive Legal : ConnectionState → ConnectionState → Prop
  | start : Legal .disconnected .connecting
  | started : Legal .connecting .connected
  | notStarted : Legal .connecting .disconnected
  | lost : Legal .connected .reconnecting
  | regained : Legal .reconnecting .connected
  | stop : Legal .connected .disconnecting
  | stopLost : Legal .reconnecting .disconnecting
  | stopped : Legal .disconnecting .disconnected

/-- What the life cycle asks of a step from `s` to `s'`: a change of the state is legal, the two
unconditional changes happen from the states they are meant for, and the two branches for an
unexpected state are not taken. -/
structure LegalStep (s : State Mem Pc) (a : Act Input) (s' : State Mem Pc) : Prop where
  change : s'.mem.connState = s.mem.connState ∨ Legal s.mem.connState s'.mem.connState
  fail : ∀ n c, s.pc a.thread = .start n c .failState → s.mem.connState = .connecting
  shutdown : ∀ g, s.pc a.thread = .stop g .exchange →
    s.mem.connState = .connected ∨ s.mem.connState = .reconnecting
  started : ∀ n c, s.pc a.thread = .start n c .succeed → s.mem.connState = .connecting
  regained : ∀ n k c, s.pc a.thread = .error n k c .okCas → s.mem.connState = .reconnecting

theorem Change.legal {m : Mem} {p : Pc} {x : ConnectionState} (h : Change m p x) (hl : p.role.Loc m.toCore) :
    Legal m.connState x := by
  cases h with
  | start hc => rw [hc]; exact .start
  | started hc => rw [hc]; exact .started
  | notStarted =>
    have hc : m.connState = .connecting := hl.phase _ rfl
    rw [hc]; exact .notStarted
  | lost hc => rw [hc]; exact .lost
  | regained hc => rw [hc]; exact .regained
  | stop =>
    rcases (hl.closing rfl).2.2.2 with hc | hc
    · rw [hc]; exact .stop
    · rw [hc]; exact .stopLost
  | stopped hc => rw [hc]; exact .stopped

/-- **The life cycle.**  In a run in which no failing start signals late, every step is legal. -/
theorem step_legal {s s' : State Mem Pc} {a : Act Input} (h : prog.Reach OnTime s)
    (hs : prog.step s a = some s') : LegalStep s a s' := by
  have hl := (life_holds h).loc a.thread
  obtain ⟨m', p', hn, rfl⟩ := Program.step_eq_some.mp hs
  refine ⟨?_, fun n c hp => ?_, fun g hp => ?_, fun n c hp => ?_, fun n k c hp => ?_⟩
  · exact (next_writes hn).state.imp_right fun hch => hch.legal hl
  · exact hl.phase .connecting (by rw [hp]; rfl)
  · exact (hl.closing (by rw [hp]; rfl)).2.2.2
  · exact hl.phase .connecting (by rw [hp]; rfl)
  · exact hl.phase .reconnecting (by rw [hp]; rfl)

/-- A start that succeeds: it moves the state from connecting to connected. -/
theorem step_legal_started : ∃ s s', LegalStep s (task 0 .ok) s' ∧
    s.mem.connState = .connecting ∧ s'.mem.connState = .connected := by
  obtain ⟨s, hr, hf⟩ := prog.exists_of_run onTime (starting 0 1 1)
    (fun s => (s.mem.connState, (prog.step s (task 0 .ok)).map (·.mem.connState)))
    (.connecting, some .connected) rfl
  simp only [Prod.mk.injEq, Option.map_eq_some_iff] at hf
  obtain ⟨hc, s', hs', hc'⟩ := hf
  exact ⟨s, s', step_legal hr hs', hc, hc'⟩

/-- A start fails and is about to signal the event; a second start gets to connecting and resets the
event; now the first one signals it, and a `stop()` no longer waits for the second. -/
def lateSignal : List (Act Input) :=
  [call 0 .start] ++ tasks 0 8 ++ [task 0 .fault] ++ tasks 0 2 ++
  [call 1 .start] ++ tasks 1 6 ++ tasks 0 1 ++ [call 2 .stop] ++ tasks 2 5

/-- With the late signal the life cycle is left: `stop()` moves a connecting connection to disconnecting. -/
theorem lateSignal_illegal :
    ¬ ∀ s s' a, prog.Reachable s → prog.step s a = some s' → LegalStep s a s' := by
  intro hall
  obtain ⟨s, hr, hf⟩ := prog.exists_of_run Test.all lateSignal
    (fun s => (s.pc 2, s.mem.connState, (prog.step s (task 2 .ok)).isSome))
    (.stop .user .exchange, .connecting, true) rfl
  simp only [Prod.mk.injEq] at hf
  obtain ⟨hpc, hc, hstep⟩ := hf
  obtain ⟨s', hs'⟩ := Option.isSome_iff_exists.mp hstep
  have hsh := (hall s s' (task 2 .ok) hr hs').shutdown .user hpc
  rw [hc] at hsh
  simp at hsh

end SignalRClient.Connection
