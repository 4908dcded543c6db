import SignalRClient.Connection.Lifecycle

/-!
# Who signals `m_start_completed_event`

`shutdown()` and `reconnect()` wait for the event with `m_stop_lock` held.  While the event is
unsignaled a start or a reconnect attempt is on its way to signal it, and on that way it neither takes
the lock nor waits for the event (`WillSignal`).

The way ends before the signal when an exception gets past the handlers: `try_reconnect()` is assumed
not to throw, and `start()` handles std exceptions only.  `Handled` leaves these out.  No other
condition is needed: `event_live` is about all runs, in whatever order the threads step.
-/

namespace SignalRClient.Connection

open Threads

/-- A start that has moved the state to connecting, or an attempt that has reset the event, until it
signals the event. -/
def Pc.signals : Pc → Bool
  | .start _ _ p => (p ≠ .broken) && (decide (p.role.phase ≠ none) || p = .failSet)
  | .error _ _ c p => decide ((p.role c).phase ≠ none)
  | _ => false

/-- The number of steps to the signal, as long as the attempt is not repeated. -/
def Pc.rank : Pc → ℕ
  | .start _ _ p => match p with
    | .newCts => 17 | .reset => 16 | .fields => 15 | .unlock => 14 | .attach => 13 | .negotiate => 12
    | .negotiating => 11 | .startTransport _ => 10 | .create => 9 | .connect => 8 | .connecting => 7
    | .setTransport => 6 | .startRequest => 5 | .startRequesting => 4 | .fail => 3
    | .succeed | .failState => 2 | _ => 1
  | .error _ _ _ p => match p with
    | .release => 9 | .build => 8 | .retryCheck => 8 | .tryCheck => 7 | .tryConnect => 6 | .tryWait => 5
    | .tryFailed => 4 | .tryWindow => 3 | .okCas => 2 | _ => 1
  | _ => 0

/-- The step meets no exception that the code does not handle. -/
def Handled (p : Pc) (i : Input) : Prop :=
  (∀ n c q, p = .start n c q → i ≠ .task .throwsOther ∧ i ≠ .task .faultOther) ∧
    (∀ n k c, p = .error n k c .tryConnect → i ≠ .task .throws ∧ i ≠ .task .throwsOther) ∧
    ∀ n k c, p = .error n k c .tryWait → i ≠ .task .faultOther

/-! ## One step on the way -/

section Steps

variable {m m' : Mem} {p' : Pc} {o : Outcome}

theorem runStart_signals {n c : ℕ} {p : StartPc} (h : runStart m n c p o = some (m', p'))
    (hp : (Pc.start n c p).signals = true) (h1 : o ≠ .throwsOther) (h2 : o ≠ .faultOther) :
    m'.startCompleted = true ∨
      (p'.signals = true ∧ (m'.crashed = true ∨ p'.rank < (Pc.start n c p).rank)) := by
  cases p <;> first | (simp [Pc.signals, StartPc.role] at hp; done) | skip
  all_goals simp only [runStart] at h; repeat' (split at h)
  all_goals simp only [reduceCtorEq, Option.some.injEq, Prod.mk.injEq] at h
  all_goals obtain ⟨rfl, rfl⟩ := h
  all_goals first
    | exact .inl rfl
    | exact absurd rfl h1
    | exact absurd rfl h2
    | exact .inr ⟨rfl, .inl rfl⟩
    | exact .inr ⟨rfl, .inr (by simp [Pc.rank])⟩

theorem runError_signals {n k c : ℕ} {p : ErrorPc} (h : runError m n k c p o = some (m', p'))
    (hp : (Pc.error n k c p).signals = true) (h1 : p = .tryConnect → o ≠ .throws ∧ o ≠ .throwsOther)
    (h2 : p = .tryWait → o ≠ .faultOther) :
    m'.startCompleted = true ∨ (p'.signals = true ∧
      (m'.crashed = true ∨ p'.rank < (Pc.error n k c p).rank ∨ (p = .tryWindow ∧ o ≠ .expired))) := by
  cases p <;> first | (simp [Pc.signals, ErrorPc.role] at hp; done) | skip
  all_goals simp only [runError] at h; repeat' (split at h)
  all_goals simp only [reduceCtorEq, Option.some.injEq, Prod.mk.injEq] at h
  all_goals obtain ⟨rfl, rfl⟩ := h
  all_goals first
    | exact .inl rfl
    | exact absurd rfl (h1 rfl).1
    | exact absurd rfl (h1 rfl).2
    | exact absurd rfl (h2 rfl)
    | exact .inr ⟨rfl, .inl rfl⟩
    | exact .inr ⟨rfl, .inr (.inr ⟨rfl, by assumption⟩)⟩
    | exact .inr ⟨rfl, .inr (.inl (by simp [Pc.rank]))⟩

/-- A step on the way leads to the signal or stays on the way and gets nearer, unless an attempt within
the reconnect window is to be repeated. -/
theorem next_signals {t : ℕ} {p : Pc} {i : Input} (h : next t m p i = some (m', p'))
    (hp : p.signals = true) (hh : Handled p i) :
    m'.startCompleted = true ∨ (p'.signals = true ∧
      (m'.crashed = true ∨ p'.rank < p.rank ∨ ∃ n k c, p = .error n k c .tryWindow ∧ i ≠ .task .expired)) := by
  obtain ⟨hs, hc, hw⟩ := hh
  cases p with
  | start n c p =>
    obtain ⟨o, rfl, h'⟩ := next_start h
    have ho : o ≠ .throwsOther ∧ o ≠ .faultOther := by
      obtain ⟨h1, h2⟩ := hs n c p rfl
      exact ⟨fun e => h1 (by rw [e]), fun e => h2 (by rw [e])⟩
    rcases runStart_signals h' hp ho.1 ho.2 with he | ⟨h1, h2 | h2⟩
    · exact .inl he
    · exact .inr ⟨h1, .inl h2⟩
    · exact .inr ⟨h1, .inr (.inl h2)⟩
  | error n k c p =>
    obtain ⟨o, rfl, h'⟩ := next_error h
    rcases runError_signals h' hp
        (fun e => by
          subst e
          obtain ⟨h1, h2⟩ := hc n k c rfl
          exact ⟨fun e => h1 (by rw [e]), fun e => h2 (by rw [e])⟩)
        (fun e e' => by subst e; exact hw n k c rfl (by rw [e'])) with he | ⟨h1, h2 | h2 | ⟨rfl, h2⟩⟩
    · exact .inl he
    · exact .inr ⟨h1, .inl h2⟩
    · exact .inr ⟨h1, .inr (.inl h2)⟩
    · exact .inr ⟨h1, .inr (.inr ⟨n, k, c, rfl, fun e => h2 (by cases e; rfl)⟩)⟩
  | _ => cases hp

/-- A step off the way leads onto it or leaves the event and the sessions as they are. -/
theorem next_event {t : ℕ} {p : Pc} {i : Input} (h : next t m p i = some (m', p')) (hp : p.signals = false) :
    p'.signals = true ∨ (m'.startCompleted = m.startCompleted ∧ m'.sessions = m.sessions) := by
  have hw := next_writes h
  rcases hw.sessions with hse | ⟨-, -, n, c, -, rfl⟩
  · rcases hw.event with he | ⟨n, c, rfl | rfl | rfl⟩ | ⟨n, k, c, rfl | rfl⟩ | ⟨n, k, c, -, rfl⟩
    · exact .inr ⟨he, hse⟩
    · cases hp
    · cases hp
    · cases hp
    · cases hp
    · cases hp
    · exact .inl rfl
  · exact .inl rfl

/-- Whether a thread on the way can step does not depend on the lock or the event. -/
theorem next_free {t : ℕ} {p : Pc} {i : Input} (hp : p.signals = true) (b e : Bool) :
    (next t { m with stopLock := b, startCompleted := e } p i).isSome = (next t m p i).isSome := by
  unfold next
  split
  · rfl
  · cases i with
    | call k => cases p <;> first | rfl | cases hp
    | task o =>
      cases p with
      | start n c p =>
        cases p <;> simp only [runStart] <;> first | rfl | (cases hp; done) | skip
        all_goals repeat' split
        all_goals simp_all
      | error n k c p =>
        cases p <;> simp only [runError] <;> first | rfl | (cases hp; done) | skip
        all_goals repeat' split
        all_goals simp_all
      | _ => cases hp

/-- It can step, unless it waits for the first response of its transport. -/
theorem next_goes (t : ℕ) {p : Pc} (hp : p.signals = true) (hc : m.crashed = false) :
    (∃ o, (next t m p (.task o)).isSome = true) ∨
      ∃ n c, p = .start n c .connecting ∧ m.connectTce n = .unset := by
  by_cases hw : ∃ n c, p = .start n c .connecting ∧ m.connectTce n = .unset
  · exact .inr hw
  · refine .inl ⟨.fault, ?_⟩
    cases p with
    | start n c p =>
      have hn : next t m (.start n c p) (.task .fault) = runStart m n c p .fault := by simp [next, hc]
      rw [hn]
      cases p <;> simp only [runStart] <;> repeat' split
      all_goals first | rfl | (cases hp; done) | skip
      rename_i htce
      exact absurd ⟨n, c, rfl, htce⟩ hw
    | error n k c p =>
      have hn : next t m (.error n k c p) (.task .fault) = runError m n k c p .fault := by simp [next, hc]
      rw [hn]
      cases p <;> simp only [runError] <;> repeat' split
      all_goals first | rfl | cases hp
    | _ => cases hp

end Steps

/-! ## The connect timer -/

/-- The start of session `n` from its connect request on. -/
def Pc.connectsTo (n : ℕ) : Pc → Prop
  | .start n' _ .connect | .start n' _ .connecting => n' = n
  | _ => False

section Timer

variable {t : ℕ} {m m' : Mem} {p p' : Pc} {i : Input}

theorem Tce.complete_ne_unset {v w : Tce} (h : v ≠ .unset ∨ w ≠ .unset) : v.complete w ≠ .unset := by
  unfold Tce.complete
  split <;> simp_all

theorem Mem.completeConnect_ne {n k : ℕ} {v : Tce} (h : m.connectTce k ≠ .unset) :
    (m.completeConnect n v).connectTce k ≠ .unset := by
  by_cases e : k = n
  · subst e
    simpa [Mem.completeConnect] using Tce.complete_ne_unset (.inl h)
  · simpa [Mem.completeConnect, Function.update_of_ne e] using h

theorem runStart_connectsTo {n c k : ℕ} {q : StartPc} {o : Outcome} (h : runStart m n c q o = some (m', p'))
    (hp : p'.connectsTo k) : (Pc.start n c q).connectsTo k ∨ m'.timer k = true := by
  cases q <;> simp only [runStart] at h <;> repeat' (split at h)
  all_goals simp only [reduceCtorEq, Option.some.injEq, Prod.mk.injEq] at h
  all_goals obtain ⟨rfl, rfl⟩ := h
  all_goals first
    | exact False.elim hp
    | exact .inl hp
    | exact .inr (by cases hp; exact Function.update_self ..)

/-- A `connect_request_tce` that is completed stays so, and a timer that is running gets a thread. -/
def TimerKept (m m' : Mem) (p' : Pc) : Prop :=
  (∀ n, m.connectTce n ≠ .unset → m'.connectTce n ≠ .unset) ∧
    ∀ n, m.timer n = true → m'.timer n = true ∨ p' = .timer n

theorem next_timer (h : next t m p i = some (m', p')) : TimerKept m m' p' := by
  refine ⟨fun k hk => ?_, fun k hk => ?_⟩
  · rcases (next_records h).connectTce with e | ⟨n, v, -, e⟩
    · rwa [e]
    · rw [e]
      exact Mem.completeConnect_ne hk
  · rcases (next_records h).timer with e | ⟨n, c, -, e⟩ | ⟨n, rfl, e⟩
    · exact .inl (by rwa [e])
    · refine .inl ?_
      rw [e]
      by_cases hkn : k = n
      · simp [hkn]
      · rwa [Function.update_of_ne hkn]
    · by_cases hkn : k = n
      · exact .inr (by rw [hkn])
      · exact .inl (by rwa [e, Function.update_of_ne hkn])

/-- The timer completes the tce. -/
theorem next_timed {n : ℕ} (h : next t m (.timer n) i = some (m', p')) : m'.connectTce n ≠ .unset := by
  unfold next at h
  split at h
  · cases h
  · cases i with
    | call k => cases h
    | task o =>
      obtain ⟨⟨v, hv, rfl⟩, -⟩ := runTimer_pc h
      simp only [Mem.completeConnect, Function.update_self]
      exact Tce.complete_ne_unset (.inr hv)

theorem next_connectsTo {n : ℕ} (h : next t m p i = some (m', p')) (hp : p'.connectsTo n) :
    p.connectsTo n ∨ m'.timer n = true := by
  cases next_leads h with
  | @enter k _ _ _ _ he =>
    subst he
    cases k <;> cases hp
  | start h' => exact runStart_connectsTo h' hp
  | _ => cases hp

/-- In every run, a start that waits for the first response of its transport has a timer. -/
theorem exists_timer {s : State Mem Pc} (h : prog.Reachable s) {u n : ℕ} (hu : (s.pc u).connectsTo n) :
    s.mem.connectTce n ≠ .unset ∨ s.mem.timer n = true ∨ ∃ v, s.pc v = .timer n := by
  revert u
  refine h.invariant (J := fun s => ∀ {u}, (s.pc u).connectsTo n →
    s.mem.connectTce n ≠ .unset ∨ s.mem.timer n = true ∨ ∃ v, s.pc v = .timer n) (fun hu => hu.elim) ?_
  intro s a m' p' _ _ ih hn u hu
  obtain ⟨htce, htimer⟩ := next_timer hn
  have hold : (∃ u, (s.pc u).connectsTo n) ∨ m'.timer n = true := by
    by_cases e : u = a.thread
    · subst e
      rw [State.set_pc_self] at hu
      exact (next_connectsTo hn hu).imp_left fun hp => ⟨_, hp⟩
    · rw [State.set_pc_of_ne _ _ _ _ e] at hu
      exact .inl ⟨u, hu⟩
  rcases hold with ⟨w, hw⟩ | ht
  · rcases ih hw with h1 | h1 | ⟨v, hv⟩
    · exact .inl (htce n h1)
    · rcases htimer n h1 with h2 | rfl
      · exact .inr (.inl h2)
      · exact .inr (.inr ⟨a.thread, State.set_pc_self ..⟩)
    · by_cases e : v = a.thread
      · subst e
        rw [hv] at hn
        exact .inl (next_timed hn)
      · exact .inr (.inr ⟨v, by rwa [State.set_pc_of_ne _ _ _ _ e]⟩)
  · exact .inr (.inl ht)

end Timer

/-! ## Nobody waits for nobody -/

/-- A stop or a reconnect that waits for the event, in the lock. -/
def Pc.waits : Pc → Bool
  | .stop _ .wait => true
  | .error _ _ _ .wait => true
  | _ => false

theorem Pc.not_signals_of_waits {p : Pc} (h : p.waits = true) : p.signals = false := by
  unfold Pc.waits at h
  split at h <;> first | rfl | cases h

/-- Thread `t` is on its way to signal the event. -/
structure WillSignal (s : State Mem Pc) (t : ℕ) : Prop where
  /-- its steps lead there: each is the signal or gets nearer, up to repeated attempts -/
  keeps : ∀ i s', Handled (s.pc t) i → prog.step s ⟨t, i⟩ = some s' →
    s'.mem.startCompleted = true ∨ ((s'.pc t).signals = true ∧
      (s'.mem.crashed = true ∨ (s'.pc t).rank < (s.pc t).rank ∨
        ∃ n k c, s.pc t = .error n k c .tryWindow ∧ i ≠ .task .expired))
  /-- it neither takes the lock nor waits for the event -/
  free : ∀ i b e, (next t { s.mem with stopLock := b, startCompleted := e } (s.pc t) i).isSome =
    (next t s.mem (s.pc t) i).isSome
  /-- it can step, or it is connecting and the timer of its session is still to expire -/
  goes : s.mem.crashed = false → (∃ o, (next t s.mem (s.pc t) (.task o)).isSome = true) ∨
    ∃ n c, s.pc t = .start n c .connecting ∧ (s.mem.timer n = true ∨ ∃ u, s.pc u = .timer n)

theorem willSignal {s : State Mem Pc} (h : prog.Reachable s) {t : ℕ} (ht : (s.pc t).signals = true) :
    WillSignal s t := by
  refine ⟨fun i s' hh hs => ?_, fun i b e => next_free ht b e, fun hc => ?_⟩
  · obtain ⟨m', p', hn, rfl⟩ := Program.step_eq_some.mp hs
    simpa using next_signals hn ht hh
  · rcases next_goes t ht hc with hgo | ⟨n, c, hp, htce⟩
    · exact .inl hgo
    · refine .inr ⟨n, c, hp, ?_⟩
      rcases exists_timer h (u := t) (n := n) (by rw [hp]; rfl) with h1 | h1
      · exact absurd htce h1
      · exact h1

/-- While the event is unsignaled and a start has begun, some thread is on its way to signal it. -/
theorem exists_signals {s : State Mem Pc} (h : prog.Reach (fun s a => Handled (s.pc a.thread) a.input) s)
    (he : s.mem.startCompleted = false) (hn : 0 < s.mem.sessions) : ∃ t, (s.pc t).signals = true := by
  revert he hn
  refine h.invariant (J := fun s => s.mem.startCompleted = false → 0 < s.mem.sessions →
    ∃ t, (s.pc t).signals = true) (fun _ hn => by cases hn) ?_
  intro s a m' p' _ ha ih hn he hse
  cases hp : (s.pc a.thread).signals with
  | true =>
    rcases next_signals hn hp ha with h1 | ⟨h1, -⟩
    · rw [State.set_mem, h1] at he
      cases he
    · exact ⟨a.thread, by simpa using h1⟩
  | false =>
    rcases next_event hn hp with h1 | ⟨h1, h2⟩
    · exact ⟨a.thread, by simpa using h1⟩
    · obtain ⟨u, hu⟩ := ih (by rw [← h1]; exact he) (by rw [← h2]; exact hse)
      have hne : u ≠ a.thread := by rintro rfl; rw [hp] at hu; cases hu
      exact ⟨u, by rwa [State.set_pc_of_ne _ _ _ _ hne]⟩

/-- Where a thread can be before the first session. -/
def Pc.unbegun : Pc → Bool
  | .idle => true
  | .start _ _ p => p = .lock || p = .cas || p = .reject || p = .rejected
  | .stop _ p => match p with
    | .lock | .check | .unlockIdle | .contUnlock | .callback | .stopped => true
    | .contLock own | .contCas own => !own
    | _ => false
  | _ => false

/-- The memory before the first session. -/
structure Unbegun (m : Mem) : Prop where
  state : m.connState = .disconnected
  created : ∀ n, m.created n = none
  timer : ∀ n, m.timer n = false
  connectTask : ∀ n, m.connectTask n = false

theorem next_unbegun {t : ℕ} {m m' : Mem} {p p' : Pc} {i : Input} (h : next t m p i = some (m', p'))
    (hm : Unbegun m) (hp : p.unbegun = true) (hs : m'.sessions = 0) : Unbegun m' ∧ p'.unbegun = true := by
  obtain ⟨hc, hcr, htm, hct⟩ := hm
  cases next_leads h with
  | @enter k _ _ he =>
    cases k <;> simp only [enter, hcr, htm, hct, Option.isSome_none, Bool.false_eq_true, if_false,
      reduceCtorEq, Option.some.injEq, Prod.mk.injEq] at he
    all_goals obtain ⟨rfl, rfl⟩ := he; exact ⟨⟨hc, hcr, htm, hct⟩, rfl⟩
  | @start n c n' c' q q' o _ h' =>
    cases q <;> first | (cases hp; done) | skip
    all_goals simp only [runStart] at h'; repeat' (split at h')
    all_goals simp only [reduceCtorEq, Option.some.injEq, Prod.mk.injEq] at h'
    all_goals obtain ⟨rfl, e⟩ := h'; cases e
    all_goals first | exact ⟨⟨hc, hcr, htm, hct⟩, rfl⟩ | cases hs
  | @stop g q q' o _ h' =>
    cases q <;> simp only [runStop] at h' <;> repeat' (split at h')
    all_goals simp only [reduceCtorEq, Option.some.injEq, Prod.mk.injEq] at h'
    all_goals obtain ⟨rfl, e⟩ := h'; cases e
    case contCas.isTrue.refl hd => rw [hc] at hd; cases hd
    all_goals first
      | exact ⟨⟨hc, hcr, htm, hct⟩, hp⟩
      | exact ⟨⟨hc, hcr, htm, hct⟩, rfl⟩
      | contradiction
  | _ => cases hp

/-- Before the first session no thread has got far. -/
theorem unbegun_holds {s : State Mem Pc} (h : prog.Reachable s) (hs : s.mem.sessions = 0) :
    Unbegun s.mem ∧ ∀ t, (s.pc t).unbegun = true := by
  revert hs
  refine h.invariant (J := fun s => s.mem.sessions = 0 → Unbegun s.mem ∧ ∀ t, (s.pc t).unbegun = true)
    (fun _ => ⟨⟨rfl, fun _ => rfl, fun _ => rfl, fun _ => rfl⟩, fun _ => rfl⟩) ?_
  intro s a m' p' _ _ ih hn hse
  have hse' : s.mem.sessions = 0 := by
    rw [State.set_mem] at hse
    rcases (next_writes hn).sessions with e | ⟨e, -⟩ <;> omega
  obtain ⟨hm, hpc⟩ := ih hse'
  obtain ⟨hm', hp'⟩ := next_unbegun hn hm (hpc a.thread) hse
  refine ⟨hm', fun u => ?_⟩
  by_cases e : u = a.thread
  · subst e; simpa using hp'
  · rw [State.set_pc_of_ne _ _ _ _ e]
    exact hpc u

/-- A thread that waits for the event waits in a run that has begun a session. -/
theorem sessions_of_waits {s : State Mem Pc} (h : prog.Reachable s) {t : ℕ} (ht : (s.pc t).waits = true) :
    0 < s.mem.sessions := by
  by_contra hz
  have hu := (unbegun_holds h (by omega)).2 t
  unfold Pc.waits at ht
  split at ht <;> simp_all [Pc.unbegun]

/-- What may be relied on while the event is unsignaled. -/
structure EventLive (s : State Mem Pc) : Prop where
  /-- when a start has begun, a start or an attempt will signal it -/
  someone : s.mem.startCompleted = false → 0 < s.mem.sessions → ∃ t, WillSignal s t ∧ (s.pc t).signals = true
  /-- who waits for it in the lock waits for another thread -/
  waiting : ∀ t, (s.pc t).waits = true → s.mem.startCompleted = false →
    ∃ u, u ≠ t ∧ WillSignal s u ∧ (s.pc u).signals = true

/-- **No permanent block on the event**, in every run without an exception that gets past the handlers. -/
theorem event_live {s : State Mem Pc} (h : prog.Reach (fun s a => Handled (s.pc a.thread) a.input) s) :
    EventLive s := by
  refine ⟨fun he hn => ?_, fun t ht he => ?_⟩
  · obtain ⟨t, hs⟩ := exists_signals h he hn
    exact ⟨t, willSignal h.reachable hs, hs⟩
  · obtain ⟨u, hs⟩ := exists_signals h he (sessions_of_waits h.reachable ht)
    refine ⟨u, ?_, willSignal h.reachable hs, hs⟩
    rintro rfl
    rw [Pc.not_signals_of_waits ht] at hs
    cases hs

def handled : Test fun (s : State Mem Pc) (a : Act Input) => Handled (s.pc a.thread) a.input where
  test s a :=
    match s.pc a.thread, a.input with
    | .start _ _ _, .task .throwsOther | .start _ _ _, .task .faultOther => false
    | .error _ _ _ .tryConnect, .task .throws | .error _ _ _ .tryConnect, .task .throwsOther => false
    | .error _ _ _ .tryWait, .task .faultOther => false
    | _, _ => true
  sound h := by
    refine ⟨fun n c q hp => ⟨fun hi => ?_, fun hi => ?_⟩, fun n k c hp => ⟨fun hi => ?_, fun hi => ?_⟩,
      fun n k c hp hi => ?_⟩
    all_goals rw [hp, hi] at h; cases h

/-- A `stop()` waits for a start that is negotiating. -/
theorem event_live_waiting : ∃ s, EventLive s ∧ s.pc 1 = .stop .user .wait ∧ s.mem.startCompleted = false := by
  obtain ⟨s, hr, hf⟩ := prog.exists_of_run handled
    ([call 0 .start] ++ tasks 0 8 ++ [call 1 .stop] ++ tasks 1 3)
    (fun s => (s.pc 1, s.mem.startCompleted)) (.stop .user .wait, false) rfl
  simp only [Prod.mk.injEq] at hf
  exact ⟨s, event_live hr, hf⟩

/-- A connection is lost, `connect()` of the transport throws, and the user calls `stop()`. -/
def connectThrows : List (Act Input) :=
  started 0 1 1 ++ [call 2 (.error 1)] ++ tasks 2 15 ++ [task 2 .throws] ++ [call 3 .stop] ++ tasks 3 3

/-- It waits for the event for good: no thread is left that would signal it. -/
theorem connectThrows_blocks : ¬ ∀ s, prog.Reachable s → EventLive s := by
  intro hall
  obtain ⟨s, hr, hf, hidle⟩ := prog.exists_of_run_lt Test.all connectThrows 4
    (by decide) (fun s => ([s.pc 0, s.pc 1, s.pc 2, s.pc 3], s.mem.startCompleted))
    ([.start 1 1 .started, .finished, .error 1 1 1 .broken, .stop .user .wait], false) rfl
  simp only [Prod.mk.injEq, List.cons.injEq, and_true] at hf
  obtain ⟨⟨h0, h1, h2, h3⟩, he⟩ := hf
  obtain ⟨u, -, -, hu⟩ := (hall s hr).waiting 3 (by rw [h3]; rfl) he
  rcases Nat.lt_or_ge u 4 with h4 | h4
  · interval_cases u
    · rw [h0] at hu; cases hu
    · rw [h1] at hu; cases hu
    · rw [h2] at hu; cases hu
    · rw [h3] at hu; cases hu
  · rw [hidle u h4] at hu
    cases hu

end SignalRClient.Connection
