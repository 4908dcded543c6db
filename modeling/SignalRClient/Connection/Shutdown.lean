import SignalRClient.Connection.Sessions

/-!
# Shutdowns and the transport

A `stop()` whose shutdown has moved the state to disconnecting still uses `m_transport` after it has
left the lock.  The continuation of any `stop()` ends a session that it finds disconnecting, whichever
shutdown brought it there: also the continuation of a `stop()` that had nothing to stop and was
delayed.  This is what the conditions `NotInterrupted` and `OwnFinish` are about.

* `transport_ok` — the transport is there where it is used;
* `stop_intact` — a stop is finished by the stop that began it;
* `reconnect_stops_own` — the stop of a reconnect that gave up ends no other session.
-/

namespace SignalRClient.Connection

open Threads

/-! ## A connection that is disconnecting -/

section Steps

variable {m m' : Mem} {p' : Pc} {o : Outcome}

/-- The state, the transport and the stopping thread are left as they are. -/
def Still (m m' : Mem) : Prop :=
  m'.connState = m.connState ∧ m'.transport = m.transport ∧ m'.stopper = m.stopper

/-- Only the continuation of a `stop()` does something to a connection that is disconnecting. -/
theorem next_still {t : ℕ} {p : Pc} {i : Input} (h : next t m p i = some (m', p'))
    (hl : p.role.Loc m.toCore) (hs : p.share.Loc m.toLedger) (hc : m.connState = .disconnecting) :
    Still m m' ∨ ∃ g own, p = .stop g (.contCas own) ∧ m' = { m with connState := .disconnected } := by
  have hw := next_writes h
  have hstart : p.role.phase ≠ some .connecting := by
    intro hp
    have := hl.phase _ hp
    rw [hc] at this
    cases this
  have hexchange : ∀ g, p ≠ .stop g .exchange := by
    rintro g rfl
    have := (hl.closing rfl).2.2.2
    rw [hc] at this
    simp at this
  have htransport : m'.transport = m.transport := by
    rcases hw.transport with e | ⟨n, c, rfl | rfl⟩ | ⟨g, rfl⟩
    · exact e
    · exact absurd rfl hstart
    · exact absurd rfl hstart
    · have := (hs.ends rfl).2
      rw [hc] at this
      cases this
  have hstopper : m'.stopper = m.stopper := by
    rcases hw.stopper with e | ⟨⟨g, hp⟩, -⟩
    · exact e
    · exact absurd hp (hexchange g)
  rcases hw.state with e | hch
  · exact .inl ⟨e, htransport, hstopper⟩
  · -- the other changes are made in another state
    generalize m'.connState = x at hch
    cases hch with
    | start hc' => rw [hc] at hc'; cases hc'
    | started hc' => rw [hc] at hc'; cases hc'
    | notStarted => exact absurd rfl hstart
    | lost hc' => rw [hc] at hc'; cases hc'
    | regained hc' => rw [hc] at hc'; cases hc'
    | stop => exact absurd rfl (hexchange _)
    | stopped =>
      obtain ⟨o, -, h'⟩ := next_stop h
      rw [runStop, if_pos hc] at h'
      cases h'
      exact .inr ⟨_, _, rfl, rfl⟩

/-- A stop between the change of the state to disconnecting and its own continuation's look at it. -/
def Pc.stops : Pc → Bool
  | .stop _ .unlock | .stop _ .abort | .stop _ .disconnect | .stop _ .closing => true
  | .stop _ (.contLock own) | .stop _ (.contCas own) => own
  | _ => false

/-- … and still in its shutdown, where it uses the transport. -/
def Pc.uses : Pc → Bool
  | .stop _ .unlock | .stop _ .abort | .stop _ .disconnect => true
  | _ => false

theorem Pc.stops_of_uses {p : Pc} (h : p.uses = true) : p.stops = true := by
  unfold Pc.uses at h
  split at h <;> first | rfl | cases h

theorem next_stop_pc {t : ℕ} {p : Pc} {i : Input} {g : Origin} {q' : StopPc}
    (h : next t m p i = some (m', .stop g q')) :
    q' = .lock ∨ ∃ q o, p = .stop g q ∧ runStop t m g q o = some (m', .stop g q') := by
  cases next_leads h with
  | @enter k _ _ _ _ hp =>
    cases k <;> cases hp
    exact .inl rfl
  | stop h' => exact .inr ⟨_, _, rfl, h'⟩
  | giveUp => exact .inl rfl

/-- How a thread gets to be a stop that has moved the state: by its exchange only. -/
theorem next_stops {t : ℕ} {p : Pc} {i : Input} (h : next t m p i = some (m', p')) (hp : p'.stops = true) :
    (p.stops = true ∧ (p'.uses = true → p.uses = true) ∧ ∀ g own, p ≠ .stop g (.contCas own)) ∨
      ((∃ g, p = .stop g .exchange) ∧
        m'.connState = .disconnecting ∧ m'.transport = m.transport ∧ m'.stopper = some t) := by
  rcases p' with _ | _ | ⟨g, q'⟩ | _ | _ | _ | _ | _
  case stop =>
    rcases next_stop_pc h with rfl | ⟨q, o, rfl, h'⟩
    · cases hp
    · cases q <;> simp only [runStop] at h' <;> repeat' (split at h')
      all_goals simp only [reduceCtorEq, Option.some.injEq, Prod.mk.injEq, Pc.stop.injEq] at h'
      all_goals obtain ⟨rfl, -, rfl⟩ := h'
      case exchange => exact .inr ⟨⟨g, rfl⟩, rfl, rfl, rfl⟩
      all_goals first | cases hp; done | exact .inl ⟨hp, id, by simp⟩ | exact .inl ⟨rfl, by simp [Pc.uses], by simp⟩
  all_goals cases hp

end Steps

/-! ## The transport is there where it is used -/

/-- No continuation of a `stop()` finds the state disconnecting while another `stop()` is still in its
shutdown. -/
def NotInterrupted (s : State Mem Pc) (a : Act Input) : Prop :=
  ∀ g own, s.pc a.thread = .stop g (.contCas own) → s.mem.connState = .disconnecting →
    ∀ u, (s.pc u).uses = false

theorem uses_holds {s : State Mem Pc} (h : prog.Reach (fun s a => OnTime s a ∧ NotInterrupted s a) s)
    (t : ℕ) (ht : (s.pc t).uses = true) :
    s.mem.connState = .disconnecting ∧ s.mem.transport ≠ none := by
  revert ht
  refine h.each (L := fun _ m p => p.uses = true → m.connState = .disconnecting ∧ m.transport ≠ none)
    (fun _ hp => by cases hp) (fun s a m' p' hr ha ih hn => ?_) t
  have hr' := hr.mono fun _ _ h => h.1
  have hl := life_holds hr'
  have hb := ledger_holds hr'
  have hstill : (∀ g own, s.pc a.thread ≠ .stop g (.contCas own)) → s.mem.connState = .disconnecting →
      Still s.mem m' := fun hne hc => by
    rcases next_still hn (hl.loc _) (hb.loc _) hc with hst | ⟨g, own, hp, -⟩
    · exact hst
    · exact absurd hp (hne g own)
  refine ⟨fun hp' => ?_, fun u hu hp => ?_⟩
  · rcases next_stops hn (Pc.stops_of_uses hp') with ⟨-, hp, hne⟩ | ⟨⟨g, hp⟩, hc, htr, -⟩
    · obtain ⟨hc, htr⟩ := ih a.thread (hp hp')
      obtain ⟨h1, h2, -⟩ := hstill hne hc
      rw [h1, h2]
      exact ⟨hc, htr⟩
    · have hcl := ((hl.loc a.thread).closing (by rw [hp]; rfl)).2.2.2
      rw [htr]
      exact ⟨hc, hb.glob.carried hcl⟩
  · obtain ⟨hc, htr⟩ := ih u hp
    obtain ⟨h1, h2, -⟩ := hstill (fun g own hq => by simpa [hp] using ha.2 g own hq hc u) hc
    rw [h1, h2]
    exact ⟨hc, htr⟩

/-- `m_transport` is not null where it is dereferenced, and null where a start begins. -/
structure TransportOk (s : State Mem Pc) : Prop where
  startRequest : ∀ t n c, s.pc t = .start n c .startRequest → s.mem.transport ≠ none
  abort : ∀ t g, s.pc t = .stop g .abort → s.mem.transport ≠ none
  disconnect : ∀ t g, s.pc t = .stop g .disconnect → s.mem.transport ≠ none
  buildReconnect : ∀ t n k c, s.pc t = .error n k c .build → s.mem.transport ≠ none
  connect : ∀ t n k c, s.pc t = .error n k c .tryConnect → s.mem.transport ≠ none
  start : ∀ t n c, s.pc t = .start n c .cas → s.mem.connState = .disconnected → s.mem.transport = none
  assertion : ∀ t n c, s.pc t = .start n c .newCts → s.mem.transport = none

/-- **The transport invariant.**  It holds in every run in which no failing start signals late and no
continuation of a `stop()` interrupts the shutdown of another one. -/
theorem transport_ok {s : State Mem Pc} (h : prog.Reach (fun s a => OnTime s a ∧ NotInterrupted s a) s) :
    TransportOk s := by
  have hr := h.mono fun _ _ h => h.1
  have hl := life_holds hr
  have hb := ledger_holds hr
  refine ⟨fun t n c hp => ?_, fun t g hp => ?_, fun t g hp => ?_, fun t n k c hp => ?_,
    fun t n k c hp => ?_, fun t n c hp hc => ?_, fun t n c hp => ?_⟩
  · exact ((hb.loc t).held (by rw [hp]; rfl)).2
  · exact (uses_holds h t (by rw [hp]; rfl)).2
  · exact (uses_holds h t (by rw [hp]; rfl)).2
  · exact hb.glob.carried (.inr ((hl.loc t).phase .reconnecting (by rw [hp]; rfl)))
  · exact hb.glob.carried (.inr ((hl.loc t).phase .reconnecting (by rw [hp]; rfl)))
  · rcases (hb.loc t).empty (by rw [hp]; rfl) hc with he | he
    · rw [hp] at he
      cases he
    · exact he
  · exact ((hb.loc t).bare (by rw [hp]; rfl)).2

def notInterrupted : Test NotInterrupted where
  test s a :=
    match s.pc a.thread with
    | .stop _ (.contCas _) => s.mem.connState ≠ .disconnecting
    | _ => true
  sound h g own hp hc := by simp [hp, hc] at h

theorem transport_ok_stopping : ∃ s, TransportOk s ∧ s.pc 2 = .stop .user .abort ∧ s.mem.transport = some 1 := by
  obtain ⟨s, hr, hf⟩ := prog.exists_of_run (onTime.and notInterrupted)
    (started 0 1 1 ++ [call 2 .stop] ++ tasks 2 7)
    (fun s => (s.pc 2, s.mem.transport)) (.stop .user .abort, some 1) rfl
  simp only [Prod.mk.injEq] at hf
  exact ⟨s, transport_ok hr, hf⟩

/-- A `stop()` finds the connection disconnected and its continuation is delayed until session 1 has
been started and a second `stop()` is in its shutdown. -/
def staleStop : List (Act Input) :=
  [call 2 .stop] ++ tasks 2 3 ++ started 0 1 1 ++ [call 3 .stop] ++ tasks 3 7 ++ tasks 2 1

theorem staleStop_crashes : ¬ ∀ s, prog.Reachable s → TransportOk s := by
  intro hall
  obtain ⟨s, hr, hf⟩ := prog.exists_of_run Test.all
    (staleStop ++ tasks 2 2) (fun s => (s.pc 3, s.mem.transport)) (.stop .user .abort, none) rfl
  simp only [Prod.mk.injEq] at hf
  exact (hall s hr).abort 3 .user hf.1 hf.2

/-! ## A stop is finished by the stop that began it -/

/-- The continuation of a `stop()` whose shutdown has not moved the state does not find the state
disconnecting. -/
def OwnFinish (s : State Mem Pc) (a : Act Input) : Prop :=
  ∀ g, s.pc a.thread = .stop g (.contCas false) → s.mem.connState ≠ .disconnecting

theorem stops_holds {s : State Mem Pc} (h : prog.Reach (fun s a => OnTime s a ∧ OwnFinish s a) s)
    (t : ℕ) (ht : (s.pc t).stops = true) :
    s.mem.connState = .disconnecting ∧ s.mem.stopper = some t := by
  revert ht
  refine h.each (L := fun t m p => p.stops = true → m.connState = .disconnecting ∧ m.stopper = some t)
    (fun _ hp => by cases hp) (fun s a m' p' hr ha ih hn => ?_) t
  have hr' := hr.mono fun _ _ h => h.1
  have hl := life_holds hr'
  have hb := ledger_holds hr'
  refine ⟨fun hp' => ?_, fun u hu hp => ?_⟩
  · rcases next_stops hn hp' with ⟨hp, -, hne⟩ | ⟨-, hc, -, hst⟩
    · obtain ⟨hc, hst⟩ := ih a.thread hp
      rcases next_still hn (hl.loc _) (hb.loc _) hc with ⟨h1, -, h2⟩ | ⟨g, own, hq, -⟩
      · rw [h1, h2]
        exact ⟨hc, hst⟩
      · exact absurd hq (hne g own)
    · exact ⟨hc, hst⟩
  · obtain ⟨hc, hst⟩ := ih u hp
    rcases next_still hn (hl.loc _) (hb.loc _) hc with ⟨h1, -, h2⟩ | ⟨g, own, hq, -⟩
    · rw [h1, h2]
      exact ⟨hc, hst⟩
    · cases own with
      | false => exact absurd hc (ha.2 g hq)
      | true =>
        -- two stops that have both moved the state to disconnecting
        have hst' := (ih a.thread (by rw [hq]; rfl)).2
        rw [hst] at hst'
        exact absurd (Option.some.inj hst') hu

/-- What a step from `s` to `s'` leaves to the stop that has moved the state to disconnecting. -/
structure StopIntact (s : State Mem Pc) (a : Act Input) (s' : State Mem Pc) : Prop where
  /-- the state leaves disconnecting by the continuation of that stop -/
  finish : s.mem.connState = .disconnecting → s'.mem.connState ≠ .disconnecting →
    s'.mem.connState = .disconnected ∧ s.mem.stopper = some a.thread ∧
      ∃ g, s.pc a.thread = .stop g (.contCas true)
  /-- until then the state is disconnecting, and there is no other such stop -/
  stays : ∀ t, (s.pc t).stops = true → s.mem.connState = .disconnecting ∧ s.mem.stopper = some t
  /-- a start is rejected -/
  rejected : ∀ n c, s.mem.connState = .disconnecting → s.pc a.thread = .start n c .cas →
    s' = s.set a.thread s.mem (.start n c .reject)
  /-- another stop yields a cancelled task -/
  cancelled : ∀ g, s.mem.connState = .disconnecting → s.pc a.thread = .stop g .check →
    s' = s.set a.thread s.mem (.stop g .unlockCancelled)
  /-- nobody touches the transport -/
  transport : s.mem.connState = .disconnecting → s'.mem.transport = s.mem.transport

/-- **Each stop is its own.**  In every run in which no failing start signals late and no stale
continuation finds the state disconnecting, a stop is finished by the stop that began it. -/
theorem stop_intact {s s' : State Mem Pc} {a : Act Input}
    (h : prog.Reach (fun s a => OnTime s a ∧ OwnFinish s a) s) (ha : OwnFinish s a)
    (hs : prog.step s a = some s') : StopIntact s a s' := by
  have hr := h.mono fun _ _ h => h.1
  have hl := (life_holds hr).loc a.thread
  have hb := (ledger_holds hr).loc a.thread
  obtain ⟨m', p', hn, rfl⟩ := Program.step_eq_some.mp hs
  refine ⟨fun hc hc' => ?_, fun t => stops_holds h t, fun n c hc hp => ?_, fun g hc hp => ?_, fun hc => ?_⟩
  · rcases next_still hn hl hb hc with ⟨h1, -⟩ | ⟨g, own, hp, rfl⟩
    · exact absurd (h1.trans hc) hc'
    · cases own with
      | false => exact absurd hc (ha g hp)
      | true => exact ⟨rfl, (stops_holds h a.thread (by rw [hp]; rfl)).2, g, hp⟩
  · obtain ⟨o, -, h'⟩ := next_start (hp ▸ hn)
    rw [runStart, if_neg (by rw [hc]; decide)] at h'
    cases h'
    rfl
  · obtain ⟨o, -, h'⟩ := next_stop (hp ▸ hn)
    rw [runStop, if_neg (by rw [hc]; decide), if_pos hc] at h'
    cases h'
    rfl
  · rcases next_still hn hl hb hc with ⟨-, h2, -⟩ | ⟨g, own, -, rfl⟩
    · exact h2
    · rfl

def ownFinish : Test OwnFinish where
  test s a :=
    match s.pc a.thread with
    | .stop _ (.contCas false) => s.mem.connState ≠ .disconnecting
    | _ => true
  sound h g hp := by simpa [hp] using h

theorem stop_intact_finish : ∃ s s', StopIntact s (task 2 .ok) s' ∧ s.mem.connState = .disconnecting ∧
    s'.mem.connState = .disconnected := by
  obtain ⟨s, hr, hf⟩ := prog.exists_of_run (onTime.and ownFinish)
    (started 0 1 1 ++ [call 2 .stop] ++ tasks 2 11)
    (fun s => (s.mem.connState, s.pc 2, (prog.step s (task 2 .ok)).map (·.mem.connState)))
    (.disconnecting, .stop .user (.contCas true), some .disconnected) rfl
  simp only [Prod.mk.injEq, Option.map_eq_some_iff] at hf
  obtain ⟨hc, hp, s', hs', hc'⟩ := hf
  have hp' : s.pc (task 2 .ok).thread = .stop .user (.contCas true) := hp
  exact ⟨s, s', stop_intact hr (fun g hq => by rw [hp'] at hq; cases hq) hs', hc, hc'⟩

/-- The delayed continuation finishes the stop of thread 3, which is still in its shutdown. -/
theorem staleStop_finishes :
    ¬ ∀ s s' a, prog.Reachable s → prog.step s a = some s' → StopIntact s a s' := by
  intro hall
  obtain ⟨s, hr, hf⟩ := prog.exists_of_run Test.all staleStop
    (fun s => (s.mem.connState, s.mem.stopper, (prog.step s (task 2 .ok)).map (·.mem.connState)))
    (.disconnecting, some 3, some .disconnected) rfl
  simp only [Prod.mk.injEq, Option.map_eq_some_iff] at hf
  obtain ⟨hc, hst, s', hs', hc'⟩ := hf
  obtain ⟨-, hst', -⟩ := (hall s s' (task 2 .ok) hr hs').finish hc (by rw [hc']; decide)
  rw [hst] at hst'
  cases hst'

/-! ## The stop of a reconnect that has given up -/

/-- The stop of a reconnect looks at the state of the connection before a later start has moved it to
connecting. -/
def NotRestarted (s : State Mem Pc) (a : Act Input) : Prop :=
  ∀ c k, s.pc a.thread = .stop (.reconnect c k) .check →
    s.mem.connState = .disconnected ∨ s.mem.connState = .disconnecting ∨ s.mem.sessions = k

def OwnSession (s : State Mem Pc) (a : Act Input) : Prop := (OnTime s a ∧ OwnFinish s a) ∧ NotRestarted s a

/-- A stop that has found something to stop and has not yet finished. -/
def StopPc.acts : StopPc → Bool
  | .cancel | .wait | .recheck | .exchange | .unlock | .abort | .disconnect | .closing => true
  | .contLock own | .contCas own => own
  | _ => false

theorem StopPc.locked_of_acts {g : Origin} {q : StopPc} (h : q.acts = true) :
    q.role.locked = true ∨ (Pc.stop g q).stops = true := by
  cases q <;> simp_all [StopPc.acts, StopPc.role, Pc.stops]

theorem runStop_acts {t : ℕ} {m m' : Mem} {g : Origin} {q q' : StopPc} {o : Outcome}
    (h : runStop t m g q o = some (m', .stop g q')) (hq : q'.acts = true) :
    q.acts = true ∨ (q = .check ∧ m.connState ≠ .disconnected ∧ m.connState ≠ .disconnecting) := by
  cases q <;> simp only [runStop] at h <;> repeat' (split at h)
  all_goals simp only [reduceCtorEq, Option.some.injEq, Prod.mk.injEq, Pc.stop.injEq, true_and] at h
  all_goals obtain ⟨rfl, rfl⟩ := h
  case check.isFalse.isFalse h1 h2 => exact .inr ⟨rfl, h1, h2⟩
  all_goals first | cases hq; done | exact .inl hq

theorem acts_holds {s : State Mem Pc} (h : prog.Reach OwnSession s) (t : ℕ) {c k : ℕ} {q : StopPc}
    (ht : s.pc t = .stop (.reconnect c k) q) (hq : q.acts = true) : s.mem.sessions = k := by
  revert c k q ht hq
  refine h.each (L := fun _ m p => ∀ {c k : ℕ} {q : StopPc}, p = .stop (.reconnect c k) q →
    q.acts = true → m.sessions = k) (fun _ _ _ _ hp => by cases hp) (fun s a m' p' hr ha ih hn => ?_) t
  have hl := life_holds (hr.mono fun _ _ h => h.1.1)
  refine ⟨fun {c k q} hp hq => ?_, fun u hu {c k q} hp hq => ?_⟩
  · subst hp
    rcases next_stop_pc hn with rfl | ⟨q₀, o, hp₀, h'⟩
    · cases hq
    · have hse : m'.sessions = s.mem.sessions := by
        rcases (next_writes hn).sessions with e | ⟨-, -, n, c', e, -⟩
        · exact e
        · rw [hp₀] at e
          cases e
      rw [hse]
      rcases runStop_acts h' hq with hq₀ | ⟨rfl, h1, h2⟩
      · exact ih _ hp₀ hq₀
      · rcases ha.2 c k hp₀ with h3 | h3 | h3
        · exact absurd h3 h1
        · exact absurd h3 h2
        · exact h3
  · rcases (next_writes hn).sessions with e | ⟨-, hc, n, c', e, -⟩
    · rw [e]
      exact ih u hp hq
    · -- a new session cannot begin: the stop holds the lock, or the state is disconnecting
      rcases StopPc.locked_of_acts hq with hlk | hst
      · have := (hl.pair a.thread u hu.symm).lock (by rw [e]; rfl)
        rw [hp] at this
        exact absurd (this.symm.trans hlk) (by decide)
      · have := (stops_holds (hr.mono fun _ _ h => h.1) u (by rw [hp]; exact hst)).1
        rw [hc] at this
        cases this

/-- What a stop of a reconnect may do: `c` is the token source the reconnect has captured, when the
connection was lost. -/
structure StopsOwn (s : State Mem Pc) (a : Act Input) (s' : State Mem Pc) : Prop where
  /-- it captures the source of the session that was lost … -/
  lost : ∀ n k c, s.pc a.thread = .error n k c .capture → s'.pc a.thread = .error n k s.mem.sessions .unlock
  /-- … its stop changes the state in that session only … -/
  state : ∀ c k q, s.pc a.thread = .stop (.reconnect c k) q → s'.mem.connState ≠ s.mem.connState →
    s.mem.sessions = c
  /-- … and cancels no other token source -/
  source : ∀ c k q, s.pc a.thread = .stop (.reconnect c k) q → ∀ n, n ≠ c →
    s'.mem.cancelled n = s.mem.cancelled n

/-- **A reconnect that gives up stops no other session.**  Beside the conditions for each stop to be
its own, no start may come between the signal of the event and the look at the state. -/
theorem reconnect_stops_own {s s' : State Mem Pc} {a : Act Input} (h : prog.Reach OwnSession s)
    (ha : OwnSession s a) (hs : prog.step s a = some s') : StopsOwn s a s' := by
  have hr := h.mono fun _ _ h => h.1.1
  have hl := (life_holds hr).loc a.thread
  have hb := ledger_holds hr
  obtain ⟨m', p', hn, rfl⟩ := Program.step_eq_some.mp hs
  have horigin : ∀ c k q, s.pc a.thread = .stop (.reconnect c k) q → c = k := fun c k q hp =>
    ((hb.loc a.thread).origin c k (by rw [hp]; rfl)).1
  refine ⟨fun n k c hp => ?_, fun c k q hp hc => ?_, fun c k q hp n hne => ?_⟩
  · obtain ⟨o, -, h'⟩ := next_error (hp ▸ hn)
    have hc : s.mem.connState = .reconnecting := hl.owns (.inl (by rw [hp]; rfl))
    cases h'
    rw [State.set_pc_self, (hb.glob.current (by rw [hc]; decide)).1]
  · rcases (next_writes hn).state with e | hch
    · exact absurd e hc
    · rw [hp] at hch
      generalize m'.connState = x at hch
      have hq : q.acts = true := by
        cases hch with
        | stop => rfl
        | @stopped _ own hd =>
          cases own with
          | false => exact absurd hd (ha.1.2 _ hp)
          | true => rfl
      rw [acts_holds h a.thread hp hq, horigin c k q hp]
  · rcases (next_writes hn).cancelled with e | ⟨⟨g, hg⟩, e⟩
    · rw [State.set_mem, e]
    · rw [hp] at hg
      cases hg
      have hsrc : s.mem.disconnectCts = c := by
        rw [source_of_locked hr (by rw [hp]; rfl) (by rw [hp]; rfl), acts_holds h a.thread hp rfl,
          horigin c k _ hp]
      rw [State.set_mem, e, hsrc, Function.update_of_ne hne]

def notRestarted : Test NotRestarted where
  test s a :=
    match s.pc a.thread with
    | .stop (.reconnect _ k) .check => s.mem.sessions = k
    | _ => true
  sound h c k hp := .inr (.inr (by simpa [hp] using h))

def ownSession : Test OwnSession := (onTime.and ownFinish).and notRestarted

/-- Session 1 is lost (thread 2); the attempt to reconnect fails, and the window has expired. -/
def givenUp : List (Act Input) :=
  started 0 1 1 ++ [call 2 (.error 1)] ++ tasks 2 16 ++ [task 2 .fault] ++ tasks 2 1 ++ [task 2 .expired] ++
    tasks 2 1

theorem reconnect_stops_own_lost : ∃ s s', StopsOwn s (task 2 .ok) s' ∧
    s.mem.connState = .reconnecting ∧ s'.mem.connState = .disconnecting := by
  obtain ⟨s, hr, hf⟩ := prog.exists_of_run ownSession (givenUp ++ tasks 2 5)
    (fun s => (s.mem.connState, ownSession.test s (task 2 .ok),
      (prog.step s (task 2 .ok)).map (·.mem.connState)))
    (.reconnecting, true, some .disconnecting) rfl
  simp only [Prod.mk.injEq, Option.map_eq_some_iff] at hf
  obtain ⟨hc, ha, s', hs', hc'⟩ := hf
  exact ⟨s, s', reconnect_stops_own hr (ownSession.sound ha) hs', hc, hc'⟩

/-- Before the stop of that reconnect looks at the state, the user stops the connection and starts it
again: the stop ends session 2. -/
theorem givenUp_stops_later :
    ¬ ∀ s s' a, prog.Reachable s → prog.step s a = some s' → StopsOwn s a s' := by
  intro hall
  obtain ⟨s, hr, hf⟩ := prog.exists_of_run Test.all
    (givenUp ++ [call 3 .stop] ++ tasks 3 15 ++ started 4 5 2 ++ tasks 2 5)
    (fun s => (s.mem.connState, s.mem.sessions, s.pc 2, (prog.step s (task 2 .ok)).map (·.mem.connState)))
    (.connected, 2, .stop (.reconnect 1 1) .exchange, some .disconnecting) rfl
  simp only [Prod.mk.injEq, Option.map_eq_some_iff] at hf
  obtain ⟨hc, hse, hp, s', hs', hc'⟩ := hf
  have h1 := (hall s s' (task 2 .ok) hr hs').state 1 1 _ hp (by rw [hc, hc']; decide)
  rw [hse] at h1
  cases h1

end SignalRClient.Connection
