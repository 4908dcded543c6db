import SignalRClient.Connection.Lifecycle
import SignalRClient.Threads.Project
import SignalRClient.Transport.Attempts

/-!
# A connection and its transport

The product of the programs of `connection_impl` and of `websocket_transport`, for the connection that is
started once and the transport of that start.  A thread runs one activity of the connection or one continuation
of the transport, and what these call in turn:

* `start()` and `try_reconnect()` call `connect()` of the transport, `shutdown()` calls its `disconnect()`; the
  connection goes on with the outcome when the call is over;
* the value continuation of `receive()` calls the message callback, and goes on when it has returned; the task
  continuation calls the error callback, which returns when `try_reconnect()` has got its task;
* the continuation of `try_reconnect()`, and the observer of the connect task of `start()`, run when the
  `connect_tce` of the attempt is completed.

`drop` of the transport may come at any time: `m_transport` is not the only reference to it.
-/

namespace SignalRClient.Session

open Threads
open Connection (Outcome)

structure Mem where
  conn : Connection.Mem := {}
  trans : Transport.Mem := {}
  startConnect : ℕ := 0                              -- the connect() of start()

structure Pc where
  conn : Connection.Pc := .idle
  trans : Transport.Pc (Option Json) := {}
  attempt : ℕ := 0                                   -- the connect() that try_reconnect() has called last

/-- A step of the connection, or one of the transport, with the outcome that a call of it that throws has for
the connection. -/
inductive Input where
  | conn (i : Connection.Input)
  | trans (i : Transport.Input (Option Json)) (o : Outcome)

/-- What takes part in a step of the transport. -/
inductive Sync where
  | never | alone | both (i : Connection.Input)

/-- The call of the transport that the connection is about to make. -/
inductive Site where
  | connect | disconnect

def site (m : Connection.Mem) : Connection.Pc → Option Site
  | .start _ _ .connect => some .connect
  | .error _ _ _ .tryConnect => if m.transport.isNone then none else some .connect
  | .stop _ .disconnect => if m.transport.isNone then none else some .disconnect
  | _ => none

def isIdle : Connection.Pc → Bool
  | .idle => true
  | _ => false

def isFinished : Connection.Pc → Bool
  | .finished => true
  | _ => false

/-- `reconnect()` may have returned to the error callback. -/
def returned : Connection.Pc → Bool
  | .idle => false
  | .error _ _ _ p => match p with
    | .check | .setException | .lock | .wait | .cas | .capture | .unlock | .callback | .relock | .recheckCts
    | .recheckState | .reset | .release | .quit | .build => false
    | _ => true
  | _ => true

def throws : Outcome → Bool
  | .throws | .throwsOther => true
  | _ => false

/-- The connection steps on its own. -/
def alone (m : Mem) (p : Pc) (i : Connection.Input) : Bool :=
  p.trans.call.isNone && (site m.conn p.conn).isNone &&
  match i with
  | .call k => (match p.trans.frame with | .idle => true | _ => false) &&
    match k with
    -- the callbacks come from the transport
    | .message _ _ | .error _ => false
    | .connectFailed _ => m.trans.connectTce m.startConnect == .failed
    | _ => true
  | .task o => match p.conn, o with
    | .error _ _ _ .tryWait, .ok => m.trans.connectTce p.attempt == .set
    | .error _ _ _ .tryWait, .fault => m.trans.connectTce p.attempt == .failed
    | _, _ => true

/-- A call is over.  Its outcome is undefined when `m_transport` was nulled during the call. -/
def ended (m : Mem) (p : Pc) (o : Outcome) : Sync := if (site m.conn p.conn).isSome then .both (.task o) else .never

def sync (m : Mem) (p : Pc) (i : Transport.Input (Option Json)) (o : Outcome) : Sync :=
  match p.trans.call, i with
  | some (.connect (.returned _)), _ | some (.disconnect false .returned), _ => ended m p .ok
  | some (.connect .thrown), _ | some (.disconnect false .thrown), _ => if throws o then ended m p o else .never
  | some _, _ => .alone
  | none, .connect => match site m.conn p.conn with
    | some .connect => .alone
    | _ => .never
  | none, .disconnect => match site m.conn p.conn with
    | some .disconnect => .alone
    | _ => .never
  | none, .go f => match p.trans.frame with
    | .message _ x .process => if f = none then .both (.call (.message 1 x)) else .alone
    | .message _ _ .processing => if isFinished p.conn then .alone else .never
    | .observe _ .error => .both (.call (.error 1))
    | .observe _ .erroring => if returned p.conn then .alone else .never
    | _ => .alone
  | none, _ => if isIdle p.conn then .alone else .never

/-- The number of the `connect()` that is over. -/
def attemptOf (c : Option Transport.Call) (n : ℕ) : ℕ :=
  match c with
  | some (.connect (.returned k)) => k
  | _ => n

def startConnectOf (p : Pc) (n : ℕ) : ℕ :=
  match p.conn with
  | .start _ _ _ => attemptOf p.trans.call n
  | _ => n

def next (t : ℕ) (m : Mem) (p : Pc) : Input → Option (Mem × Pc)
  | .conn i =>
    if alone m p i then
      (Connection.next t m.conn p.conn i).map fun r => ({ m with conn := r.1 }, { p with conn := r.2 })
    else none
  | .trans i o =>
    match sync m p i o with
    | .never => none
    | .alone =>
      (Transport.next t m.trans p.trans i).map fun r => ({ m with trans := r.1 }, { p with trans := r.2 })
    | .both c =>
      (Connection.next t m.conn p.conn c).bind fun q =>
        (Transport.next t m.trans p.trans i).map fun r =>
          (⟨q.1, r.1, startConnectOf p m.startConnect⟩, ⟨q.2, r.2, attemptOf p.trans.call p.attempt⟩)

/-- **The program of a connection with its transport.** -/
def prog : Program Mem Pc Input := ⟨{}, {}, next⟩

/-- The connection is started once. -/
def OneStart (s : State Mem Pc) (a : Act Input) : Prop :=
  ∀ n c, (s.pc a.thread).conn = .start n c .cas → s.mem.conn.connState = .disconnected → s.mem.conn.sessions = 0

/-! ## Where a step comes from -/

section

variable {t : ℕ} {m m' : Mem} {p p' : Pc} {i : Input}

theorem next_cases (h : next t m p i = some (m', p')) :
    (∃ j c q, i = .conn j ∧ alone m p j = true ∧ Connection.next t m.conn p.conn j = some (c, q) ∧
      m' = { m with conn := c } ∧ p' = { p with conn := q }) ∨
    (∃ j o c q, i = .trans j o ∧ sync m p j o = .alone ∧ Transport.next t m.trans p.trans j = some (c, q) ∧
      m' = { m with trans := c } ∧ p' = { p with trans := q }) ∨
    (∃ j o k c q c' q', i = .trans j o ∧ sync m p j o = .both k ∧
      Connection.next t m.conn p.conn k = some (c, q) ∧ Transport.next t m.trans p.trans j = some (c', q') ∧
      m' = ⟨c, c', startConnectOf p m.startConnect⟩ ∧ p' = ⟨q, q', attemptOf p.trans.call p.attempt⟩) := by
  cases i with
  | conn j =>
    simp only [next, Option.ite_none_right_eq_some] at h
    obtain ⟨ha, h⟩ := h
    obtain ⟨⟨c, q⟩, hn, e⟩ := Option.map_eq_some_iff.mp h
    cases e
    exact .inl ⟨j, c, q, rfl, ha, hn, rfl, rfl⟩
  | trans j o =>
    simp only [next] at h
    split at h
    · cases h
    · rename_i hs
      obtain ⟨⟨c, q⟩, hn, e⟩ := Option.map_eq_some_iff.mp h
      cases e
      exact .inr (.inl ⟨j, o, c, q, rfl, hs, hn, rfl, rfl⟩)
    · rename_i k hs
      obtain ⟨⟨c, q⟩, hn, h⟩ := Option.bind_eq_some_iff.mp h
      obtain ⟨⟨c', q'⟩, hn', e⟩ := Option.map_eq_some_iff.mp h
      cases e
      exact .inr (.inr ⟨j, o, k, c, q, c', q', rfl, hs, hn, hn', rfl, rfl⟩)

end

/-- **The connection in a session is a connection.** -/
theorem reachable_connection {ok : State Mem Pc → Act Input → Prop} {s : State Mem Pc} (h : prog.Reach ok s) :
    Connection.prog.Reachable (s.project Mem.conn Pc.conn) := by
  refine h.project rfl rfl ?_
  intro s a m p _ _ hn
  rcases next_cases (t := a.thread) hn with ⟨j, c, q, -, -, hc, rfl, rfl⟩ | ⟨j, o, c, q, -, -, -, rfl, rfl⟩ |
    ⟨j, o, k, c, q, c', q', -, -, hc, -, rfl, rfl⟩
  · exact .inr ⟨j, trivial, hc⟩
  · exact .inl ⟨rfl, rfl⟩
  · exact .inr ⟨k, trivial, hc⟩

/-- **The transport in a session is a transport.** -/
theorem reachable_transport {ok : State Mem Pc → Act Input → Prop} {s : State Mem Pc} (h : prog.Reach ok s) :
    Transport.prog.Reachable (s.project Mem.trans Pc.trans) := by
  refine h.project rfl rfl ?_
  intro s a m p _ _ hn
  rcases next_cases (t := a.thread) hn with ⟨j, c, q, -, -, -, rfl, rfl⟩ | ⟨j, o, c, q, -, -, hc, rfl, rfl⟩ |
    ⟨j, o, k, c, q, c', q', -, -, -, hc, rfl, rfl⟩
  · exact .inl ⟨rfl, rfl⟩
  · exact .inr ⟨j, trivial, hc⟩
  · exact .inr ⟨j, trivial, hc⟩

end SignalRClient.Session
