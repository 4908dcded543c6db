import SignalRClient.Connection.Lifecycle
import SignalRClient.Hub.Registry
import SignalRClient.Threads.Project

/-!
# The configuration of a connection

The members that configure a `connection_impl`, and the hub proxies with their handlers, are meant to be written
in the disconnected state only.  The functions that write them look at the state first, without a lock, and write
in a later step; the `start()` of a hub connection hands over the names of its proxies before the `start()` of the
connection decides whether there is one.

Any thread may call any of these functions at any moment, also while others start and stop the connection.

* `reachable_connection` — the runs are runs of the connection;
* `Settled` — the connection does not leave the disconnected state while a call is between its look and its write,
  and a call that does not look at the state at all is made in the disconnected state;
* `frozen` — when all steps are so, each write is made in the disconnected state;
* `second_start_overwrites` — it takes only a second `start()` of a hub connection to see another one.
-/

namespace SignalRClient.Hub.Configuration

open Threads Connection

/-! ## The members -/

/-- What is called with the payload of a message: a callback for JSON or for strings, or `process_message`. -/
inductive MessageReceived (F : Type) where
  | json (callback : F)
  | string (callback : F)
  | hub

/-- … when the connection is lost; `hub`: the callback table is cleared first. -/
inductive Reconnecting (F : Type) where
  | user (callback : F)
  | hub (callback : F)

/-- Callbacks are values of `F`, client configurations values of `K`; `none` is what the constructor and
`initialize()` have put there. -/
structure Config (F K : Type) where
  messageReceived : Option (MessageReceived F) := none   -- m_message_received
  reconnecting : Option (Reconnecting F) := none         -- m_reconnecting
  reconnected : Option F := none                         -- m_reconnected
  disconnected : Option F := none                        -- m_disconnected
  clientConfig : Option K := none                        -- m_signalr_client_config
  reconnectDelay : Int32 := 2000                         -- m_reconnect_delay, in milliseconds
  connectionData : String := ""                          -- m_connection_data

def translateConnectionState : ConnectionState → String
  | .connecting => "connecting"
  | .connected => "connected"
  | .reconnecting => "reconnecting"
  | .disconnecting => "disconnecting"
  | .disconnected => "disconnected"

def ensureDisconnected (errorMessage : String) (state : ConnectionState) : Except RegistryError Unit :=
  if state ≠ .disconnected then
    .error (.signalr (errorMessage ++ "current connection state: " ++ translateConnectionState state))
  else .ok ()

/-! ## The setters -/

/-- A setter calls `ensure_disconnected` with a text of its own, and writes one member. -/
structure Setter (F K : Type) where
  errorMessage : String
  write : Config F K → Config F K

section

variable {F K : Type}

def setMessageReceivedJson (messageReceived : MessageReceived F) : Setter F K :=
  ⟨"cannot set the callback when the connection is not in the disconnected state. ",
    fun c => { c with messageReceived := some messageReceived }⟩

def setMessageReceivedString (messageReceived : F) : Setter F K := setMessageReceivedJson (.string messageReceived)

def setClientConfig (config : K) : Setter F K :=
  ⟨"cannot set client config when the connection is not in the disconnected state. ",
    fun c => { c with clientConfig := some config }⟩

def setReconnecting (reconnecting : Reconnecting F) : Setter F K :=
  ⟨"cannot set the reconnecting callback when the connection is not in the disconnected state. ",
    fun c => { c with reconnecting := some reconnecting }⟩

def setReconnected (reconnected : F) : Setter F K :=
  ⟨"cannot set the reconnected callback when the connection is not in the disconnected state. ",
    fun c => { c with reconnected := some reconnected }⟩

def setDisconnected (disconnected : F) : Setter F K :=
  ⟨"cannot set the disconnected callback when the connection is not in the disconnected state. ",
    fun c => { c with disconnected := some disconnected }⟩

def setReconnectDelay (reconnectDelay : Int32) : Setter F K :=
  ⟨"cannot set reconnect delay when the connection is not in the disconnected state. ",
    fun c => { c with reconnectDelay }⟩

end

/-- The calls of the setters of `connection_impl`; those of `hub_connection_impl` hand on to them. -/
inductive SetterCall (F K : Type) where
  | messageReceivedJson (messageReceived : MessageReceived F)
  | messageReceivedString (messageReceived : F)
  | clientConfig (config : K)
  | reconnecting (reconnecting : Reconnecting F)
  | reconnected (reconnected : F)
  | disconnected (disconnected : F)
  | reconnectDelay (reconnectDelay : Int32)

def SetterCall.setter {F K : Type} : SetterCall F K → Setter F K
  | .messageReceivedJson f => setMessageReceivedJson f
  | .messageReceivedString f => setMessageReceivedString f
  | .clientConfig c => setClientConfig c
  | .reconnecting f => setReconnecting f
  | .reconnected f => setReconnected f
  | .disconnected f => setDisconnected f
  | .reconnectDelay d => setReconnectDelay d

/-! ## The tables of proxies and handlers -/

section

variable {C F : Type} {A : Chars C}

/-- `create_hub_proxy` up to the lookup -/
def checkHubProxy (A : Chars C) (state : ConnectionState) (hubName : String) : Except RegistryError Unit :=
  if (A.units hubName).length = 0 then .error (.invalidArgument "hub name cannot be empty")
  else if state ≠ .disconnected then
    .error (.signalr "hub proxies cannot be created when the connection is not in the disconnected state")
  else .ok ()

/-- … with the insertion of the new proxy -/
def insertHubProxy (r : Registry A F) (hubName : String) : Registry A F :=
  { r with proxies := r.proxies.insert hubName r.count, count := r.count + 1,
           hubName := Function.update r.hubName r.count hubName }

/-- `on` up to the lookup; `state?` is `none` when the connection does not exist any more. -/
def checkHandler (A : Chars C) (state? : Option ConnectionState) (eventName : String) : Except RegistryError Unit :=
  if (A.units eventName).length = 0 then .error (.invalidArgument "event_name cannot be empty")
  else if state?.any (· ≠ .disconnected) then
    .error (.signalr "can't register a handler if the connection is in a disconnected state")
  else .ok ()

def findHandler (r : Registry A F) (p : ℕ) (eventName : String) : Except RegistryError Unit :=
  if ((r.subscriptions p).find? eventName).isSome then
    .error (.signalr ("an action for this event has already been registered. event name: " ++ eventName))
  else .ok ()

def insertHandler (r : Registry A F) (p : ℕ) (eventName : String) (handler : F) : Registry A F :=
  { r with subscriptions := Function.update r.subscriptions p ((r.subscriptions p).insert eventName handler) }

/-- With nothing in between, that is `create_hub_proxy`. -/
theorem createHubProxy_eq (r : Registry A F) (state : ConnectionState) (hubName : String) :
    r.createHubProxy state hubName = (checkHubProxy A state hubName).bind fun _ =>
      match r.proxies.find? hubName with
      | some p => .ok (r, p)
      | none => .ok (insertHubProxy r hubName, r.count) := by
  unfold Registry.createHubProxy checkHubProxy
  split
  · rfl
  · split <;> rfl

/-- … and `on`. -/
theorem on_eq (r : Registry A F) (state? : Option ConnectionState) (p : ℕ) (eventName : String) (handler : F) :
    r.on state? p eventName handler = (checkHandler A state? eventName).bind fun _ =>
      (findHandler r p eventName).bind fun _ => .ok (insertHandler r p eventName handler) := by
  unfold Registry.on checkHandler findHandler
  split
  · rfl
  · split
    · rfl
    · simp only [Except.bind]
      split <;> rfl

/-- The keys of `m_proxies`. -/
def proxyNames (r : Registry A F) : List String :=
  ((List.range r.count).filter fun p => r.proxies.find? (r.hubName p) = some p).map r.hubName

end

/-- `connection_data` of `hub_connection_impl::start` -/
def connectionData (hubNames : List String) : Json := .array (hubNames.map fun n => .object [("Name", .string n)])

/-! ## The program -/

structure Mem {C : Type} (A : Chars C) (F K : Type) where
  connection : Connection.Mem := {}
  config : Config F K := {}
  registry : Registry A F := {}
  alive : Bool := true           -- the hub connection exists

/-- Where a call is. -/
inductive Pc (F K : Type) where
  /-- `prepared`: a `start()` of the hub connection that has handed over the names of its proxies -/
  | conn (prepared : Bool) (p : Connection.Pc)
  /-- a setter, behind `ensure_disconnected` -/
  | setting (c : SetterCall F K)
  /-- `create_hub_proxy`, before the lookup and before the insertion -/
  | lookingUp (hubName : String)
  | creating (hubName : String)
  /-- `on` of proxy `p`, before the lookup and before the insertion -/
  | finding (p : ℕ) (eventName : String) (handler : F)
  | registering (p : ℕ) (eventName : String) (handler : F)
  /-- `set_connection_data`, before the assertion and before the write; `hub`: called by `start()` -/
  | connectionData (hub : Bool) (data : String)
  | assigning (hub : Bool) (data : String)
  | returned
  | created (p : ℕ)
  | thrown (e : RegistryError)

inductive Call (F K : Type) where
  | set (c : SetterCall F K)
  | setConnectionData (data : String)
  | createHubProxy (hubName : String)
  | on (p : ℕ) (eventName : String) (handler : F)
  /-- `start()` of the hub connection, whose loop meets the proxies in the order `hubNames` -/
  | start (hubNames : List String)
  /-- the hub connection is destroyed -/
  | drop

inductive Input (F K : Type) where
  | conn (i : Connection.Input)
  | call (c : Call F K)
  | go

section

variable {C F K : Type} {A : Chars C}

/-- A check has let the call pass, or has thrown. -/
def checked (r : Except RegistryError Unit) (p : Pc F K) : Pc F K :=
  match r with
  | .ok _ => p
  | .error e => .thrown e

/-- An idle thread makes a call. -/
def enter (serialize : Json → String) (m : Mem A F K) : Call F K → Option (Mem A F K × Pc F K)
  | .set c => some (m, checked (ensureDisconnected c.setter.errorMessage m.connection.connState) (.setting c))
  | .setConnectionData data => some (m, .connectionData false data)
  | .createHubProxy hubName =>
    if m.alive then some (m, checked (checkHubProxy A m.connection.connState hubName) (.lookingUp hubName)) else none
  | .on p eventName handler =>
    if p < m.registry.count then
      some (m, checked (checkHandler A (if m.alive then some m.connection.connState else none) eventName)
        (.finding p eventName handler))
    else none
  | .start hubNames =>
    if m.alive ∧ hubNames.Perm (proxyNames m.registry) then
      if hubNames ≠ [] then some (m, .connectionData true (serialize (connectionData hubNames)))
      else some (m, .conn false (.start 0 0 .lock))
    else none
  | .drop => if m.alive then some ({ m with alive := false }, .returned) else none

/-- A call goes on. -/
def run (m : Mem A F K) : Pc F K → Option (Mem A F K × Pc F K)
  | .setting c => some ({ m with config := c.setter.write m.config }, .returned)
  | .lookingUp hubName =>
    match m.registry.proxies.find? hubName with
    | some p => some (m, .created p)
    | none => some (m, .creating hubName)
  | .creating hubName => some ({ m with registry := insertHubProxy m.registry hubName }, .created m.registry.count)
  | .finding p eventName handler =>
    some (m, checked (findHandler m.registry p eventName) (.registering p eventName handler))
  | .registering p eventName handler =>
    some ({ m with registry := insertHandler m.registry p eventName handler }, .returned)
  -- _ASSERTE(get_connection_state() == connection_state::disconnected)
  | .connectionData hub data => some (m, .assigning hub data)
  | .assigning hub data =>
    some ({ m with config := { m.config with connectionData := data } },
      if hub then .conn true (.start 0 0 .lock) else .returned)
  | .conn _ _ | .returned | .created _ | .thrown _ => none

/-- One step of a thread. -/
def next (serialize : Json → String) (t : ℕ) (m : Mem A F K) (p : Pc F K) (i : Input F K) :
    Option (Mem A F K × Pc F K) :=
  if m.connection.crashed then none
  else match p, i with
    | .conn _ .idle, .call c => enter serialize m c
    | .conn prepared q, .conn j =>
      (Connection.next t m.connection q j).map fun r => ({ m with connection := r.1 }, .conn prepared r.2)
    | p, .go => run m p
    | _, _ => none

/-- **The program of the configuration**, for a serializer of JSON. -/
def prog (A : Chars C) (F K : Type) (serialize : Json → String) : Program (Mem A F K) (Pc F K) (Input F K) :=
  ⟨{}, .conn false .idle, next serialize⟩

end

/-! ## The connection within it -/

/-- Where the thread is in the connection. -/
def Pc.connection {F K : Type} : Pc F K → Connection.Pc
  | .conn _ q => q
  | _ => .idle

section

variable {C F K : Type} {A : Chars C} {serialize : Json → String} {t : ℕ} {m m' : Mem A F K} {p p' : Pc F K}
  {i : Input F K}

theorem next_not_crashed (h : next serialize t m p i = some (m', p')) : m.connection.crashed = false := by
  unfold next at h
  split at h
  · cases h
  · rename_i hc
    simpa using hc

/-- What a step can come from. -/
theorem next_cases (h : next serialize t m p i = some (m', p')) :
    (∃ b c, p = .conn b .idle ∧ i = .call c ∧ enter serialize m c = some (m', p')) ∨
    (∃ b q q' j, p = .conn b q ∧ p' = .conn b q' ∧ Connection.next t m.connection q j = some (m'.connection, q') ∧
      m'.config = m.config ∧ m'.registry = m.registry) ∨
    run m p = some (m', p') := by
  unfold next at h
  split at h
  · cases h
  split at h
  · exact .inl ⟨_, _, rfl, rfl, h⟩
  · obtain ⟨⟨mc, q'⟩, hn, e⟩ := Option.map_eq_some_iff.mp h
    cases e
    exact .inr (.inl ⟨_, _, _, _, rfl, rfl, hn, rfl, rfl⟩)
  · exact .inr (.inr h)
  · cases h

@[simp] theorem checked_connection (r : Except RegistryError Unit) {q : Pc F K} (h : q.connection = .idle) :
    (checked r q).connection = .idle := by
  cases r with
  | ok u => exact h
  | error e => rfl

theorem enter_connection {c : Call F K} (h : enter serialize m c = some (m', p')) :
    m'.connection = m.connection ∧ (p'.connection = .idle ∨ p'.connection = .start 0 0 .lock) := by
  cases c <;> simp only [enter, Option.ite_none_right_eq_some, Option.some.injEq, Prod.mk.injEq] at h
  case start hubNames =>
    obtain ⟨-, h⟩ := h
    split at h <;> cases h
    · exact ⟨rfl, .inl rfl⟩
    · exact ⟨rfl, .inr rfl⟩
  case set | setConnectionData =>
    obtain ⟨rfl, rfl⟩ := h
    exact ⟨rfl, .inl (by first | rfl | exact checked_connection _ rfl)⟩
  all_goals
    obtain ⟨-, rfl, rfl⟩ := h
    exact ⟨rfl, .inl (by first | rfl | exact checked_connection _ rfl)⟩

theorem run_connection (h : run m p = some (m', p')) :
    m'.connection = m.connection ∧ p.connection = .idle ∧
      (p'.connection = .idle ∨ p'.connection = .start 0 0 .lock) := by
  cases p with
  | conn | returned | created | thrown => cases h
  | setting | creating | registering | connectionData => cases h; exact ⟨rfl, rfl, .inl rfl⟩
  | lookingUp n =>
    simp only [run] at h
    split at h <;> (cases h; exact ⟨rfl, rfl, .inl rfl⟩)
  | finding j e f => cases h; exact ⟨rfl, rfl, .inl (checked_connection _ rfl)⟩
  | assigning hub data => cases hub <;> cases h <;> exact ⟨rfl, rfl, by first | exact .inl rfl | exact .inr rfl⟩

/-- The runs are runs of the connection. -/
theorem reachable_connection {ok : State (Mem A F K) (Pc F K) → Act (Input F K) → Prop}
    {s : State (Mem A F K) (Pc F K)} (h : (prog A F K serialize).Reach ok s) :
    Connection.prog.Reachable (s.project Mem.connection Pc.connection) := by
  refine h.project rfl rfl fun s a m p _ _ hn => ?_
  have hcrash := next_not_crashed hn
  -- a thread that is idle in the connection stays so, or begins its `start()`
  have hidle : m.connection = s.mem.connection → (s.pc a.thread).connection = .idle →
      p.connection = .idle ∨ p.connection = .start 0 0 .lock →
      (m.connection = s.mem.connection ∧ p.connection = (s.pc a.thread).connection) ∨
      ∃ j, True ∧ Connection.next a.thread s.mem.connection (s.pc a.thread).connection j =
        some (m.connection, p.connection) := by
    intro hm hq hp
    rcases hp with hp | hp
    · exact .inl ⟨hm, by rw [hp, hq]⟩
    · exact .inr ⟨.call .start, trivial, by simp [Connection.next, hcrash, hq, hm, hp, Connection.enter]⟩
  rcases next_cases hn with ⟨b, c, hq, -, he⟩ | ⟨b, q, q', j, hq, rfl, hc, -⟩ | hr
  · obtain ⟨hm, hp⟩ := enter_connection he
    exact hidle hm (by rw [hq]; rfl) hp
  · exact .inr ⟨j, trivial, by rw [hq]; exact hc⟩
  · obtain ⟨hm, hq, hp⟩ := run_connection hr
    exact hidle hm hq hp

end

/-! ## Steps that write -/

section

variable {C F K : Type} {A : Chars C} {serialize : Json → String} {t : ℕ} {m m' : Mem A F K} {p p' : Pc F K}
  {i : Input F K}

/-- The next step of the thread writes one of the members. -/
def Writes (m : Mem A F K) : Pc F K → Prop
  | .setting _ | .assigning _ _ => True
  | .creating hubName => m.registry.proxies.find? hubName = none
  | .registering p eventName _ => (m.registry.subscriptions p).find? eventName = none
  | _ => False

/-- The connection has not decided whether there is a `start()`. -/
def undecided : Connection.Pc → Bool
  | .idle | .start _ _ .lock | .start _ _ .cas => true
  | _ => false

/-- The call is to write, or the `start()` it is in is to be accepted. -/
def Pending (m : Mem A F K) : Pc F K → Prop
  | .conn prepared q => prepared = true ∧ undecided q = true
  | .setting _ | .connectionData _ _ | .assigning _ _ => True
  | .lookingUp hubName | .creating hubName => m.registry.proxies.find? hubName = none
  | .finding p eventName _ | .registering p eventName _ => (m.registry.subscriptions p).find? eventName = none
  | .returned | .created _ | .thrown _ => False

theorem Writes.pending (h : Writes m p) : Pending m p := by
  cases p <;> first | exact h | exact h.elim

theorem checked_pending {r : Except RegistryError Unit} (h : Pending m (checked r p)) : r = .ok () ∧ Pending m p := by
  cases r with
  | ok u => exact ⟨rfl, h⟩
  | error e => exact h.elim

/-- A call that passes its look at the state has seen the disconnected one. -/
theorem ensureDisconnected_ok {text : String} {state : ConnectionState} (h : ensureDisconnected text state = .ok ()) :
    state = .disconnected := by
  unfold ensureDisconnected at h
  split at h
  · cases h
  · rename_i hs
    exact not_not.mp hs

theorem checkHubProxy_ok {state : ConnectionState} {hubName : String} (h : checkHubProxy A state hubName = .ok ()) :
    state = .disconnected := by
  unfold checkHubProxy at h
  split at h
  · cases h
  split at h
  · cases h
  · rename_i hs
    exact not_not.mp hs

theorem checkHandler_ok {state : ConnectionState} {eventName : String}
    (h : checkHandler A (some state) eventName = .ok ()) : state = .disconnected := by
  unfold checkHandler at h
  split at h
  · cases h
  split at h
  · cases h
  · rename_i hs
    simpa using hs

/-! ## The condition -/

/-- The step takes the connection out of the disconnected state: a `start()` that is accepted, or a `stop()` that
has looked at the state before the connection got there. -/
def Leaves (s : State (Mem A F K) (Pc F K)) (a : Act (Input F K)) : Prop :=
  s.mem.connection.connState = .disconnected ∧
    ((∃ b n c, s.pc a.thread = .conn b (.start n c .cas)) ∨ ∃ b g, s.pc a.thread = .conn b (.stop g .exchange))

structure Settled (s : State (Mem A F K) (Pc F K)) (a : Act (Input F K)) : Prop where
  /-- no other thread is between its look at the state and its write -/
  leaves : Leaves s a → ∀ u, u ≠ a.thread → ¬ Pending s.mem (s.pc u)
  /-- `set_connection_data()` is called in the disconnected state … -/
  data : ∀ data, a.input = .call (.setConnectionData data) → s.mem.connection.connState = .disconnected
  /-- … also by `start()` of a hub connection with proxies -/
  start : ∀ hubNames, a.input = .call (.start hubNames) → hubNames ≠ [] → s.mem.connection.connState = .disconnected
  /-- so is `on()` of a proxy that has outlived its hub connection -/
  orphan : ∀ p eventName handler, a.input = .call (.on p eventName handler) → s.mem.alive = false →
    s.mem.connection.connState = .disconnected

/-- What is left to write is written in the disconnected state. -/
def Calm (s : State (Mem A F K) (Pc F K)) : Prop :=
  ∀ u, Pending s.mem (s.pc u) → s.mem.connection.connState = .disconnected

/-- A call begins: it may write if it has seen the disconnected state. -/
theorem enter_calm {s : State (Mem A F K) (Pc F K)} {a : Act (Input F K)} {c : Call F K} (ha : Settled s a)
    (hi : a.input = .call c) (h : enter serialize s.mem c = some (m', p')) :
    m'.connection = s.mem.connection ∧ m'.config = s.mem.config ∧ m'.registry = s.mem.registry ∧
      (Pending m' p' → s.mem.connection.connState = .disconnected) := by
  cases c with
  | set c =>
    cases h
    exact ⟨rfl, rfl, rfl, fun hp => ensureDisconnected_ok (checked_pending hp).1⟩
  | setConnectionData data =>
    cases h
    exact ⟨rfl, rfl, rfl, fun _ => ha.data data hi⟩
  | createHubProxy hubName =>
    simp only [enter, Option.ite_none_right_eq_some, Option.some.injEq, Prod.mk.injEq] at h
    obtain ⟨-, rfl, rfl⟩ := h
    exact ⟨rfl, rfl, rfl, fun hp => checkHubProxy_ok (checked_pending hp).1⟩
  | on p eventName handler =>
    simp only [enter, Option.ite_none_right_eq_some, Option.some.injEq, Prod.mk.injEq] at h
    obtain ⟨-, rfl, rfl⟩ := h
    refine ⟨rfl, rfl, rfl, fun hp => ?_⟩
    have hok := (checked_pending hp).1
    cases hal : s.mem.alive with
    | false => exact ha.orphan p eventName handler hi hal
    | true =>
      rw [hal, if_pos rfl] at hok
      exact checkHandler_ok hok
  | start hubNames =>
    simp only [enter, Option.ite_none_right_eq_some] at h
    obtain ⟨-, h⟩ := h
    split at h
    · rename_i hne
      cases h
      exact ⟨rfl, rfl, rfl, fun _ => ha.start hubNames hi hne⟩
    · cases h
      exact ⟨rfl, rfl, rfl, fun hp => (by cases hp.1)⟩
  | drop =>
    simp only [enter, Option.ite_none_right_eq_some, Option.some.injEq, Prod.mk.injEq] at h
    obtain ⟨-, rfl, rfl⟩ := h
    exact ⟨rfl, rfl, rfl, fun hp => hp.elim⟩

/-- The tables only grow. -/
theorem pending_mono (h : Pending m' p)
    (hp : ∀ n, m'.registry.proxies.find? n = none → m.registry.proxies.find? n = none)
    (hs : ∀ j e, (m'.registry.subscriptions j).find? e = none → (m.registry.subscriptions j).find? e = none) :
    Pending m p := by
  cases p with
  | lookingUp n | creating n => exact hp n h
  | finding j e f | registering j e f => exact hs j e h
  | conn | setting | connectionData | assigning | returned | created | thrown => exact h

theorem insertHandler_none {r : Registry A F} {p j : ℕ} {eventName e : String} {handler : F}
    (h : ((insertHandler r p eventName handler).subscriptions j).find? e = none) :
    (r.subscriptions j).find? e = none := by
  by_cases hj : j = p
  · subst hj
    simp only [insertHandler, Function.update_self] at h
    exact Containers.UnorderedMap.find?_none_of_insert h
  · simpa only [insertHandler, Function.update_of_ne hj] using h

/-- A call goes on: it writes in the steps of `Writes` only, and gets closer to them from `Pending` only. -/
theorem run_calm (h : run m p = some (m', p')) :
    m'.connection = m.connection ∧ (∀ q, Pending m' q → Pending m q) ∧ (Pending m' p' → Pending m p) ∧
      (¬ Writes m p → m'.config = m.config ∧ m'.registry.proxies = m.registry.proxies ∧
        m'.registry.subscriptions = m.registry.subscriptions) := by
  cases p with
  | conn | returned | created | thrown => cases h
  | setting c =>
    cases h
    exact ⟨rfl, fun _ hq => pending_mono hq (fun _ => id) fun _ _ => id, fun _ => trivial, fun hw => absurd trivial hw⟩
  | lookingUp n =>
    simp only [run] at h
    split at h
    · cases h; exact ⟨rfl, fun _ => id, fun hp => hp.elim, fun _ => ⟨rfl, rfl, rfl⟩⟩
    · cases h; exact ⟨rfl, fun _ => id, fun hp => hp, fun _ => ⟨rfl, rfl, rfl⟩⟩
  | creating n =>
    cases h
    refine ⟨rfl, fun q hq => ?_, fun hp => hp.elim, fun hw => ⟨rfl, ?_, rfl⟩⟩
    · exact pending_mono hq (fun _ => Containers.UnorderedMap.find?_none_of_insert) fun _ _ => id
    · -- there is a proxy by now
      obtain ⟨q, hq⟩ := Option.ne_none_iff_exists'.mp hw
      exact Containers.UnorderedMap.insert_of_some hq
  | finding j e f =>
    cases h
    exact ⟨rfl, fun _ => id, fun hp => (checked_pending hp).2, fun _ => ⟨rfl, rfl, rfl⟩⟩
  | registering j e f =>
    cases h
    refine ⟨rfl, fun q hq => ?_, fun hp => hp.elim, fun hw => ⟨rfl, rfl, ?_⟩⟩
    · exact pending_mono hq (fun _ => id) fun _ _ => insertHandler_none
    · obtain ⟨g, hg⟩ := Option.ne_none_iff_exists'.mp hw
      simp [insertHandler, Containers.UnorderedMap.insert_of_some hg]
  | connectionData hub data => cases h; exact ⟨rfl, fun _ => id, fun _ => trivial, fun _ => ⟨rfl, rfl, rfl⟩⟩
  | assigning hub data =>
    cases h
    exact ⟨rfl, fun _ hq => pending_mono hq (fun _ => id) fun _ _ => id, fun _ => trivial, fun hw => absurd trivial hw⟩

end

/-! ## Steps of the connection -/

section

variable {t n c : ℕ} {m m' : Connection.Mem} {p' : Connection.Pc} {o : Outcome}

theorem runStart_undecided {q : StartPc} (h : runStart m n c q o = some (m', p')) (hp : undecided p' = true) :
    q = .lock ∧ m'.connState = m.connState := by
  cases q <;> simp only [runStart] at h <;> repeat' (split at h)
  all_goals simp only [reduceCtorEq, Option.some.injEq, Prod.mk.injEq] at h
  all_goals obtain ⟨rfl, rfl⟩ := h
  case lock.isFalse => exact ⟨rfl, rfl⟩
  all_goals cases hp

theorem runStart_reject {q : StartPc} {n' c' : ℕ} (h : runStart m n c q o = some (m', .start n' c' .reject)) :
    q = .cas ∧ m.connState ≠ .disconnected := by
  cases q <;> simp only [runStart] at h <;> repeat' (split at h)
  all_goals simp only [reduceCtorEq, Option.some.injEq, Prod.mk.injEq, Pc.start.injEq, and_false] at h
  case cas.isFalse hc => exact ⟨rfl, hc⟩

/-- No step leads back to an idle thread. -/
theorem not_idle_of_next {q : Connection.Pc} {i : Connection.Input} (h : Connection.next t m q i = some (m', p')) :
    p' ≠ .idle := by
  rintro rfl
  cases next_leads h with
  | @enter k _ _ _ _ hp => cases k <;> cases hp

/-- A step of the connection to where it has not decided comes from there, and leaves the state. -/
theorem undecided_of_next {q : Connection.Pc} {i : Connection.Input}
    (h : Connection.next t m q i = some (m', p')) (hp : undecided p' = true) :
    undecided q = true ∧ m'.connState = m.connState := by
  cases p' with
  | idle => exact absurd rfl (not_idle_of_next h)
  | start n c q' =>
    rcases start_of_next h with ⟨rfl, -, -, rfl⟩ | ⟨n₀, c₀, q₀, o, rfl, -, h'⟩
    · exact ⟨rfl, rfl⟩
    · obtain ⟨rfl, e⟩ := runStart_undecided h' hp
      exact ⟨rfl, e⟩
  | stop | error | message | process | timer | finished => cases hp

/-- A `start()` is rejected in another than the disconnected state. -/
theorem rejected_of_next {q : Connection.Pc} {i : Connection.Input}
    (h : Connection.next t m q i = some (m', .start n c .reject)) :
    undecided q = true ∧ m.connState ≠ .disconnected := by
  rcases start_of_next h with ⟨-, -, e, -⟩ | ⟨n₀, c₀, q₀, o, rfl, -, h'⟩
  · cases e
  · obtain ⟨rfl, hc⟩ := runStart_reject h'
    exact ⟨rfl, hc⟩

end

/-! ## The result -/

section

variable {C F K : Type} {A : Chars C} {serialize : Json → String} {s s' : State (Mem A F K) (Pc F K)}
  {a : Act (Input F K)}

/-- While calls are under way the state stays disconnected. -/
theorem calm_holds (h : (prog A F K serialize).Reach Settled s) : Calm s := by
  refine h.invariant (J := Calm) ?_ ?_
  · rintro u ⟨hb, -⟩
    cases hb
  · intro s a m p _ ha hcalm hn u hu
    rw [State.set_mem] at hu ⊢
    -- what the step does to what is pending, here and elsewhere, and to the state
    have hkey : (∀ q, Pending m q → Pending s.mem q) ∧
        (Pending m p → s.mem.connection.connState = .disconnected ∧
          m.connection.connState = s.mem.connection.connState) ∧
        (∀ v, v ≠ a.thread → Pending s.mem (s.pc v) → m.connection.connState = .disconnected) := by
      rcases next_cases hn with ⟨b, c, -, hi, he⟩ | ⟨b, q, q', j, hp, rfl, hc, -, hreg⟩ | hr
      · obtain ⟨hcon, -, hreg, hpend⟩ := enter_calm ha hi he
        refine ⟨fun q hq => ?_, fun hp => ⟨hpend hp, by rw [hcon]⟩, fun v _ hv => ?_⟩
        · exact pending_mono hq (fun n => by rw [hreg]; exact id) fun j e => by rw [hreg]; exact id
        · rw [hcon]
          exact hcalm v hv
      · refine ⟨fun q hq => ?_, fun hq => ?_, fun v hv hpv => ?_⟩
        · exact pending_mono hq (fun n => by rw [hreg]; exact id) fun j e => by rw [hreg]; exact id
        · obtain ⟨hu, hst⟩ := undecided_of_next hc hq.2
          exact ⟨hcalm a.thread (by rw [hp]; exact ⟨hq.1, hu⟩), hst⟩
        · have hd := hcalm v hpv
          rcases (next_writes hc).state with e | hch
          · rw [e, hd]
          · -- the ways out of the disconnected state are closed
            have hleave := ha.leaves
            generalize m.connection.connState = x at hch
            rw [Leaves, hp] at hleave
            cases hch with
            | start => exact absurd hpv (hleave ⟨hd, .inl ⟨_, _, _, rfl⟩⟩ v hv)
            | stop => exact absurd hpv (hleave ⟨hd, .inr ⟨_, _, rfl⟩⟩ v hv)
            | notStarted | stopped => rfl
            | started h | lost h | regained h => rw [hd] at h; cases h
      · obtain ⟨hcon, hall, hown, -⟩ := run_calm hr
        refine ⟨hall, fun hp => ⟨hcalm a.thread (hown hp), by rw [hcon]⟩, fun v _ hv => ?_⟩
        rw [hcon]
        exact hcalm v hv
    obtain ⟨hall, hown, hother⟩ := hkey
    by_cases hut : u = a.thread
    · subst hut
      rw [State.set_pc_self] at hu
      obtain ⟨hd, e⟩ := hown hu
      rw [e, hd]
    · rw [State.set_pc_of_ne _ _ _ _ hut] at hu
      exact hother u hut (hall _ hu)

/-- What a step does to the configuration. -/
structure Frozen (s : State (Mem A F K) (Pc F K)) (a : Act (Input F K)) (s' : State (Mem A F K) (Pc F K)) : Prop where
  /-- only the steps of `Writes` write … -/
  frame : ¬ Writes s.mem (s.pc a.thread) → s'.mem.config = s.mem.config ∧
    s'.mem.registry.proxies = s.mem.registry.proxies ∧ s'.mem.registry.subscriptions = s.mem.registry.subscriptions
  /-- … in the disconnected state -/
  written : Writes s.mem (s.pc a.thread) → s.mem.connection.connState = .disconnected
  /-- the assertion in `set_connection_data` holds -/
  asserted : ∀ hub data, s.pc a.thread = .connectionData hub data → s.mem.connection.connState = .disconnected
  /-- a `start()` that is rejected has not written -/
  rejected : ∀ prepared n c, s'.pc a.thread = .conn prepared (.start n c .reject) → prepared = false

/-- **The configuration is frozen while the connection is in use.** -/
theorem frozen (h : (prog A F K serialize).Reach Settled s) (ha : Settled s a)
    (hs : (prog A F K serialize).step s a = some s') : Frozen s a s' := by
  obtain ⟨m, p, hn, rfl⟩ := Program.step_eq_some.mp hs
  have hcalm := calm_holds h
  refine ⟨fun hw => ?_, fun hw => hcalm _ hw.pending, fun hub data hp => hcalm a.thread (by rw [hp]; trivial),
    fun b n c hp => ?_⟩
  · rw [State.set_mem]
    rcases next_cases hn with ⟨b, c, -, hi, he⟩ | ⟨b, q, q', j, -, -, -, hcfg, hreg⟩ | hr
    · obtain ⟨-, hcfg, hreg, -⟩ := enter_calm ha hi he
      rw [hcfg, hreg]
      exact ⟨rfl, rfl, rfl⟩
    · rw [hcfg, hreg]
      exact ⟨rfl, rfl, rfl⟩
    · exact (run_calm hr).2.2.2 hw
  · rw [State.set_pc_self] at hp
    subst hp
    rcases next_cases hn with ⟨b', c', -, -, he⟩ | ⟨b', q, q', j, hq, hp', hc, -⟩ | hr
    · rcases (enter_connection he).2 with e | e <;> cases e
    · cases hp'
      obtain ⟨hu, hne⟩ := rejected_of_next hc
      by_contra hb
      exact hne (hcalm a.thread (by rw [hq]; exact ⟨by simpa using hb, hu⟩))
    · rcases (run_connection hr).2.2 with e | e <;> cases e

end

/-! ## Schedules -/

open Registry (asciiChars)

/-- What a serializer makes of the names of a single hub. -/
def chatData (_ : Json) : String := "[\x7b\"Name\":\"chat\"\x7d]"

/-- Thread `t` calls `c`. -/
def call (t : ℕ) (c : Call ℕ ℕ) : Act (Input ℕ ℕ) := ⟨t, .call c⟩

/-- `j` steps of thread `t` in its call, and in the connection. -/
def going (t j : ℕ) : List (Act (Input ℕ ℕ)) := List.replicate j ⟨t, .go⟩

def tasks (t j : ℕ) : List (Act (Input ℕ ℕ)) := List.replicate j ⟨t, .conn (.task .ok)⟩

/-- A proxy is created, and thread 1 is about to have its `start()` of the hub connection accepted. -/
def starting : List (Act (Input ℕ ℕ)) :=
  [call 0 (.createHubProxy "chat")] ++ going 0 2 ++ [call 1 (.start ["chat"])] ++ going 1 2 ++ tasks 1 1

/-- … and is; then thread 2 calls `start()` as well. -/
def startingTwice : List (Act (Input ℕ ℕ)) := starting ++ tasks 1 1 ++ [call 2 (.start ["chat"])] ++ going 2 1

/-- A step that does not take the connection out of the disconnected state is settled. -/
def settled : Test fun (s : State (Mem asciiChars ℕ ℕ) (Pc ℕ ℕ)) (a : Act (Input ℕ ℕ)) => Settled s a where
  test s a :=
    s.mem.connection.connState == .disconnected && match s.pc a.thread with
      | .conn _ (.start _ _ .cas) | .conn _ (.stop _ .exchange) => false
      | _ => true
  sound h := by
    obtain ⟨hd, hp⟩ := Bool.and_eq_true_iff.mp h
    have hd := eq_of_beq hd
    refine ⟨?_, fun _ _ => hd, fun _ _ _ => hd, fun _ _ _ _ _ => hd⟩
    rintro ⟨-, ⟨b, n, c, hq⟩ | ⟨b, g, hq⟩⟩
    · simp [hq] at hp
    · simp [hq] at hp

/-- The first `start()` is accepted with the configuration it has found. -/
theorem frozen_starting : ∃ s s' : State (Mem asciiChars ℕ ℕ) (Pc ℕ ℕ),
    Frozen s ⟨1, .conn (.task .ok)⟩ s' ∧ s'.mem.connection.connState = .connecting ∧
      s'.mem.config.connectionData = chatData .null := by
  obtain ⟨s, h, hf, hidle⟩ := Program.exists_of_run_lt (prog asciiChars ℕ ℕ chatData) settled
    starting 2 (by decide) (fun s => (s.pc 0, s.pc 1,
      ((prog asciiChars ℕ ℕ chatData).step s ⟨1, .conn (.task .ok)⟩).map fun s' =>
        (s'.mem.connection.connState, s'.mem.config.connectionData)))
    (.created 0, .conn true (.start 0 0 .cas), some (.connecting, chatData .null)) rfl
  simp only [Prod.mk.injEq] at hf
  obtain ⟨h0, h1, hs⟩ := hf
  obtain ⟨s', hs, hval⟩ := Option.map_eq_some_iff.mp hs
  obtain ⟨hst, hdata⟩ := Prod.mk.inj hval
  -- no other call is under way
  have hquiet : ∀ u, u ≠ 1 → ¬ Pending s.mem (s.pc u) := by
    intro u hu
    by_cases hu0 : u = 0
    · rw [hu0, h0]
      exact id
    · rw [hidle u (by omega)]
      rintro ⟨hb, -⟩
      cases hb
  have hsettled : Settled s ⟨1, .conn (.task .ok)⟩ :=
    ⟨fun _ => hquiet, fun _ e => (by cases e), fun _ e => (by cases e), fun _ _ _ e => (by cases e)⟩
  exact ⟨s, s', frozen h hsettled hs, hst, hdata⟩

/-- The second one hands over the names of its proxies while the connection is connecting. -/
theorem second_start_overwrites : ¬ ∀ (s s' : State (Mem asciiChars ℕ ℕ) (Pc ℕ ℕ)) (a : Act (Input ℕ ℕ)),
    (prog asciiChars ℕ ℕ chatData).Reach (fun _ _ => True) s → (prog asciiChars ℕ ℕ chatData).step s a = some s' →
      Frozen s a s' := by
  intro hall
  obtain ⟨s, h, hf⟩ := Program.exists_of_run (prog asciiChars ℕ ℕ chatData) Test.all
    startingTwice (fun s => (s.mem.connection.connState, s.pc 2,
      ((prog asciiChars ℕ ℕ chatData).step s ⟨2, .go⟩).isSome))
    (.connecting, .assigning true (chatData .null), true) rfl
  simp only [Prod.mk.injEq] at hf
  obtain ⟨hst, hpc, hs⟩ := hf
  obtain ⟨s', hs⟩ := Option.isSome_iff_exists.mp hs
  have hw := (hall s s' ⟨2, .go⟩ h hs).written (by rw [hpc]; trivial)
  rw [hst] at hw
  cases hw

end SignalRClient.Hub.Configuration
