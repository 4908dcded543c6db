import SignalRClient.CallbackManager
import SignalRClient.Hub.Message
import SignalRClient.Threads.Project

/-!
# `hub_connection_impl` as threads over a shared memory

The memory is that of the connection, the callback manager and the tasks of the invocations.  A thread
of the connection goes on as in the connection model, except that

* the user's `stop()` first clears the callback table,
* the reconnecting callback of the connection clears it too,
* a call of the `message_received` callback is `process_message`.

A thread that calls `invoke_json` or `invoke_void` takes an id, registers its callback and sends its
request; its number stands for the invocation and for the `task_completion_event` of the invocation.
From `sending` on it runs the continuation of `send()`.

`clear` calls the callbacks under `m_map_lock`, in any order, each call being a step of its own.
-/

namespace SignalRClient.Hub

open Threads

/-- The arguments of a call of `invoke_json` or (`void`) `invoke_void`. -/
structure Call where
  void : Bool
  hubName : String
  methodName : String
  arguments : Json

/-- The callback of an invocation. -/
structure Callback where
  invocation : ℕ
  void : Bool
  deriving DecidableEq

/-- `request` of `invoke_hub_method` -/
def invocationRequest (c : Call) (callbackId : String) : Json :=
  .object [("H", .string c.hubName), ("M", .string c.methodName), ("A", c.arguments), ("I", .string callbackId)]

/-- An invocation: its arguments, and how many ids had been given out before its own. -/
structure Invocation where
  call : Call
  number : ℕ

/-- The callback manager and the invocations.  All but `callbackManager` is bookkeeping on the run, which no
branch of a step depends on. -/
structure Table where
  callbackManager : CallbackManager Callback := {}
  issued : ℕ := 0                                          -- ids given out
  invocation : ℕ → Option Invocation := fun _ => none      -- the invocations that have an id
  registered : ℕ → Bool := fun _ => false                  -- their callback got into the table

/-- The shared memory.  `undecided` and `decided` are bookkeeping as well. -/
structure Mem extends Table where
  connection : Connection.Mem := {}
  /-- the `task_completion_event` of an invocation -/
  task : ℕ → Option Completion := fun _ => none
  /-- the calls of the `on_progress` of an invocation -/
  progress : ℕ → List Json := fun _ => []
  undecided : Finset ℕ := ∅                                -- hub stops from their clear to their shutdown
  decided : ℕ → Option ℕ := fun _ => none                  -- sessions when the shutdown of a hub stop decided

/-! ## Program counters -/

/-- `invoke_json` and `invoke_void`, `connection_impl::send` (`check`, `send`) and the continuation of
the send task (from `sending` on). -/
inductive InvokePc where
  | getId
  | insert (id : String)
  | request (id : String)
  | check (id : String) (request : Json) (transport : Option ℕ)
  | send (id : String) (request : Json)
  | sending (id : String)
  | failed (id : String) (e : SendError)
  | remove (id : String)
  | sent | rejected | thrown | broken

/-- Why the table is cleared: a `stop()` of the user, or the reconnecting callback of an error callback
with the locals `n`, `k` and `c`. -/
inductive Clearing where
  | stop
  | lost (n k c : ℕ)

inductive Pc where
  | conn (p : Connection.Pc)
  | invoke (c : Call) (p : InvokePc)
  /-- `process_message` in the message callback of session `n`, with the effects `es` to come -/
  | message (n k : ℕ) (m : Json) (es : List Effect)
  /-- … with the callback taken out of the table, or looked up -/
  | calling (n k : ℕ) (m : Json) (es : List Effect) (callback : Callback)
  /-- `clear`, before it has the lock, then with the callbacks it has still to call -/
  | clear (w : Clearing) (rest : Option (List (Sigma fun _ : String => Callback)))

/-! ## Inputs -/

inductive Input where
  | conn (i : Connection.Input)
  | invoke (c : Call)
  /-- `clear` goes on with the `j`-th of the callbacks it has still to call -/
  | pick (j : ℕ)

/-! ## Steps -/

/-- `tce.set(...)` or `tce.set_exception(...)` -/
def Mem.complete (m : Mem) (t : ℕ) (c : Completion) : Mem :=
  { m with task := Function.update m.task t (some ((m.task t).getD c)) }

/-- The call of a callback. -/
def Mem.callback (m : Mem) (callback : Callback) (arguments : Json) : Mem :=
  match invocationReply arguments with
  | .progress data =>
    { m with progress := Function.update m.progress callback.invocation
                           (m.progress callback.invocation ++ [data]) }
  | .result value => m.complete callback.invocation (if callback.void then .done else .result value)
  | .hubException error data => m.complete callback.invocation (.hubException error data)
  | .signalrException error => m.complete callback.invocation (.signalrException error)

/-- What `clear` is called with. -/
def Clearing.arguments : Clearing → Json
  | .stop => .object [("E", .string "connection was stopped before invocation result was received")]
  | .lost _ _ _ => .object [("E", .string "connection has been lost")]

def runClear (t : ℕ) (m : Mem) (w : Clearing) (i : Input) :
    Option (List (Sigma fun _ : String => Callback)) → Option (Mem × Pc)
  | none =>
    if m.callbackManager.mapLock.isSome then none
    else some ({ m with callbackManager := m.callbackManager.lock t },
      .clear w (some m.callbackManager.callbacks.entries))
  | some [] =>
    match w with
    | .stop => some ({ m with callbackManager := m.callbackManager.clear, undecided := insert t m.undecided },
        .conn (.stop .user .lock))
    | .lost n k c => some ({ m with callbackManager := m.callbackManager.clear }, .conn (.error n k c .relock))
  | some (e :: rest) =>
    match i with
    | .pick j => ((e :: rest)[j]?).map fun x => (m.callback x.2 w.arguments, .clear w (some ((e :: rest).eraseIdx j)))
    | _ => none

def runInvoke (t : ℕ) (m : Mem) (c : Call) (p : InvokePc) (i : Input) : Option (Mem × Pc) :=
  match p with
  | .getId =>
    some ({ m with callbackManager := m.callbackManager.getCallbackId.2
                   issued := m.issued + 1
                   invocation := Function.update m.invocation t (some ⟨c, m.issued⟩) },
      .invoke c (.insert m.callbackManager.getCallbackId.1))
  | .insert id =>
    if m.callbackManager.mapLock.isSome then none
    else some ({ m with callbackManager := m.callbackManager.insert id ⟨t, c.void⟩
                        registered := Function.update m.registered t (m.callbackManager.find id).isNone },
      .invoke c (.request id))
  | .request id => some (m, .invoke c (.check id (invocationRequest c id) m.connection.transport))
  | .check id request transport =>
    if m.connection.connState ≠ .connected ∨ transport = none then
      some (m, .invoke c (.failed id (.notConnected m.connection.connState)))
    else some (m, .invoke c (.send id request))
  | .send id _ =>
    match i with
    | .conn (.task .throws) | .conn (.task .throwsOther) => some (m, .invoke c .thrown)
    | _ => some (m, .invoke c (.sending id))
  | .sending id =>
    match i with
    | .conn (.task .ok) => some (m, .invoke c .sent)
    | .conn (.task .fault) => some (m, .invoke c (.failed id .fault))
    -- the continuation handles std exceptions only
    | .conn (.task .faultOther) => some (m, .invoke c .broken)
    | _ => none
  | .failed id e => some (m.complete t (.sendError e), .invoke c (.remove id))
  | .remove id =>
    if m.callbackManager.mapLock.isSome then none
    else some ({ m with callbackManager := m.callbackManager.erase id }, .invoke c .rejected)
  | .sent | .rejected | .thrown | .broken => none

def runMessage (m : Mem) (n k : ℕ) (message : Json) (es : List Effect) : Option (Mem × Pc) :=
  match processMessage message with
  | .callback id remove =>
    if m.callbackManager.mapLock.isSome then none
    else match m.callbackManager.find id with
      | none => some (m, .conn (.process n k es))
      | some callback =>
        some ({ m with callbackManager := if remove then m.callbackManager.erase id else m.callbackManager },
          .calling n k message es callback)
  | _ => some (m, .conn (.process n k es))

/-- The last step was the one in which the shutdown of a `stop()` of the user has made up its mind. -/
def decides : Connection.Pc → Bool
  | .stop .user .unlock | .stop .user .unlockIdle | .stop .user .unlockCancelled => true
  | _ => false

/-- The memory after a step of the connection. -/
def Mem.afterConnection (m : Mem) (t : ℕ) (connection : Connection.Mem) (p : Connection.Pc) : Mem :=
  if decides p then
    { m with connection, undecided := m.undecided.erase t
             decided := Function.update m.decided t (some connection.sessions) }
  else { m with connection }

def runConnection (t : ℕ) (m : Mem) (p : Connection.Pc) (i : Input) : Option (Mem × Pc) :=
  match p, i with
  | .idle, .invoke c => some (m, .invoke c .getId)
  | .idle, .conn (.call .stop) => some (m, .clear .stop none)
  | .error n k c .callback, .conn (.task _) => some (m, .clear (.lost n k c) none)
  | .process n k (.receive message :: es), .conn (.task _) => some (m, .message n k message es)
  | p, .conn i => (Connection.next t m.connection p i).map fun r => (m.afterConnection t r.1 r.2, .conn r.2)
  | _, _ => none

/-- One step of thread `t`. -/
def next (t : ℕ) (m : Mem) (p : Pc) (i : Input) : Option (Mem × Pc) :=
  if m.connection.crashed then none
  else match p with
    | .conn p => runConnection t m p i
    | .invoke c p => runInvoke t m c p i
    | .message n k message es => runMessage m n k message es
    | .calling n k message es callback => some (m.callback callback message, .conn (.process n k es))
    | .clear w rest => runClear t m w i rest

/-- **The program of `hub_connection_impl`.** -/
def prog : Program Mem Pc Input := ⟨{}, .conn .idle, next⟩

/-! ## Schedules -/

/-- A step of a schedule of the connection. -/
def lift (a : Act Connection.Input) : Act Input := ⟨a.thread, .conn a.input⟩

/-- One step of thread `t` with outcome `o`. -/
def task (t : ℕ) (o : Connection.Outcome) : Act Input := ⟨t, .conn (.task o)⟩

/-- `j` steps of thread `t` in which nothing goes wrong. -/
def tasks (t j : ℕ) : List (Act Input) := List.replicate j (task t .ok)

/-- Thread `t` calls `invoke_json`. -/
def invoking (t : ℕ) : Act Input := ⟨t, .invoke ⟨false, "hub", "method", .array []⟩⟩

/-- Thread 1 starts session 1, to which thread 2 delivers the init message. -/
def started : List (Act Input) := (Connection.started 1 2 1).map lift

/-! ## What the operations leave alone -/

section

variable (m : Mem) (t : ℕ)

theorem complete_task (c : Completion) :
    (m.complete t c).task = Function.update m.task t (some ((m.task t).getD c)) := rfl

@[simp] theorem callback_toTable (callback : Callback) (arguments : Json) :
    (m.callback callback arguments).toTable = m.toTable := by
  unfold Mem.callback
  split <;> rfl

@[simp] theorem callback_connection (callback : Callback) (arguments : Json) :
    (m.callback callback arguments).connection = m.connection := by
  unfold Mem.callback
  split <;> rfl

theorem callback_undecided (callback : Callback) (arguments : Json) :
    (m.callback callback arguments).undecided = m.undecided ∧
      (m.callback callback arguments).decided = m.decided := by
  unfold Mem.callback
  split <;> exact ⟨rfl, rfl⟩

/-- The task that a callback completes. -/
theorem callback_task (callback : Callback) (arguments : Json) :
    (m.callback callback arguments).task = match (invocationReply arguments).completion? callback.void with
      | some c => Function.update m.task callback.invocation (some ((m.task callback.invocation).getD c))
      | none => m.task := by
  unfold Mem.callback Reply.completion?
  cases invocationReply arguments <;> rfl

theorem callback_progress (callback : Callback) (arguments : Json) :
    (m.callback callback arguments).progress = match progressData? arguments with
      | some data => Function.update m.progress callback.invocation (m.progress callback.invocation ++ [data])
      | none => m.progress := by
  rw [progressData?_eq]
  unfold Mem.callback
  cases invocationReply arguments <;> rfl

variable (connection : Connection.Mem) (p : Connection.Pc)

@[simp] theorem afterConnection_toTable : (m.afterConnection t connection p).toTable = m.toTable := by
  unfold Mem.afterConnection
  split <;> rfl

@[simp] theorem afterConnection_connection : (m.afterConnection t connection p).connection = connection := by
  unfold Mem.afterConnection
  split <;> rfl

@[simp] theorem afterConnection_task : (m.afterConnection t connection p).task = m.task := by
  unfold Mem.afterConnection
  split <;> rfl

@[simp] theorem afterConnection_progress : (m.afterConnection t connection p).progress = m.progress := by
  unfold Mem.afterConnection
  split <;> rfl

end

/-! ## What a step does -/

/-- Where the hub connection comes in between: a call of `stop()`, the reconnecting callback and the
`message_received` callback. -/
def Intercepted : Connection.Pc → Connection.Input → Prop
  | .idle, .call .stop => True
  | .error _ _ _ .callback, .task _ => True
  | .process _ _ (.receive _ :: _), .task _ => True
  | _, _ => False

/-- The steps of thread `t` on `m`, one constructor for each. -/
inductive Moves (t : ℕ) (m : Mem) : Pc → Input → Mem → Pc → Prop where
  | connection {p p' : Connection.Pc} {i : Connection.Input} {connection : Connection.Mem} :
      Connection.next t m.connection p i = some (connection, p') → ¬ Intercepted p i →
      Moves t m (.conn p) (.conn i) (m.afterConnection t connection p') (.conn p')
  | invoke (c : Call) : Moves t m (.conn .idle) (.invoke c) m (.invoke c .getId)
  | stop : Moves t m (.conn .idle) (.conn (.call .stop)) m (.clear .stop none)
  | lost (n k c : ℕ) (i : Input) : Moves t m (.conn (.error n k c .callback)) i m (.clear (.lost n k c) none)
  | receive (n k : ℕ) (message : Json) (es : List Effect) (i : Input) :
      Moves t m (.conn (.process n k (.receive message :: es))) i m (.message n k message es)
  | getId (c : Call) (i : Input) : Moves t m (.invoke c .getId) i
      { m with callbackManager := m.callbackManager.getCallbackId.2
               issued := m.issued + 1
               invocation := Function.update m.invocation t (some ⟨c, m.issued⟩) }
      (.invoke c (.insert m.callbackManager.getCallbackId.1))
  | insert (c : Call) (id : String) (i : Input) : m.callbackManager.mapLock = none →
      Moves t m (.invoke c (.insert id)) i
        { m with callbackManager := m.callbackManager.insert id ⟨t, c.void⟩
                 registered := Function.update m.registered t (m.callbackManager.find id).isNone }
        (.invoke c (.request id))
  | request (c : Call) (id : String) (i : Input) : Moves t m (.invoke c (.request id)) i m
      (.invoke c (.check id (invocationRequest c id) m.connection.transport))
  | reject (c : Call) (id : String) (request : Json) (transport : Option ℕ) (i : Input) :
      m.connection.connState ≠ .connected ∨ transport = none →
      Moves t m (.invoke c (.check id request transport)) i m
        (.invoke c (.failed id (.notConnected m.connection.connState)))
  | pass (c : Call) (id : String) (request : Json) (n : ℕ) (i : Input) : m.connection.connState = .connected →
      Moves t m (.invoke c (.check id request (some n))) i m (.invoke c (.send id request))
  | sendThrows (c : Call) (id : String) (request : Json) (i : Input) :
      Moves t m (.invoke c (.send id request)) i m (.invoke c .thrown)
  | send (c : Call) (id : String) (request : Json) (i : Input) :
      Moves t m (.invoke c (.send id request)) i m (.invoke c (.sending id))
  | sent (c : Call) (id : String) (i : Input) : Moves t m (.invoke c (.sending id)) i m (.invoke c .sent)
  | fault (c : Call) (id : String) (i : Input) :
      Moves t m (.invoke c (.sending id)) i m (.invoke c (.failed id .fault))
  | faultOther (c : Call) (id : String) (i : Input) :
      Moves t m (.invoke c (.sending id)) i m (.invoke c .broken)
  | fail (c : Call) (id : String) (e : SendError) (i : Input) :
      Moves t m (.invoke c (.failed id e)) i (m.complete t (.sendError e)) (.invoke c (.remove id))
  | remove (c : Call) (id : String) (i : Input) : m.callbackManager.mapLock = none →
      Moves t m (.invoke c (.remove id)) i { m with callbackManager := m.callbackManager.erase id }
        (.invoke c .rejected)
  | discard (n k : ℕ) (message : Json) (es : List Effect) (i : Input) :
      Moves t m (.message n k message es) i m (.conn (.process n k es))
  | take (n k : ℕ) (message : Json) (es : List Effect) (id : String) (callback : Callback) (i : Input) :
      m.callbackManager.mapLock = none → callbackId? message = some id →
      m.callbackManager.find id = some callback →
      Moves t m (.message n k message es) i
        { m with callbackManager := if message.hasField "P" then m.callbackManager else m.callbackManager.erase id }
        (.calling n k message es callback)
  | call (n k : ℕ) (message : Json) (es : List Effect) (callback : Callback) (i : Input) :
      Moves t m (.calling n k message es callback) i (m.callback callback message) (.conn (.process n k es))
  | lock (w : Clearing) (i : Input) : m.callbackManager.mapLock = none → Moves t m (.clear w none) i
      { m with callbackManager := m.callbackManager.lock t } (.clear w (some m.callbackManager.callbacks.entries))
  | pick (w : Clearing) (rest : List (Sigma fun _ : String => Callback)) (j : ℕ)
      (e : Sigma fun _ : String => Callback) : rest[j]? = some e →
      Moves t m (.clear w (some rest)) (.pick j) (m.callback e.2 w.arguments) (.clear w (some (rest.eraseIdx j)))
  | clearedStop (i : Input) : Moves t m (.clear .stop (some [])) i
      { m with callbackManager := m.callbackManager.clear, undecided := insert t m.undecided }
      (.conn (.stop .user .lock))
  | clearedLost (n k c : ℕ) (i : Input) : Moves t m (.clear (.lost n k c) (some [])) i
      { m with callbackManager := m.callbackManager.clear } (.conn (.error n k c .relock))

section

variable {t : ℕ} {m m' : Mem} {p p' : Pc} {i : Input}

theorem Moves.of_eq {r : Mem × Pc} (h : some r = some (m', p')) (hm : Moves t m p i r.1 r.2) :
    Moves t m p i m' p' := by
  injection h with h
  rw [h] at hm
  exact hm

theorem runInvoke_moves {c : Call} {q : InvokePc} (h : runInvoke t m c q i = some (m', p')) :
    Moves t m (.invoke c q) i m' p' := by
  cases q with
  | getId => exact .of_eq h (.getId c i)
  | insert id =>
    simp only [runInvoke] at h
    split at h
    · cases h
    · rename_i hl
      exact .of_eq h (.insert c id i (by simpa using hl))
  | request id => exact .of_eq h (.request c id i)
  | check id request transport =>
    simp only [runInvoke] at h
    split at h
    · rename_i hr
      exact .of_eq h (.reject c id request transport i hr)
    · rename_i hr
      rw [not_or, not_not] at hr
      obtain ⟨n, rfl⟩ := Option.ne_none_iff_exists'.mp hr.2
      exact .of_eq h (.pass c id request n i hr.1)
  | send id request =>
    simp only [runInvoke] at h
    split at h
    · exact .of_eq h (.sendThrows c id request _)
    · exact .of_eq h (.sendThrows c id request _)
    · exact .of_eq h (.send c id request _)
  | sending id =>
    simp only [runInvoke] at h
    split at h
    · exact .of_eq h (.sent c id _)
    · exact .of_eq h (.fault c id _)
    · exact .of_eq h (.faultOther c id _)
    · cases h
  | failed id e => exact .of_eq h (.fail c id e i)
  | remove id =>
    simp only [runInvoke] at h
    split at h
    · cases h
    · rename_i hl
      exact .of_eq h (.remove c id i (by simpa using hl))
  | sent | rejected | thrown | broken => cases h

theorem runMessage_moves {n k : ℕ} {message : Json} {es : List Effect}
    (h : runMessage m n k message es = some (m', p')) : Moves t m (.message n k message es) i m' p' := by
  unfold runMessage at h
  split at h
  · rename_i id remove hd
    obtain ⟨hid, hremove⟩ := of_processMessage hd
    split at h
    · cases h
    · rename_i hl
      split at h
      · exact .of_eq h (.discard n k message es i)
      · rename_i callback hf
        have he : (if remove = true then m.callbackManager.erase id else m.callbackManager) =
            if message.hasField "P" then m.callbackManager else m.callbackManager.erase id := by
          rw [hremove]
          cases message.hasField "P" <;> rfl
        rw [he] at h
        exact .of_eq h (.take n k message es id callback i (by simpa using hl) hid hf)
  · exact .of_eq h (.discard n k message es i)

theorem runClear_moves {w : Clearing} {rest : Option (List (Sigma fun _ : String => Callback))}
    (h : runClear t m w i rest = some (m', p')) : Moves t m (.clear w rest) i m' p' := by
  match rest, h with
  | none, h =>
    simp only [runClear] at h
    split at h
    · cases h
    · rename_i hl
      exact .of_eq h (.lock w i (by simpa using hl))
  | some [], h =>
    cases w with
    | stop => exact .of_eq h (.clearedStop i)
    | lost n k c => exact .of_eq h (.clearedLost n k c i)
  | some (e :: rest), h =>
    simp only [runClear] at h
    split at h
    · rename_i j _
      obtain ⟨x, hx, hr⟩ := Option.map_eq_some_iff.mp h
      exact .of_eq (congrArg some hr) (.pick w (e :: rest) j x hx)
    · cases h

theorem runConnection_moves {q : Connection.Pc} (h : runConnection t m q i = some (m', p')) :
    Moves t m (.conn q) i m' p' := by
  unfold runConnection at h
  split at h
  · exact .of_eq h (.invoke _)
  · exact .of_eq h .stop
  · exact .of_eq h (.lost _ _ _ _)
  · exact .of_eq h (.receive _ _ _ _ _)
  · rename_i j hidle herror hprocess
    obtain ⟨⟨connection, q'⟩, hn, hr⟩ := Option.map_eq_some_iff.mp h
    refine .of_eq (congrArg some hr) (.connection hn fun hi => ?_)
    unfold Intercepted at hi
    split at hi
    · exact hidle rfl rfl
    · exact herror _ _ _ _ rfl rfl
    · exact hprocess _ _ _ _ _ rfl rfl
    · exact hi
  · cases h

/-- **What a step does.** -/
theorem next_moves (h : next t m p i = some (m', p')) : Moves t m p i m' p' := by
  unfold next at h
  split at h
  · cases h
  · cases p with
    | conn q => exact runConnection_moves h
    | invoke c q => exact runInvoke_moves h
    | message n k message es => exact runMessage_moves h
    | calling n k message es callback => exact .of_eq h (.call n k message es callback i)
    | clear w rest => exact runClear_moves h

end

/-! ## The run of the connection in it -/

/-- Where a thread is in the connection: a call of the hub connection stands at the call of the callback, or
before the call of `stop()`. -/
def Pc.toConnection : Pc → Connection.Pc
  | .conn p => p
  | .invoke _ _ | .clear .stop _ => .idle
  | .message n k answer es | .calling n k answer es _ => .process n k (.receive answer :: es)
  | .clear (.lost n k c) _ => .error n k c .callback

def toConnection (s : State Mem Pc) : State Connection.Mem Connection.Pc :=
  ⟨s.mem.connection, fun t => (s.pc t).toConnection⟩

section

variable {t : ℕ} {m m' : Mem} {p p' : Pc} {i : Input}

/-- A step is one of the connection, or the connection does not see it. -/
theorem next_toConnection (h : next t m p i = some (m', p')) :
    (m'.connection = m.connection ∧ p'.toConnection = p.toConnection) ∨
      ∃ j, Connection.next t m.connection p.toConnection j = some (m'.connection, p'.toConnection) := by
  have hcrash : m.connection.crashed = false := by
    unfold next at h
    split at h
    · cases h
    · rename_i hc
      simpa using hc
  cases next_moves h with
  | @connection q q' j connection hn hi =>
    refine .inr ⟨j, ?_⟩
    rw [afterConnection_connection]
    exact hn
  | clearedStop =>
    refine .inr ⟨.call .stop, ?_⟩
    unfold Connection.next
    rw [hcrash]
    rfl
  | clearedLost n k c =>
    refine .inr ⟨.task .ok, ?_⟩
    unfold Connection.next
    rw [hcrash]
    rfl
  | discard n k message es =>
    refine .inr ⟨.task .ok, ?_⟩
    unfold Connection.next
    rw [hcrash]
    rfl
  | call n k message es callback =>
    refine .inr ⟨.task .ok, ?_⟩
    unfold Connection.next
    rw [hcrash, callback_connection]
    rfl
  | pick w rest j e he =>
    rw [callback_connection]
    cases w <;> exact .inl ⟨rfl, rfl⟩
  | lock w => cases w <;> exact .inl ⟨rfl, rfl⟩
  | _ => exact .inl ⟨rfl, rfl⟩

end

/-- **Every run of the hub connection is a run of the connection**, so that what holds in all states of the
connection holds here. -/
theorem reachable_toConnection {s : State Mem Pc} (h : prog.Reachable s) :
    Connection.prog.Reachable (toConnection s) :=
  h.project rfl rfl fun _ _ _ _ _ _ hn => (next_toConnection hn).imp_right fun ⟨j, hj⟩ => ⟨j, trivial, hj⟩

end SignalRClient.Hub
