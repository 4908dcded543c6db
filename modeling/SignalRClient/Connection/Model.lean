import SignalRClient.Threads.Program
import SignalRClient.Connection.Response
import SignalRClient.UrlBuilder

/-!
# `connection_impl` as threads over a shared memory

`Mem` holds the members of `connection_impl` that more than one thread touches.  A `Pc` is a place
in one of the activities on it:

* `start()` and the chain of continuations it builds (`StartPc`);
* `stop()`, `shutdown()` and the continuation of `stop()` (`StopPc`);
* the error callback of a transport, `reconnect()`, `try_reconnect()` and the continuation of
  `reconnect()` (`ErrorPc`);
* the message callback of a transport, one effect of `process_response` at a time;
* the connect timer and the observer of a failed connect of one start.

A step is one access to a shared member: taking or leaving `m_stop_lock`, one atomic operation on
the state, one operation on the event, one look at a token, one use of `m_transport`.  Between two
steps of a thread any other thread may run, which covers every delay of a continuation.  What
depends on the outside (requests, sockets, the clock, user code) is the `Outcome` of the step.

A `start()` that succeeds in moving the state to connecting begins the session with the next number,
counted from 1; the token source, the transport and the `connect_request_tce` that this start makes
carry that number.  `m_disconnect_cts` of a connection that was never started is number 0.
-/

namespace SignalRClient.Connection

open Threads

inductive ConnectionState where
  | connecting | connected | reconnecting | disconnecting | disconnected
  deriving DecidableEq, Repr

/-- The answer to the negotiate request. -/
structure NegotiationResponse where
  connectionId : String
  connectionToken : String
  disconnectTimeout : ℤ          -- in milliseconds
  keepAliveTimeout : ℤ           -- in milliseconds
  protocolVersion : String
  tryWebSockets : Bool
  transportConnectTimeout : ℤ    -- in milliseconds
  deriving DecidableEq

/-- A `task_completion_event`: the first `set` or `set_exception` decides. -/
inductive Tce where
  | unset | set | failed
  deriving DecidableEq, Repr

def Tce.complete (old new : Tce) : Tce := if old = .unset then new else old

/-- The members that steer the life cycle. -/
structure Core where
  connState : ConnectionState := .disconnected       -- m_connection_state
  transport : Option ℕ := none                       -- m_transport, by session
  disconnectCts : ℕ := 0                             -- m_disconnect_cts
  cancelled : ℕ → Bool := fun _ => false             -- the token sources that are cancelled
  stopLock : Bool := false                           -- m_stop_lock is held
  startCompleted : Bool := false                     -- m_start_completed_event is signaled

/-- The sessions so far.  All but `created` is bookkeeping on the run, which no branch of a step
depends on. -/
structure Ledger extends Core where
  /-- the transport of a session, by the token source its callbacks have captured -/
  created : ℕ → Option ℕ := fun _ => none
  sessions : ℕ := 0                                  -- number of starts that moved to connecting
  epoch : ℕ := 0                                     -- session whose start last reset the fields
  failed : ℕ → Bool := fun _ => false                -- sessions ended by the failure path of start
  stopper : Option ℕ := none                         -- thread that last moved to disconnecting

/-- The shared memory.  `messageIdFrom` and `groupsTokenFrom` are bookkeeping as well. -/
structure Mem extends Ledger where
  messageId : String := ""                           -- m_message_id
  groupsToken : String := ""                         -- m_groups_token
  messageIdFrom : Option ℕ := none                   -- transport that wrote messageId
  groupsTokenFrom : Option ℕ := none                 -- transport that wrote groupsToken
  connectTce : ℕ → Tce := fun _ => .unset            -- connect_request_tce of a session
  timer : ℕ → Bool := fun _ => false                 -- the connect timer of a session is running
  connectTask : ℕ → Bool := fun _ => false           -- connect() of a session has returned a task
  crashed : Bool := false                            -- a null m_transport was dereferenced

/-! ## Program counters -/

/-- `start()` up to `attach`, then the continuations. -/
inductive StartPc where
  | lock | cas | reject | newCts | reset | fields | unlock | attach
  | negotiate | negotiating | startTransport (r : NegotiationResponse) | create | connect
  | connecting | setTransport | startRequest | startRequesting
  | succeed | succeedSet | fail | failState | failSet
  | rejected | started | failed | broken
  deriving DecidableEq

/-- `stop()` and `shutdown()`; from `contLock` on the continuation of `stop()`.  `own` tells whether
the `shutdown()` of this call moved the state to disconnecting. -/
inductive StopPc where
  | lock | check | cancel | wait | recheck | exchange | unlock | abort | disconnect | closing
  | unlockIdle | unlockCancelled
  | contLock (own : Bool) | contCas (own : Bool) | contNull | contUnlock | callback
  | stopped | cancelledTask | thrown
  deriving DecidableEq

/-- Who called `stop()`: the user, or the continuation of a `reconnect()` that had captured the token
source `c`, when `k` sessions had begun at the moment it signaled the event. -/
inductive Origin where
  | user | reconnect (c k : ℕ)
  deriving DecidableEq

/-- The error callback (`check`, `setException`), `reconnect()` (from `lock` on), `try_reconnect()`
(from `tryCheck` on) and the continuation of `reconnect()` (`okCas`, `okSet`, `okCallback`, `failSet`). -/
inductive ErrorPc where
  | check | setException
  | lock | wait | cas | capture | unlock | callback | relock | recheckCts | recheckState | reset | release
  | quit | build | tryCheck | tryConnect | tryWait | tryFailed | tryWindow | retryCheck
  | okCas | okSet | okCallback | failSet
  | broken
  deriving DecidableEq

inductive Pc where
  | idle
  /-- `start()` of session `n` (0 before it has one), its continuations with the token of source `c` -/
  | start (n c : ℕ) (p : StartPc)
  | stop (g : Origin) (p : StopPc)
  /-- the error callback of the transport of session `n`; `k` sessions had begun when it looked at
  its token; `c` is the local `disconnect_cts` of `reconnect()` -/
  | error (n k c : ℕ) (p : ErrorPc)
  /-- the message callback of the transport of session `n`, before it looks at its token -/
  | message (n : ℕ) (r : Option Json)
  /-- … and in `process_response`; `k` is the epoch when it looked at its token -/
  | process (n k : ℕ) (es : List Effect)
  | timer (n : ℕ)
  | finished

/-! ## Inputs -/

/-- What an idle thread can be given to do. -/
inductive Call where
  | start | stop
  | message (n : ℕ) (r : Option Json)
  | error (n : ℕ)
  | timer (n : ℕ)
  | connectFailed (n : ℕ)

/-- The outcome of what a step calls: it goes well, it brings the negotiation response, its task is
faulted with a std or with another exception, it throws one or the other before it returns a task, or
the reconnect window has expired.  Steps that call nothing ignore it. -/
inductive Outcome where
  | ok | negotiated (r : NegotiationResponse) | fault | faultOther | throws | throwsOther | expired

inductive Input where
  | call (k : Call)
  | task (o : Outcome)

/-! ## Steps -/

def Mem.crash (m : Mem) : Mem := { m with crashed := true }

/-- `connect_request_tce.set()` or `set_exception` of session `n`. -/
def Mem.completeConnect (m : Mem) (n : ℕ) (v : Tce) : Mem :=
  { m with connectTce := Function.update m.connectTce n ((m.connectTce n).complete v) }

/-- One effect of `process_response` on behalf of the transport of session `n`. -/
def Mem.effect (m : Mem) (n : ℕ) : Effect → Mem
  | .setGroupsToken g => { m with groupsToken := g, groupsTokenFrom := some n }
  | .setMessageId c => { m with messageId := c, messageIdFrom := some n }
  | .connectSet => m.completeConnect n .set
  | .receive _ => m

@[simp] theorem Mem.crash_toLedger (m : Mem) : m.crash.toLedger = m.toLedger := rfl

@[simp] theorem Mem.completeConnect_toLedger (m : Mem) (n : ℕ) (v : Tce) :
    (m.completeConnect n v).toLedger = m.toLedger := rfl

@[simp] theorem Mem.effect_toLedger (m : Mem) (n : ℕ) (e : Effect) :
    (m.effect n e).toLedger = m.toLedger := by
  cases e <;> rfl

/-- A thread begins an activity.  Callbacks come from a transport that exists; the timer and the
connect task of a session run once. -/
def enter (m : Mem) : Call → Option (Mem × Pc)
  | .start => some (m, .start 0 0 .lock)
  | .stop => some (m, .stop .user .lock)
  | .message n r => if (m.created n).isSome then some (m, .message n r) else none
  | .error n => if (m.created n).isSome then some (m, .error n 0 0 .check) else none
  | .timer n =>
    if m.timer n then some ({ m with timer := Function.update m.timer n false }, .timer n) else none
  | .connectFailed n =>
    if m.connectTask n then
      some ({ m with connectTask := Function.update m.connectTask n false }.completeConnect n .failed,
        .finished)
    else none

/-- The last continuation of `start()` handles a std exception; another one ends the chain. -/
def runStart (m : Mem) (n c : ℕ) (p : StartPc) (o : Outcome) : Option (Mem × Pc) :=
  match p with
  | .lock => if m.stopLock then none else some ({ m with stopLock := true }, .start n c .cas)
  | .cas =>
    if m.connState = .disconnected then
      some ({ m with connState := .connecting, sessions := m.sessions + 1 },
        .start (m.sessions + 1) c .newCts)
    else some (m, .start n c .reject)
  | .reject => some ({ m with stopLock := false }, .start n c .rejected)
  | .newCts => some ({ m with disconnectCts := n }, .start n c .reset)
  | .reset => some ({ m with startCompleted := false }, .start n c .fields)
  | .fields =>
    some ({ m with messageId := "", groupsToken := "", messageIdFrom := none, groupsTokenFrom := none,
                   epoch := n }, .start n c .unlock)
  | .unlock => some ({ m with stopLock := false }, .start n c .attach)
  | .attach => some (m, .start n m.disconnectCts .negotiate)
  -- a continuation whose token is cancelled when it would start is skipped, and so are the next ones
  | .negotiate =>
    if m.cancelled c then some (m, .start n c .fail)
    else match o with
      | .throws => some (m, .start n c .fail)
      | .throwsOther => some (m, .start n c .broken)
      | _ => some (m, .start n c .negotiating)
  | .negotiating =>
    match o with
    | .negotiated r => some (m, .start n c (.startTransport r))
    | .fault => some (m, .start n c .fail)
    | .faultOther => some (m, .start n c .broken)
    | _ => none
  | .startTransport r =>
    if m.cancelled c then some (m, .start n c .fail)
    else if r.protocolVersion ≠ protocol then some (m, .start n c .fail)
    else if r.tryWebSockets then some (m, .start n c .create)
    else some (m, .start n c .fail)
  | .create =>
    match o with
    | .throws => some (m, .start n c .fail)
    | .throwsOther => some (m, .start n c .broken)
    | _ => some ({ m with created := Function.update m.created n (some m.disconnectCts)
                          timer := Function.update m.timer n true }, .start n c .connect)
  | .connect =>
    match o with
    | .throws => some (m, .start n c .fail)
    | .throwsOther => some (m, .start n c .broken)
    | _ => some ({ m with connectTask := Function.update m.connectTask n true }, .start n c .connecting)
  | .connecting =>
    match m.connectTce n with
    | .unset => none
    | .set => some (m, .start n c .setTransport)
    | .failed => some (m, .start n c .fail)
  | .setTransport => some ({ m with transport := some n }, .start n c .startRequest)
  | .startRequest =>
    if m.cancelled c then some (m, .start n c .fail)
    else if m.transport.isNone then some (m.crash, .start n c .startRequest)
    else match o with
      | .throws => some (m, .start n c .fail)
      | .throwsOther => some (m, .start n c .broken)
      | _ => some (m, .start n c .startRequesting)
  | .startRequesting =>
    match o with
    | .ok => some (m, .start n c .succeed)
    | .fault => some (m, .start n c .fail)
    | .faultOther => some (m, .start n c .broken)
    | _ => none
  | .succeed =>
    if m.connState = .connecting then some ({ m with connState := .connected }, .start n c .succeedSet)
    -- internal error - transition from an unexpected state
    else some (m, .start n c .succeedSet)
  | .succeedSet => some ({ m with startCompleted := true }, .start n c .started)
  | .fail => some ({ m with transport := none }, .start n c .failState)
  | .failState =>
    some ({ m with connState := .disconnected, failed := Function.update m.failed n true },
      .start n c .failSet)
  | .failSet => some ({ m with startCompleted := true }, .start n c .failed)
  | .rejected | .started | .failed | .broken => none

def runStop (t : ℕ) (m : Mem) (g : Origin) (p : StopPc) (o : Outcome) : Option (Mem × Pc) :=
  match p with
  | .lock => if m.stopLock then none else some ({ m with stopLock := true }, .stop g .check)
  | .check =>
    if m.connState = .disconnected then some (m, .stop g .unlockIdle)
    else if m.connState = .disconnecting then some (m, .stop g .unlockCancelled)
    else some (m, .stop g .cancel)
  | .cancel =>
    some ({ m with cancelled := Function.update m.cancelled m.disconnectCts true }, .stop g .wait)
  | .wait => if m.startCompleted then some (m, .stop g .recheck) else none
  | .recheck =>
    if m.connState = .disconnected then some (m, .stop g .unlockIdle) else some (m, .stop g .exchange)
  | .exchange => some ({ m with connState := .disconnecting, stopper := some t }, .stop g .unlock)
  | .unlock => some ({ m with stopLock := false }, .stop g .abort)
  | .abort =>
    if m.transport.isNone then some (m.crash, .stop g .abort)
    else match o with
      | .throws | .throwsOther => some (m, .stop g .thrown)
      | _ => some (m, .stop g .disconnect)
  | .disconnect =>
    if m.transport.isNone then some (m.crash, .stop g .disconnect)
    else match o with
      | .throws | .throwsOther => some (m, .stop g .thrown)
      | _ => some (m, .stop g .closing)
  | .closing =>
    match o with
    | .ok => some (m, .stop g (.contLock true))
    | .fault | .faultOther => some (m, .stop g .thrown)
    | _ => none
  | .unlockIdle => some ({ m with stopLock := false }, .stop g (.contLock false))
  | .unlockCancelled => some ({ m with stopLock := false }, .stop g .cancelledTask)
  | .contLock own =>
    if m.stopLock then none else some ({ m with stopLock := true }, .stop g (.contCas own))
  | .contCas _ =>
    if m.connState = .disconnecting then some ({ m with connState := .disconnected }, .stop g .contNull)
    else some (m, .stop g .contUnlock)
  | .contNull => some ({ m with transport := none }, .stop g .contUnlock)
  | .contUnlock => some ({ m with stopLock := false }, .stop g .callback)
  | .callback => some (m, .stop g .stopped)
  | .stopped | .cancelledTask | .thrown => none

def runError (m : Mem) (n k c : ℕ) (p : ErrorPc) (o : Outcome) : Option (Mem × Pc) :=
  match p with
  | .check =>
    match m.created n with
    | none => none
    | some cts =>
      if m.cancelled cts then some (m, .finished)
      else some (m, .error n m.sessions c .setException)
  | .setException => some (m.completeConnect n .failed, .error n k c .lock)
  | .lock => if m.stopLock then none else some ({ m with stopLock := true }, .error n k c .wait)
  | .wait => if m.startCompleted then some (m, .error n k c .cas) else none
  | .cas =>
    if m.connState = .connected then some ({ m with connState := .reconnecting }, .error n k c .capture)
    else some (m, .error n k c .quit)
  | .capture => some (m, .error n k m.disconnectCts .unlock)
  | .unlock => some ({ m with stopLock := false }, .error n k c .callback)
  | .callback => some (m, .error n k c .relock)
  | .relock => if m.stopLock then none else some ({ m with stopLock := true }, .error n k c .recheckCts)
  | .recheckCts =>
    if m.cancelled c then some (m, .error n k c .quit) else some (m, .error n k c .recheckState)
  | .recheckState =>
    if m.connState = .reconnecting then some (m, .error n k c .reset) else some (m, .error n k c .quit)
  | .reset => some ({ m with startCompleted := false }, .error n k c .release)
  | .release => some ({ m with stopLock := false }, .error n k c .build)
  | .quit => some ({ m with stopLock := false }, .finished)
  | .build =>
    if m.transport.isNone then some (m.crash, .error n k c .build) else some (m, .error n k c .tryCheck)
  | .tryCheck =>
    if m.cancelled c then some (m, .error n k c .failSet) else some (m, .error n k c .tryConnect)
  | .tryConnect =>
    if m.transport.isNone then some (m.crash, .error n k c .tryConnect)
    else match o with
      | .throws | .throwsOther => some (m, .error n k c .broken)
      | _ => some (m, .error n k c .tryWait)
  | .tryWait =>
    match o with
    | .ok => some (m, .error n k c .okCas)
    | .fault => some (m, .error n k c .tryFailed)
    | .faultOther => some (m, .error n k c .broken)
    | _ => none
  | .tryFailed =>
    if m.cancelled c then some (m, .error n k c .failSet) else some (m, .error n k c .tryWindow)
  | .tryWindow =>
    match o with
    | .expired => some (m, .error n k c .failSet)
    | _ => some (m, .error n k c .retryCheck)
  | .retryCheck =>
    if m.cancelled c then some (m, .error n k c .failSet) else some (m, .error n k c .tryCheck)
  | .okCas =>
    if m.connState = .reconnecting then some ({ m with connState := .connected }, .error n k c .okSet)
    -- internal error - transition from an unexpected state
    else some (m, .error n k c .okSet)
  | .okSet => some ({ m with startCompleted := true }, .error n k c .okCallback)
  | .okCallback => some (m, .finished)
  | .failSet => some ({ m with startCompleted := true }, .stop (.reconnect c m.sessions) .lock)
  | .broken => none

def runMessage (m : Mem) (n : ℕ) (r : Option Json) : Option (Mem × Pc) :=
  match m.created n with
  | none => none
  | some cts =>
    if m.cancelled cts then some (m, .finished) else some (m, .process n m.epoch (processEffects r))

def runProcess (m : Mem) (n k : ℕ) : List Effect → Option (Mem × Pc)
  | [] => some (m, .finished)
  | e :: es => some (m.effect n e, .process n k es)

def runTimer (m : Mem) (n : ℕ) : Option (Mem × Pc) :=
  match m.created n with
  | none => none
  | some cts => some (m.completeConnect n (if m.cancelled cts then .set else .failed), .finished)

/-- One step of thread `t`.  After a null pointer was dereferenced there are no more steps. -/
def next (t : ℕ) (m : Mem) (p : Pc) (i : Input) : Option (Mem × Pc) :=
  if m.crashed then none
  else match p, i with
    | .idle, .call k => enter m k
    | .start n c p, .task o => runStart m n c p o
    | .stop g p, .task o => runStop t m g p o
    | .error n k c p, .task o => runError m n k c p o
    | .message n r, .task _ => runMessage m n r
    | .process n k es, .task _ => runProcess m n k es
    | .timer n, .task _ => runTimer m n
    | _, _ => none

/-- **The program of `connection_impl`.** -/
def prog : Program Mem Pc Input := ⟨{}, .idle, next⟩

/-! ## Schedules -/

/-- Thread `t` begins an activity. -/
def call (t : ℕ) (k : Call) : Act Input := ⟨t, .call k⟩

/-- One step of thread `t` with outcome `o`. -/
def task (t : ℕ) (o : Outcome) : Act Input := ⟨t, .task o⟩

/-- `j` steps of thread `t` in which nothing goes wrong. -/
def tasks (t j : ℕ) : List (Act Input) := List.replicate j (task t .ok)

def negotiationResponse : NegotiationResponse := ⟨"id", "token", 30000, 20000, protocol, true, 5000⟩

def initMessage : Json := .object [("C", .string "d-1"), ("S", .integer 1), ("M", .array [])]

/-- Thread `t` starts session `n`, thread `u` delivers the init message of its transport, and `t` gets
to the point where it moves the state to connected. -/
def starting (t u n : ℕ) : List (Act Input) :=
  [call t .start] ++ tasks t 8 ++ [task t (.negotiated negotiationResponse)] ++ tasks t 3 ++
  [call u (.message n (some initMessage))] ++ tasks u 4 ++ tasks t 4

/-- … and succeeds. -/
def started (t u n : ℕ) : List (Act Input) := starting t u n ++ tasks t 2

end SignalRClient.Connection
