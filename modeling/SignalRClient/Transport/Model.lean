import SignalRClient.Threads.Trace

/-!
# `websocket_transport` as threads over a shared memory

The `connect()` calls that get a client from the factory are numbered from 1; the client, the token source of
the receive loop and the `connect_tce` of such a call carry its number.  `m_receive_loop_cts` of a new
transport is number 0, which is cancelled.

A thread runs a continuation (`Frame`):

* the one of the `connect()` of a client, which begins the receive loop;
* the value continuation of `receive()`, which processes a response and goes on with the loop;
* the task continuation after it, which observes how that has ended;

and, from its callbacks or on its own, a call of `connect()` or `disconnect()` (`Call`).  `refs` is the number
of `shared_ptr`s to the transport: its owner has one, a call or continuation that runs has one, and so has
each continuation of a pending `connect()`.  Who lets go of the last one runs the destructor.

Between the completion of `receive()` and the start of its value continuation other threads may run.  As it is to
start, a value continuation whose token is cancelled is skipped, which yields `task_canceled`.  `R` is the type of
the responses.
-/

namespace SignalRClient.Transport

open Threads

variable {R : Type}

/-- How a call or a task fails: with a `pplx::task_canceled`, another std or another exception. -/
inductive Fault where
  | canceled | std | other
  deriving DecidableEq

/-- A `task_completion_event`. -/
inductive Tce where
  | unset | set | failed
  deriving DecidableEq

/-- One round of a receive loop: the loop, by the `connect()` that began it, and the client it has asked. -/
structure Iteration where
  loop : ℕ
  client : ℕ
  deriving DecidableEq

/-- The shared memory. -/
structure Mem where
  startStopLock : Bool := false                               -- m_start_stop_lock is held
  websocketClient : ℕ := 0                                    -- m_websocket_client; 0 is the null pointer
  receiveLoopCts : ℕ := 0                                     -- m_receive_loop_cts
  cancelled : ℕ → Bool := fun k => k = 0                      -- the token sources that are cancelled
  connects : ℕ := 0                                           -- clients made so far
  connecting : ℕ → Bool := fun _ => false                     -- the connect task of a client is pending
  connectTce : ℕ → Tce := fun _ => .unset
  receives : ℕ := 0                                           -- calls of receive() so far
  receiving : ℕ → Option Iteration := fun _ => none           -- the receive tasks that are pending
  endings : ℕ := 0                                            -- value continuations that are over
  /-- … and not yet observed, with the exception they have ended with -/
  ended : ℕ → Option (Iteration × Option Fault) := fun _ => none
  owned : Bool := true                                        -- the owner holds the transport
  refs : ℕ := 1

/-! ## Program counters -/

inductive ConnectPc where
  | lock | check | factory | setClient (k : ℕ) | connect (k : ℕ) | setCts (k : ℕ) | unlock (k : ℕ)
  | unlockThrow
  | returned (k : ℕ) | thrown
  deriving DecidableEq

inductive DisconnectPc where
  | lock | check | cancel | fetch | unlock (client : ℕ) | close (client : ℕ) | unlockIdle
  | returned | thrown
  deriving DecidableEq

/-- `dtor`: the call of the destructor, which holds no reference. -/
inductive Call where
  | connect (p : ConnectPc)
  | disconnect (dtor : Bool) (p : DisconnectPc)
  deriving DecidableEq

/-- The continuation of the `connect()` of a client; `fetch` and `receive` are `receive_loop`. -/
inductive ConnectedPc where
  | fetch | receive (client : ℕ) | set | cancel | setException | release
  deriving DecidableEq

/-- The value continuation of `receive()`, `scheduled` before it starts; `fetch` and `receive` are `receive_loop`. -/
inductive MessagePc where
  | scheduled | acquire | process | processing | check | fetch | receive (client : ℕ) | release (f : Option Fault)
  deriving DecidableEq

/-- The task continuation after it. -/
inductive ObservePc where
  | quiet | cancel | close | acquire | error | erroring
  deriving DecidableEq

inductive Frame (R : Type) where
  | idle
  | connected (k : ℕ) (p : ConnectedPc)
  | message (i : Iteration) (response : R) (p : MessagePc)
  | observe (i : Iteration) (p : ObservePc)
  deriving DecidableEq

@[ext]
structure Pc (R : Type) where
  frame : Frame R := .idle
  call : Option Call := none
  deriving DecidableEq

/-! ## Inputs -/

inductive Input (R : Type) where
  | connect | disconnect
  /-- the owner lets go of the transport -/
  | drop
  /-- the connect task of client `k` completes, or fails -/
  | connected (k : ℕ) (f : Option Fault)
  /-- the receive task `r` completes with a response, or fails -/
  | received (r : ℕ) (o : R ⊕ Fault)
  /-- the task continuation of the value continuation that was the `e`-th to end -/
  | observe (e : ℕ)
  /-- a step of what the thread is at; what it calls fails with `f` -/
  | go (f : Option Fault)

/-! ## Steps -/

def Mem.cancel (m : Mem) (k : ℕ) : Mem := { m with cancelled := Function.update m.cancelled k true }

/-- `tce.set()` or `tce.set_exception()` of the `connect()` number `k` -/
def Mem.completeConnect (m : Mem) (k : ℕ) (v : Tce) : Mem :=
  { m with connectTce := Function.update m.connectTce k (if m.connectTce k = .unset then v else m.connectTce k) }

/-- `receive()` on a client has returned a task, to which the continuations are attached. -/
def Mem.receive (m : Mem) (i : Iteration) : Mem :=
  { m with receives := m.receives + 1, receiving := Function.update m.receiving m.receives (some i) }

/-- A value continuation is over, or skipped. -/
def Mem.finish (m : Mem) (i : Iteration) (f : Option Fault) : Mem :=
  { m with endings := m.endings + 1, ended := Function.update m.ended m.endings (some (i, f)) }

/-- A reference goes out of scope, with the destructor after the last one. -/
def Mem.release (m : Mem) : Mem × Option Call :=
  ({ m with refs := m.refs - 1 }, if m.refs = 1 then some (.disconnect true .lock) else none)

def runConnect (m : Mem) (p : ConnectPc) (f : Option Fault) : Option (Mem × ConnectPc) :=
  match p with
  | .lock => if m.startStopLock then none else some ({ m with startStopLock := true }, .check)
  | .check => if m.cancelled m.receiveLoopCts then some (m, .factory) else some (m, .unlockThrow)
  | .factory =>
    match f with
    | none => some ({ m with connects := m.connects + 1 }, .setClient (m.connects + 1))
    | some _ => some (m, .unlockThrow)
  | .setClient k => some ({ m with websocketClient := k }, .connect k)
  | .connect k =>
    match f with
    -- the continuation has captured a reference
    | none => some ({ m with connecting := Function.update m.connecting k true, refs := m.refs + 1 }, .setCts k)
    | some _ => some (m, .unlockThrow)
  | .setCts k => some ({ m with receiveLoopCts := k }, .unlock k)
  | .unlock k => some ({ m with startStopLock := false }, .returned k)
  | .unlockThrow => some ({ m with startStopLock := false }, .thrown)
  | .returned _ | .thrown => none

def runDisconnect (m : Mem) (p : DisconnectPc) (f : Option Fault) : Option (Mem × DisconnectPc) :=
  match p with
  | .lock => if m.startStopLock then none else some ({ m with startStopLock := true }, .check)
  | .check => if m.cancelled m.receiveLoopCts then some (m, .unlockIdle) else some (m, .cancel)
  | .cancel => some (m.cancel m.receiveLoopCts, .fetch)
  | .fetch => some (m, .unlock m.websocketClient)
  | .unlock client => some ({ m with startStopLock := false }, .close client)
  | .close _ =>
    match f with
    | none => some (m, .returned)
    | some _ => some (m, .thrown)
  | .unlockIdle => some ({ m with startStopLock := false }, .returned)
  | .returned | .thrown => none

def runCall (m : Mem) (c : Call) (f : Option Fault) : Option (Mem × Option Call) :=
  match c with
  | .connect (.returned _) | .connect .thrown => some m.release
  | .connect p => (runConnect m p f).map fun r => (r.1, some (.connect r.2))
  | .disconnect dtor .returned | .disconnect dtor .thrown => some (if dtor then (m, none) else m.release)
  | .disconnect dtor p => (runDisconnect m p f).map fun r => (r.1, some (.disconnect dtor r.2))

/-- The thread is done with its continuation, and lets go of its reference. -/
def Mem.leave (m : Mem) : Mem × Pc R := (m.release.1, ⟨.idle, m.release.2⟩)

def runConnected (m : Mem) (k : ℕ) (p : ConnectedPc) (f : Option Fault) : Mem × Pc R :=
  match p with
  | .fetch => (m, ⟨.connected k (.receive m.websocketClient), none⟩)
  | .receive client =>
    match f with
    | none => (m.receive ⟨k, client⟩, ⟨.connected k .set, none⟩)
    -- the continuation handles std exceptions only
    | some .other => (m, ⟨.connected k .release, none⟩)
    | some _ => (m, ⟨.connected k .cancel, none⟩)
  | .set => (m.completeConnect k .set, ⟨.connected k .release, none⟩)
  | .cancel => (m.cancel k, ⟨.connected k .setException, none⟩)
  | .setException => (m.completeConnect k .failed, ⟨.connected k .release, none⟩)
  | .release => m.leave

def runMessage (m : Mem) (i : Iteration) (response : R) (p : MessagePc) (f : Option Fault) :
    Mem × Pc R :=
  match p with
  | .scheduled =>
    if m.cancelled i.loop then (m.finish i (some .canceled), {})
    else (m, ⟨.message i response .acquire, none⟩)
  | .acquire =>
    if m.refs = 0 then (m.finish i none, {})
    else ({ m with refs := m.refs + 1 }, ⟨.message i response .process, none⟩)
  -- the conversion of the response may throw; `processing` is the call of the callback
  | .process =>
    match f with
    | none => (m, ⟨.message i response .processing, none⟩)
    | some _ => (m, ⟨.message i response (.release f), none⟩)
  | .processing =>
    match f with
    | none => (m, ⟨.message i response .check, none⟩)
    | some _ => (m, ⟨.message i response (.release f), none⟩)
  | .check =>
    if m.cancelled i.loop then (m, ⟨.message i response (.release none), none⟩)
    else (m, ⟨.message i response .fetch, none⟩)
  | .fetch => (m, ⟨.message i response (.receive m.websocketClient), none⟩)
  | .receive client =>
    match f with
    | none => (m.receive ⟨i.loop, client⟩, ⟨.message i response (.release none), none⟩)
    | some _ => (m, ⟨.message i response (.release f), none⟩)
  | .release f => (m.finish i f).leave

def runObserve (m : Mem) (i : Iteration) (p : ObservePc) (f : Option Fault) : Mem × Pc R :=
  match p with
  | .quiet => (m.cancel i.loop, {})
  | .cancel => (m.cancel i.loop, ⟨.observe i .close, none⟩)
  | .close =>
    match f with
    | none => (m, ⟨.observe i .acquire, none⟩)
    | some _ => (m, {})
  | .acquire =>
    if m.refs = 0 then (m, {}) else ({ m with refs := m.refs + 1 }, ⟨.observe i .error, none⟩)
  | .error => (m, ⟨.observe i .erroring, none⟩)
  | .erroring => m.leave

/-- An idle thread begins a continuation. -/
def enter (m : Mem) : Input R → Option (Mem × Pc R)
  | .drop => if m.owned then some (({ m with owned := false } : Mem).leave) else none
  | .connected k f =>
    if m.connecting k then
      let m := { m with connecting := Function.update m.connecting k false }
      match f with
      | none => some (m, ⟨.connected k .fetch, none⟩)
      | some .other => some (m, ⟨.connected k .release, none⟩)
      | some _ => some (m, ⟨.connected k .cancel, none⟩)
    else none
  | .received r o =>
    (m.receiving r).map fun i =>
      let m := { m with receiving := Function.update m.receiving r none }
      match o with
      | .inl response => (m, ⟨.message i response .scheduled, none⟩)
      | .inr f => (m.finish i (some f), {})
  | .observe e =>
    (m.ended e).map fun r =>
      let m := { m with ended := Function.update m.ended e none }
      match r.2 with
      | none => (m, {})
      | some .canceled => (m, ⟨.observe r.1 .quiet, none⟩)
      | some _ => (m, ⟨.observe r.1 .cancel, none⟩)
  | _ => none

def runFrame (m : Mem) (p : Frame R) (f : Option Fault) : Option (Mem × Pc R) :=
  match p with
  | .idle => none
  | .connected k p => some (runConnected m k p f)
  | .message i response p => some (runMessage m i response p f)
  | .observe i p => some (runObserve m i p f)

/-- Where a call can be made from: a thread of the user, and the two callbacks. -/
def Frame.calls : Frame R → Bool
  | .idle | .message _ _ .processing | .observe _ .erroring => true
  | _ => false

/-- One step of a thread. -/
def next (_ : ℕ) (m : Mem) (p : Pc R) (i : Input R) : Option (Mem × Pc R) :=
  match p.call, i with
  | some c, .go f => (runCall m c f).map fun r => (r.1, ⟨p.frame, r.2⟩)
  | some _, _ => none
  | none, .connect =>
    if p.frame.calls ∧ m.refs ≠ 0 then
      some ({ m with refs := m.refs + 1 }, ⟨p.frame, some (.connect .lock)⟩)
    else none
  | none, .disconnect =>
    if p.frame.calls ∧ m.refs ≠ 0 then
      some ({ m with refs := m.refs + 1 }, ⟨p.frame, some (.disconnect false .lock)⟩)
    else none
  | none, .go f => runFrame m p.frame f
  | none, i => match p.frame with
    | .idle => enter m i
    | _ => none

/-- **The program of `websocket_transport`.** -/
def prog : Program Mem (Pc R) (Input R) := ⟨{}, {}, next⟩

end SignalRClient.Transport
