import SignalRClient.Connection.Completion
import SignalRClient.Connection.Endings
import SignalRClient.Threads.References

/-!
# The destructor of `connection_impl`

The continuations of `start()` and `stop()` have a `shared_ptr` to the connection.  The callbacks of a transport and
the continuations of `try_reconnect()` have a `weak_ptr`, which they lock when they come to use the connection.  Who
lets go of the last `shared_ptr` runs the destructor: it signals the event, calls `shutdown()`, and moves the state to
disconnected.

* `destroyed_once` — the destructor runs once, when nobody has the connection, and while it runs no other thread
  touches it;
* `destructor_ends` — it ends, whatever was under way: it waits neither for the lock nor for the event, and it does
  not get the `task_canceled` that its assertion excludes, unless a shutdown has failed before
  (`failedShutdown_asserts`).
-/

namespace SignalRClient.Destructor

open Threads
open Connection (StartPc StopPc ErrorPc Outcome)

/-! ## The program -/

/-- The destructor: `shutdown()` from `lock` on, then the rest of the body.  `assertion` is where the task of
`shutdown()` is cancelled. -/
inductive DtorPc where
  | set
  | shutdown (q : StopPc)
  | null | exchange
  | ended | assertion
  deriving DecidableEq

/-- What a thread has of the connection.  `free`: a `weak_ptr` at most; `gone`: one that could not be locked. -/
inductive Ref where
  | free | held | gone
  | destroys (q : DtorPc)
  deriving DecidableEq

structure Mem where
  conn : Connection.Mem := {}
  owned : Bool := true                               -- the user has the connection
  refs : ℕ := 1                                      -- the shared_ptrs

structure Pc where
  conn : Connection.Pc := .idle
  ref : Ref := .free

inductive Input where
  | conn (i : Connection.Input)
  | lock                                             -- weak_ptr::lock()
  | release                                          -- a shared_ptr goes out of scope
  | drop                                             -- … that of the user
  | destroy (o : Outcome)

def startNeeds : StartPc → Bool
  | .rejected | .started | .failed | .broken => false
  | _ => true

def stopNeeds : StopPc → Bool
  | .stopped | .cancelledTask | .thrown => false
  | _ => true

/-- The error callback looks at its token and completes its `connect_request_tce` before it locks the `weak_ptr`; the
continuations in `try_reconnect()` have captured all they use. -/
def errorNeeds : ErrorPc → Bool
  | .check | .setException | .tryWait | .tryFailed | .tryWindow | .retryCheck | .broken => false
  | _ => true

/-- The next step uses the connection. -/
def needs : Connection.Pc → Bool
  | .start _ _ q => startNeeds q
  | .stop _ q => stopNeeds q
  | .error _ _ _ q => errorNeeds q
  | .process _ _ _ => true
  | .idle | .message _ _ | .timer _ | .finished => false

/-- The call takes a `shared_ptr`. -/
def begins : Connection.Input → Bool
  | .call .start | .call .stop => true
  | _ => false

/-- A `shared_ptr` goes out of scope, with the destructor after the last one. -/
def Mem.release (m : Mem) : Mem × Ref :=
  ({ m with refs := m.refs - 1 }, if m.refs = 1 then .destroys .set else .free)

/-- Where the destructor is after a step of `shutdown()`: it catches what that throws. -/
def afterShutdown : Connection.Pc → DtorPc
  | .stop _ (.contLock _) | .stop _ .thrown => .null
  | .stop _ .cancelledTask => .assertion
  | .stop _ q => .shutdown q
  | _ => .assertion

def runDtor (t : ℕ) (m : Connection.Mem) (q : DtorPc) (o : Outcome) : Option (Connection.Mem × DtorPc) :=
  match q with
  | .set => some ({ m with startCompleted := true }, .shutdown .lock)
  | .shutdown q => (Connection.runStop t m .user q o).map fun r => (r.1, afterShutdown r.2)
  | .null => some ({ m with transport := none }, .exchange)
  | .exchange => some ({ m with connState := .disconnected }, .ended)
  | .ended | .assertion => none

def next (t : ℕ) (m : Mem) (p : Pc) (i : Input) : Option (Mem × Pc) :=
  if m.conn.crashed then none
  else match p.ref, i with
    | .free, .conn i =>
      if begins i then
        if m.refs = 0 then none
        else (Connection.next t m.conn p.conn i).map fun r => ({ m with conn := r.1, refs := m.refs + 1 }, ⟨r.2, .held⟩)
      else if needs p.conn then none
      else (Connection.next t m.conn p.conn i).map fun r => ({ m with conn := r.1 }, ⟨r.2, .free⟩)
    | .held, .conn i => (Connection.next t m.conn p.conn i).map fun r => ({ m with conn := r.1 }, ⟨r.2, .held⟩)
    | .free, .lock =>
      if needs p.conn then
        if m.refs = 0 then some (m, { p with ref := .gone })
        else some ({ m with refs := m.refs + 1 }, { p with ref := .held })
      else none
    | .held, .release => if needs p.conn then none else some (m.release.1, { p with ref := m.release.2 })
    | .free, .drop =>
      match p.conn with
      | .idle =>
        if m.owned then
          some (({ m with owned := false } : Mem).release.1, ⟨.idle, ({ m with owned := false } : Mem).release.2⟩)
        else none
      | _ => none
    | .destroys q, .destroy o =>
      (runDtor t m.conn q o).map fun r => ({ m with conn := r.1 }, { p with ref := .destroys r.2 })
    | _, _ => none

/-- **The program of `connection_impl` with its references.** -/
def prog : Program Mem Pc Input := ⟨{}, {}, next⟩

/-! ## The steps -/

/-- What a step is: one of the connection, a `shared_ptr` that is taken or goes out of scope, a `weak_ptr` that can not
be locked, or one of the destructor. -/
inductive Step (t : ℕ) (m : Mem) : Pc → Input → Mem → Pc → Prop
  | begin {p q : Connection.Pc} {i : Connection.Input} {c : Connection.Mem} : begins i = true → m.refs ≠ 0 →
      Connection.next t m.conn p i = some (c, q) →
      Step t m ⟨p, .free⟩ (.conn i) { m with conn := c, refs := m.refs + 1 } ⟨q, .held⟩
  | weak {p q : Connection.Pc} {i : Connection.Input} {c : Connection.Mem} : begins i = false → needs p = false →
      Connection.next t m.conn p i = some (c, q) → Step t m ⟨p, .free⟩ (.conn i) { m with conn := c } ⟨q, .free⟩
  | use {p q : Connection.Pc} {i : Connection.Input} {c : Connection.Mem} : Connection.next t m.conn p i = some (c, q) →
      Step t m ⟨p, .held⟩ (.conn i) { m with conn := c } ⟨q, .held⟩
  | lock {p : Connection.Pc} : needs p = true → m.refs ≠ 0 →
      Step t m ⟨p, .free⟩ .lock { m with refs := m.refs + 1 } ⟨p, .held⟩
  | fail {p : Connection.Pc} : needs p = true → m.refs = 0 → Step t m ⟨p, .free⟩ .lock m ⟨p, .gone⟩
  | release {p : Connection.Pc} : needs p = false → Step t m ⟨p, .held⟩ .release m.release.1 ⟨p, m.release.2⟩
  | drop : m.owned = true → Step t m ⟨.idle, .free⟩ .drop ({ m with owned := false } : Mem).release.1
      ⟨.idle, ({ m with owned := false } : Mem).release.2⟩
  | destroy {p : Connection.Pc} {q q' : DtorPc} {o : Outcome} {c : Connection.Mem} :
      runDtor t m.conn q o = some (c, q') → Step t m ⟨p, .destroys q⟩ (.destroy o) { m with conn := c } ⟨p, .destroys q'⟩

theorem next_step {t : ℕ} {m m' : Mem} {p p' : Pc} {i : Input} (h : next t m p i = some (m', p')) :
    Step t m p i m' p' ∧ m.conn.crashed = false := by
  obtain ⟨p, r⟩ := p
  unfold next at h
  split at h
  · cases h
  · rename_i hcrash
    refine ⟨?_, by simpa using hcrash⟩
    split at h
    · rename_i i hr
      obtain rfl : r = .free := hr
      split at h
      · split at h
        · cases h
        · obtain ⟨⟨c, q⟩, hn, e⟩ := Option.map_eq_some_iff.mp h
          cases e
          exact .begin (by assumption) (by assumption) hn
      · split at h
        · cases h
        · obtain ⟨⟨c, q⟩, hn, e⟩ := Option.map_eq_some_iff.mp h
          cases e
          exact .weak (by simp_all) (by simp_all) hn
    · rename_i i hr
      obtain rfl : r = .held := hr
      obtain ⟨⟨c, q⟩, hn, e⟩ := Option.map_eq_some_iff.mp h
      cases e
      exact .use hn
    · rename_i hr
      obtain rfl : r = .free := hr
      split at h
      · split at h <;> cases h
        · exact .fail (by assumption) (by assumption)
        · exact .lock (by assumption) (by assumption)
      · cases h
    · rename_i hr
      obtain rfl : r = .held := hr
      split at h <;> cases h
      exact .release (by simp_all)
    · rename_i hr
      obtain rfl : r = .free := hr
      cases p with
      | idle =>
        dsimp only at h
        split at h <;> cases h
        exact .drop (by assumption)
      | _ => cases h
    · rename_i q o hr
      obtain rfl : r = .destroys q := hr
      obtain ⟨⟨c, q'⟩, hn, e⟩ := Option.map_eq_some_iff.mp h
      cases e
      exact .destroy hn
    · cases h

/-! ## The references -/

/-- The `shared_ptr` of a thread. -/
def holding (p : Pc) : ℕ := if p.ref = .held then 1 else 0

/-- The thread is in the destructor. -/
def destroys (p : Pc) : Bool :=
  match p.ref with
  | .destroys _ => true
  | _ => false

/-- The count is the number of the references: that of the user, and those of the threads. -/
abbrev Accounted (s : State Mem Pc) : Prop := Counted Mem.refs (fun m n => n = m.owned.toNat) holding s

/-- The members are as they were. -/
structure Untouched (m m' : Connection.Mem) : Prop where
  ledger : m'.toLedger = m.toLedger
  messageId : m'.messageId = m.messageId
  groupsToken : m'.groupsToken = m.groupsToken
  crashed : m'.crashed = m.crashed

section

variable {t : ℕ} {m m' : Mem} {p p' : Pc} {i : Input}

theorem Step.refs (h : Step t m p i m' p') (hle : m.owned.toNat + holding p ≤ m.refs) :
    m'.refs + (m.owned.toNat + holding p) = m.refs + (m'.owned.toNat + holding p') := by
  have hnew : ∀ n : Mem, ∀ q : Connection.Pc, holding ⟨q, n.release.2⟩ = 0 := by
    intro n q
    simp only [holding, Mem.release]
    split <;> rfl
  cases h with
  | release =>
    rw [hnew]
    simp only [holding, Mem.release, if_true] at hle ⊢
    omega
  | drop ho =>
    rw [hnew, ho]
    simp only [holding, Mem.release, ho, Bool.toNat_true, Bool.toNat_false, reduceCtorEq, if_false] at hle ⊢
    omega
  | begin | lock =>
    simp only [holding, reduceCtorEq, if_true, if_false]
    omega
  | _ => rfl

theorem Step.zero (h : Step t m p i m' p') (h0 : m.refs = 0) : m'.refs = 0 := by
  cases h with
  | begin _ hne => exact absurd h0 hne
  | lock _ hne => exact absurd h0 hne
  | release | drop => simp [Mem.release, h0]
  | _ => exact h0

/-- A thread comes to the destructor with the last reference. -/
theorem Step.destroys_iff (h : Step t m p i m' p') :
    (destroys p = false ∧ destroys p' = true) ↔ (m.refs ≠ 0 ∧ m'.refs = 0) := by
  have hlast : ∀ n : Mem, ∀ q : Connection.Pc, destroys ⟨q, n.release.2⟩ = true ↔ n.refs = 1 := by
    intro n q
    by_cases h1 : n.refs = 1 <;> simp [destroys, Mem.release, h1]
  cases h with
  | release =>
    rw [hlast]
    simp only [destroys, Mem.release, true_and]
    omega
  | drop =>
    rw [hlast]
    simp only [destroys, Mem.release, true_and]
    omega
  | begin _ hne | lock _ hne => simp [destroys]
  | _ => simp [destroys]

/-- Without the connection a step changes none of its members. -/
theorem weak_untouched {m m' : Connection.Mem} {p p' : Connection.Pc} {i : Connection.Input}
    (h : Connection.next t m p i = some (m', p')) (hp : needs p = false) (hi : begins i = false) : Untouched m m' := by
  cases Connection.next_leads h with
  | @enter k _ _ he hm _ =>
    refine ⟨hm, ?_, ?_, ?_⟩ <;> cases k <;> simp only [Connection.enter] at he <;> repeat' (split at he)
    all_goals simp only [reduceCtorEq, Option.some.injEq, Prod.mk.injEq] at he
    all_goals obtain ⟨rfl, -⟩ := he; rfl
  | @start n c _ _ q _ o _ hr =>
    cases q <;> first | (cases hp; done) | cases hr
  | @stop g q _ o _ hr =>
    cases q <;> first | (cases hp; done) | cases hr
  | @error n k c _ _ q _ o _ hr | @leave n k c q o _ hr | @giveUp n k c q o _ hr =>
    cases q <;> first | (cases hp; done) | simp only [Connection.runError] at hr
    all_goals repeat' (split at hr)
    all_goals simp only [reduceCtorEq, Option.some.injEq, Prod.mk.injEq] at hr
    all_goals obtain ⟨rfl, -⟩ := hr; exact ⟨rfl, rfl, rfl, rfl⟩
  | effect | processed => cases hp
  | late | check | timer => exact ⟨rfl, rfl, rfl, rfl⟩

end

section

variable {ok : State Mem Pc → Act Input → Prop} {s : State Mem Pc}

theorem accounted_holds (h : prog.Reach ok s) : Accounted s := by
  refine h.invariant (J := Accounted) ⟨1, ∅, rfl, fun _ _ => rfl, rfl⟩ fun s a m p _ _ hi hn => ?_
  refine hi.step fun n hn' hle => ?_
  subst hn'
  exact ⟨_, rfl, (next_step hn).1.refs hle⟩

theorem disposed_holds (h : prog.Reach ok s) : Disposed Mem.refs destroys s := by
  refine h.invariant (J := Disposed Mem.refs destroys)
    ⟨fun _ e => (by cases e), fun _ _ e _ => (by cases e)⟩ fun s a m p _ _ hi hn => ?_
  have hstep := (next_step hn).1
  refine hi.step hstep.zero fun hp => ?_
  cases hold : destroys (s.pc a.thread) with
  | true => exact .inl rfl
  | false => exact .inr (hstep.destroys_iff.mp ⟨hold, hp⟩)

theorem refs_eq_zero_iff (h : prog.Reach ok s) :
    s.mem.refs = 0 ↔ s.mem.owned = false ∧ ∀ t, (s.pc t).ref ≠ .held := by
  have hacc := accounted_holds h
  constructor
  · intro h0
    obtain ⟨hmem, hall⟩ := hacc.none h0
    refine ⟨by simpa using hmem.symm, fun t ht => ?_⟩
    have := hall t
    simp [holding, ht] at this
  · rintro ⟨ho, hall⟩
    apply hacc.eq_zero
    · intro n hn
      rw [hn, ho]
      rfl
    · intro t
      simp [holding, hall t]

/-- Once the last reference is gone, only the destructor touches the connection. -/
theorem untouched_of_step {a : Act Input} {s' : State Mem Pc} (h : prog.Reach ok s) (h0 : s.mem.refs = 0)
    (hs : prog.step s a = some s') : destroys (s.pc a.thread) = true ∨ Untouched s.mem.conn s'.mem.conn := by
  obtain ⟨m, p, hn, rfl⟩ := Program.step_eq_some.mp hs
  have hn : next a.thread s.mem (s.pc a.thread) a.input = some (m, p) := hn
  have hfree := ((refs_eq_zero_iff h).mp h0).2 a.thread
  have hstep := (next_step hn).1
  rw [State.set_mem]
  generalize s.pc a.thread = q, a.input = i at hstep hfree
  cases hstep with
  | begin _ hne => exact absurd h0 hne
  | lock _ hne => exact absurd h0 hne
  | use | release => exact absurd rfl hfree
  | weak hi hp hc => exact .inr (weak_untouched hc hp hi)
  | fail | drop => exact .inr ⟨rfl, rfl, rfl, rfl⟩
  | destroy => exact .inl rfl

end

/-- Seen: the threads that come to the destructor. -/
def events (t : ℕ) (_ : Mem) (p : Pc) (_ : Input) (_ : Mem) (p' : Pc) : List ℕ :=
  if destroys p = false ∧ destroys p' = true then [t] else []

def conns (l : List (Act Connection.Input)) : List (Act Input) := l.map fun a => ⟨a.thread, .conn a.input⟩

/-- Thread 0 starts the connection, with the init message from thread 1, and both let go of it. -/
def connected : List (Act Input) :=
  conns ([Connection.call 0 .start] ++ Connection.tasks 0 8 ++
    [Connection.task 0 (.negotiated Connection.negotiationResponse)] ++ Connection.tasks 0 3 ++
    [Connection.call 1 (.message 1 (some Connection.initMessage))] ++ Connection.tasks 1 1) ++
  [⟨1, .lock⟩] ++ conns (Connection.tasks 1 3 ++ Connection.tasks 0 6) ++ [⟨1, .release⟩, ⟨0, .release⟩]

/-- Thread 2 loses the connection and waits for an attempt to reconnect; the user lets go of the connection on thread
3, which is in the destructor. -/
def dropping : List (Act Input) :=
  connected ++ conns ([Connection.call 2 (.error 1)] ++ Connection.tasks 2 2) ++ [⟨2, .lock⟩] ++
  conns (Connection.tasks 2 14) ++ [⟨2, .release⟩, ⟨3, .drop⟩] ++ List.replicate 4 ⟨3, .destroy .ok⟩

/-- **The references are counted, and the destructor runs once**: when neither the user nor a thread has the
connection any more.  From then on no `weak_ptr` can be locked, and the members are touched by the destructor only. -/
theorem destroyed_once {ok : State Mem Pc → Act Input → Prop} {s : State Mem Pc} {l : List ℕ}
    (h : prog.Trace ok events s l) : Accounted s ∧ l.length = (if s.mem.refs = 0 then 1 else 0) ∧
      (s.mem.refs = 0 ↔ s.mem.owned = false ∧ ∀ t, (s.pc t).ref ≠ .held) ∧
      (∀ t u, destroys (s.pc t) = true → destroys (s.pc u) = true → t = u) ∧
      (∀ t, destroys (s.pc t) = true → s.mem.refs = 0) ∧
      (s.mem.refs = 0 → ∀ a s', prog.step s a = some s' →
        s'.mem.refs = 0 ∧ (destroys (s.pc a.thread) = true ∨ Untouched s.mem.conn s'.mem.conn)) := by
  have hdisposed := disposed_holds h.reach
  refine ⟨accounted_holds h.reach, ?_, refs_eq_zero_iff h.reach, hdisposed.alone, hdisposed.none, fun h0 a s' hs => ?_⟩
  · rw [← List.countP_true]
    refine Program.Trace.once Mem.refs (fun _ => true) (by decide) ?_ h
    intro s a l m p _ _ hn
    have hstep := (next_step hn).1
    refine ⟨hstep.zero, ?_⟩
    rw [List.countP_true, events]
    by_cases hlast : destroys (s.pc a.thread) = false ∧ destroys p = true
    · rw [if_pos hlast, if_pos (hstep.destroys_iff.mp hlast)]
      rfl
    · rw [if_neg hlast, if_neg fun hc => hlast (hstep.destroys_iff.mpr hc)]
      rfl
  · refine ⟨?_, untouched_of_step h.reach h0 hs⟩
    obtain ⟨m, p, hn, rfl⟩ := Program.step_eq_some.mp hs
    exact (next_step hn).1.zero h0

theorem destroyed_once_dropping : ∃ s,
    ((s.pc 2).conn = .error 1 1 1 .tryWait ∧ (s.pc 3).ref = .destroys (.shutdown .wait)) ∧
    Accounted s ∧ s.mem.refs = 0 ∧ (∀ u, destroys (s.pc u) = true → u = 3) ∧
    ∀ a s', prog.step s a = some s' →
      s'.mem.refs = 0 ∧ (destroys (s.pc a.thread) = true ∨ Untouched s.mem.conn s'.mem.conn) := by
  obtain ⟨s, l, h, hf⟩ := prog.exists_of_history events Test.all dropping
    (fun s l => ((s.pc 2).conn, (s.pc 3).ref, l.length)) (.error 1 1 1 .tryWait, .destroys (.shutdown .wait), 1) rfl
  simp only [Prod.mk.injEq] at hf
  obtain ⟨h2, h3, -⟩ := hf
  have hd : destroys (s.pc 3) = true := by rw [destroys, h3]
  obtain ⟨hcount, -, -, halone, hnone, hafter⟩ := destroyed_once h
  exact ⟨s, ⟨h2, h3⟩, hcount, hnone 3 hd, fun u hu => halone u 3 hu hd, hafter (hnone 3 hd)⟩

/-! ## What the last one leaves -/

/-- The connection. -/
abbrev connection (s : State Mem Pc) : State Connection.Mem Connection.Pc := s.project Mem.conn Pc.conn

/-- A condition on the steps of the connection. -/
def Lifts (ok : State Connection.Mem Connection.Pc → Act Connection.Input → Prop) (s : State Mem Pc) (a : Act Input) :
    Prop :=
  ∀ i, a.input = .conn i → ok (connection s) ⟨a.thread, i⟩

/-- A `weak_ptr` is locked here. -/
def entry : Connection.Pc → Bool
  | .error _ _ _ .lock | .error _ _ _ .tryCheck | .error _ _ _ .okCas | .error _ _ _ .failSet | .process _ _ _ => true
  | _ => false

/-- In the middle of a use of the connection. -/
def inside (p : Connection.Pc) : Bool := needs p && !entry p

section

variable {t : ℕ} {m m' : Connection.Mem} {p p' : Connection.Pc} {i : Connection.Input}

/-- Without a reference a thread comes to where it locks its `weak_ptr`. -/
theorem next_entry (h : Connection.next t m p i = some (m', p')) (hp : needs p = false) (hi : begins i = false) :
    inside p' = false := by
  cases Connection.next_leads h with
  | @enter k _ _ _ _ hp' =>
    subst hp'
    cases k <;> first | rfl | cases hi
  | @start n c _ _ q _ o _ hr =>
    cases q <;> first | (cases hp; done) | cases hr
  | @stop g q _ o _ hr =>
    cases q <;> first | (cases hp; done) | cases hr
  | @error n k c _ _ q _ o _ hr | @giveUp n k c q o _ hr =>
    cases q <;> first | (cases hp; done) | simp only [Connection.runError] at hr
    all_goals repeat' (split at hr)
    all_goals simp only [reduceCtorEq, Option.some.injEq, Prod.mk.injEq, Connection.Pc.error.injEq] at hr
    all_goals first | rfl | (obtain ⟨-, -, -, -, rfl⟩ := hr <;> rfl)
  | effect | processed => cases hp
  | leave | late | check | timer => rfl

theorem inside_of_locked (h : p.role.locked = true) : inside p = true := by
  cases p with
  | start n c q | stop g q | error n k c q => cases q <;> first | rfl | cases h
  | _ => cases h

theorem inside_of_finishes (h : p.finishes = true) : inside p = true := by
  obtain ⟨g, q, rfl⟩ := Connection.stop_of_finishes h
  cases q <;> first | rfl | cases h

theorem inside_of_connects (h : p.connects) (hb : p.isBroken = false) : inside p = true := by
  unfold Connection.Pc.connects at h
  cases p with
  | start n c q | stop g q | error n k c q => cases q <;> first | rfl | (cases h; done) | cases hb
  | _ => cases h

end

section

variable {ok : State Connection.Mem Connection.Pc → Act Connection.Input → Prop} {ok' : State Mem Pc → Act Input → Prop}
  {s : State Mem Pc}

/-- Who is in the middle of a use has a reference. -/
theorem held_of_inside (h : prog.Reach ok' s) (t : ℕ) (ht : inside (s.pc t).conn = true) : (s.pc t).ref = .held := by
  revert ht
  refine h.each (L := fun _ _ p => inside p.conn = true → p.ref = .held) (fun _ e => (by cases e)) ?_ t
  intro s a m p _ _ ih hn
  refine ⟨fun hp => ?_, fun u _ => ih u⟩
  have hold := ih a.thread
  have hstep := (next_step (t := a.thread) hn).1
  generalize s.pc a.thread = q, a.input = i at hstep hold
  cases hstep with
  | weak hi hq hc =>
    rw [next_entry hc hq hi] at hp
    cases hp
  | release hq =>
    simp [inside, hq] at hp
  | drop => cases hp
  | fail => cases hold hp
  | destroy => cases hold hp
  | _ => rfl

/-- **As long as there is a reference, the run is one of the connection.** -/
theorem reach_connection (h : prog.Reach (Lifts ok) s) (hrefs : s.mem.refs ≠ 0) :
    Connection.prog.Reach ok (connection s) := by
  have halive : prog.Reach (fun s a => Lifts ok s a ∧ s.mem.refs ≠ 0) s := by
    revert hrefs
    refine h.invariant (J := fun s => s.mem.refs ≠ 0 → prog.Reach (fun s a => Lifts ok s a ∧ s.mem.refs ≠ 0) s)
      (fun _ => .init) fun s a m p hr ha ih hn hrefs => ?_
    have hbefore : s.mem.refs ≠ 0 := fun h0 => hrefs ((next_step hn).1.zero h0)
    exact (ih hbefore).step ⟨ha, hbefore⟩ (Program.step_eq_some.mpr ⟨m, p, hn, rfl⟩)
  refine halive.project rfl rfl fun s a m p hr ha hn => ?_
  have hdestroys : destroys (s.pc a.thread) = true → False := fun hd => ha.2 ((disposed_holds hr).none _ hd)
  have hok := ha.1
  have hstep := (next_step hn).1
  unfold Lifts at hok
  generalize s.pc a.thread = q, a.input = i at hstep hok hdestroys
  cases hstep with
  | begin _ _ hc => exact .inr ⟨_, hok _ rfl, hc⟩
  | weak _ _ hc => exact .inr ⟨_, hok _ rfl, hc⟩
  | use hc => exact .inr ⟨_, hok _ rfl, hc⟩
  | destroy => exact (hdestroys rfl).elim
  | _ => exact .inl ⟨rfl, rfl⟩

end

/-! ## The destructor to its end -/

/-- The connection has something to end, and the transport for that. -/
def Open (m : Connection.Core) : Prop :=
  (m.connState = .connected ∨ m.connState = .reconnecting) ∧ m.transport ≠ none

/-- What holds before each step of the destructor. -/
def DtorPc.Pre (m : Connection.Core) : DtorPc → Prop
  | .set => m.stopLock = false ∧ (m.connState = .disconnected ∨ Open m)
  | .shutdown .lock => m.stopLock = false ∧ m.startCompleted = true ∧ (m.connState = .disconnected ∨ Open m)
  | .shutdown .check => m.startCompleted = true ∧ (m.connState = .disconnected ∨ Open m)
  | .shutdown .cancel | .shutdown .wait => m.startCompleted = true ∧ Open m
  | .shutdown .recheck | .shutdown .exchange => Open m
  | .shutdown .unlock | .shutdown .abort | .shutdown .disconnect => m.transport ≠ none
  | .shutdown .closing | .shutdown .unlockIdle | .null => True
  | .exchange => m.transport = none
  | .ended => m.connState = .disconnected ∧ m.transport = none
  | _ => False

/-- The number of steps to the end. -/
def DtorPc.todo : DtorPc → ℕ
  | .set => 13 | .shutdown .lock => 12 | .shutdown .check => 11 | .shutdown .cancel => 10 | .shutdown .wait => 9
  | .shutdown .recheck => 8 | .shutdown .exchange => 7 | .shutdown .unlock => 6 | .shutdown .abort => 5
  | .shutdown .disconnect => 4 | .shutdown .closing | .shutdown .unlockIdle => 3
  | .null => 2 | .exchange => 1
  | _ => 0

section

variable {t : ℕ} {m m' : Connection.Mem} {q q' : DtorPc} {o : Outcome}

theorem Open.ne (h : Open m.toCore) : m.connState ≠ .disconnected ∧ m.connState ≠ .disconnecting := by
  rcases h.1 with e | e <;> rw [e] <;> decide

/-- A step of the destructor, whatever the requests and the socket answer. -/
theorem runDtor_pre (h : runDtor t m q o = some (m', q')) (hq : q.Pre m.toCore) (hc : m.crashed = false) :
    q'.Pre m'.toCore ∧ m'.crashed = false ∧ q'.todo < q.todo := by
  cases q with
  | set =>
    obtain ⟨hl, hs⟩ := hq
    cases h
    exact ⟨⟨hl, rfl, hs⟩, hc, by decide⟩
  | null =>
    cases h
    exact ⟨rfl, hc, by decide⟩
  | exchange =>
    cases h
    exact ⟨⟨rfl, hq⟩, hc, by decide⟩
  | ended | assertion => cases h
  | shutdown q =>
    obtain ⟨⟨c, p⟩, hr, e⟩ := Option.map_eq_some_iff.mp h
    cases e
    cases q with
    | lock =>
      obtain ⟨hl, he, hs⟩ := hq
      simp only [Connection.runStop, hl, Bool.false_eq_true, if_false] at hr
      cases hr
      exact ⟨⟨he, hs⟩, hc, by simp [afterShutdown, DtorPc.todo]⟩
    | check =>
      obtain ⟨he, hd | hopen⟩ := hq
      · simp only [Connection.runStop, hd, if_true] at hr
        cases hr
        exact ⟨trivial, hc, by simp [afterShutdown, DtorPc.todo]⟩
      · obtain ⟨hd, hg⟩ := hopen.ne
        simp only [Connection.runStop, if_neg hd, if_neg hg] at hr
        cases hr
        exact ⟨⟨he, hopen⟩, hc, by simp [afterShutdown, DtorPc.todo]⟩
    | cancel =>
      cases hr
      exact ⟨hq, hc, by simp [afterShutdown, DtorPc.todo]⟩
    | wait =>
      obtain ⟨he, hopen⟩ := hq
      simp only [Connection.runStop, he, if_true] at hr
      cases hr
      exact ⟨hopen, hc, by simp [afterShutdown, DtorPc.todo]⟩
    | recheck =>
      simp only [Connection.runStop, if_neg (Open.ne hq).1] at hr
      cases hr
      exact ⟨hq, hc, by simp [afterShutdown, DtorPc.todo]⟩
    | exchange =>
      cases hr
      exact ⟨hq.2, hc, by simp [afterShutdown, DtorPc.todo]⟩
    | unlock =>
      cases hr
      exact ⟨hq, hc, by simp [afterShutdown, DtorPc.todo]⟩
    | abort | disconnect =>
      have htransport : m.transport.isNone = false := by
        simpa [DtorPc.Pre, Option.isSome_iff_ne_none] using hq
      simp only [Connection.runStop, htransport, Bool.false_eq_true, if_false] at hr
      split at hr <;> cases hr
      all_goals exact ⟨by first | exact hq | trivial, hc, by simp [afterShutdown, DtorPc.todo]⟩
    | closing =>
      simp only [Connection.runStop] at hr
      split at hr <;> cases hr
      all_goals exact ⟨trivial, hc, by simp [afterShutdown, DtorPc.todo]⟩
    | unlockIdle =>
      cases hr
      exact ⟨trivial, hc, by simp [afterShutdown, DtorPc.todo]⟩
    | _ => exact hq.elim

/-- The destructor waits for nothing but what it has asked the socket for. -/
theorem runDtor_enabled (t : ℕ) (hq : q.Pre m.toCore) (hend : q ≠ .ended) : (runDtor t m q .ok).isSome = true := by
  cases q with
  | set | null | exchange => rfl
  | ended => exact absurd rfl hend
  | assertion => exact hq.elim
  | shutdown q =>
    cases q with
    | lock => simp [runDtor, Connection.runStop, hq.1]
    | wait => simp [runDtor, Connection.runStop, hq.1]
    | check | recheck | abort | disconnect =>
      simp only [runDtor, Connection.runStop, Option.isSome_map]
      repeat' split
      all_goals rfl
    | cancel | exchange | unlock | closing | unlockIdle => rfl
    | _ => exact hq.elim

end

/-- The conditions on the steps of the connection: no failing start signals late, no exception gets past the handlers,
and no shutdown fails that could end the session. -/
def Sound (s : State Connection.Mem Connection.Pc) (a : Act Connection.Input) : Prop :=
  Connection.OnTime s a ∧ Connection.Handled (s.pc a.thread) a.input ∧ Connection.NotFailing s a

section

variable {s : State Mem Pc}

theorem not_wedged {s : State Connection.Mem Connection.Pc} (h : Connection.prog.Reach Connection.NotFailing s) :
    ¬ Connection.Wedged s := by
  induction h with
  | init => exact fun hw => (by cases hw.1)
  | step _ ha hs ih => exact fun hw => (Connection.wedged_iff ih hs).mp hw ha

/-- What the connection is like when nobody is in the middle of a use. -/
theorem quiet_of_outside {s : State Connection.Mem Connection.Pc} (h : Connection.prog.Reach Sound s)
    (hall : ∀ t, inside (s.pc t) = false) :
    s.mem.stopLock = false ∧ (s.mem.connState = .disconnected ∨ Open s.mem.toCore) := by
  have hout : ∀ t, inside (s.pc t) = true → False := fun t ht => by
    rw [hall t] at ht
    cases ht
  refine ⟨?_, ?_⟩
  · by_contra hl
    have howned : Owned (fun m : Connection.Mem => m.stopLock) (fun p : Connection.Pc => p.role.locked) s :=
      h.owned rfl fun _ _ _ _ _ _ hn => Connection.next_lock hn
    obtain ⟨t, ht⟩ := howned (by simpa using hl)
    exact hout t (inside_of_locked ht)
  · have hcarried := (Connection.ledger_holds (h.mono fun _ _ hs => hs.1)).glob.carried
    cases hc : s.mem.connState with
    | disconnected => exact .inl rfl
    | connected => exact .inr ⟨.inl hc, hcarried (.inl hc)⟩
    | reconnecting => exact .inr ⟨.inr hc, hcarried (.inr hc)⟩
    | connecting =>
      obtain ⟨t, ht⟩ := Connection.exists_connects h.reachable hc
      exact (hout t (inside_of_connects ht (Connection.isBroken_holds (h.mono fun _ _ hs => hs.2.1) t))).elim
    | disconnecting =>
      have hnot := not_wedged (h.mono fun _ _ hs => hs.2.2)
      refine (hnot ⟨hc, fun t => ?_⟩).elim
      by_contra hf
      exact hout t (inside_of_finishes (by simpa using hf))

/-- The destructor begins when nobody is in the middle of a use. -/
theorem outside_of_last {t : ℕ} {m : Mem} {p : Pc} {i : Input} {ok : State Mem Pc → Act Input → Prop}
    (h : prog.Reach ok s) (hs : Step t s.mem (s.pc t) i m p) (hold : destroys (s.pc t) = false)
    (hnew : destroys p = true) :
    m.conn = s.mem.conn ∧ s.mem.refs ≠ 0 ∧ p.ref = .destroys .set ∧ ∀ u, inside (s.pc u).conn = false := by
  have hacc := accounted_holds h
  obtain ⟨hne, -⟩ := hs.destroys_iff.mp ⟨hold, hnew⟩
  -- nobody else has a reference
  have hothers : (∀ u, (s.pc u).ref = .held → u = t ∧ needs (s.pc t).conn = false) →
      ∀ u, inside (s.pc u).conn = false := by
    intro hsole u
    by_contra hin
    have hin : inside (s.pc u).conn = true := by simpa using hin
    obtain ⟨rfl, hneeds⟩ := hsole u (held_of_inside h u hin)
    simp [inside, hneeds] at hin
  have hset : ∀ n : Mem, ∀ q : Connection.Pc, destroys ⟨q, n.release.2⟩ = true →
      n.refs = 1 ∧ n.release.2 = .destroys .set := by
    intro n q hd
    by_cases h1 : n.refs = 1
    · exact ⟨h1, by simp [Mem.release, h1]⟩
    · simp [destroys, Mem.release, h1] at hd
  generalize hp : s.pc t = q at hs hold hothers
  cases hs with
  | release hneeds =>
    obtain ⟨h1, hr⟩ := hset _ _ hnew
    refine ⟨rfl, hne, hr, hothers fun u hu => ⟨?_, hneeds⟩⟩
    by_contra hut
    have hzero := hacc.sole (t := t) (by simp [hp, holding, h1]) hut
    simp [holding, hu] at hzero
  | drop ho =>
    obtain ⟨h1, hr⟩ := hset _ _ hnew
    refine ⟨rfl, hne, hr, hothers fun u hu => ?_⟩
    obtain ⟨n, hn, hle⟩ := hacc.le u
    have h1 : s.mem.refs = 1 := h1
    rw [hn, ho, h1] at hle
    simp [holding, hu] at hle
  | destroy => cases hold
  | _ => cases hnew

/-- **What holds in the destructor.** -/
theorem pre_holds (h : prog.Reach (Lifts Sound) s) (t : ℕ) {q : DtorPc} (ht : (s.pc t).ref = .destroys q) :
    q.Pre s.mem.conn.toCore ∧ s.mem.conn.crashed = false := by
  revert ht
  refine h.invariant
    (J := fun s => ∀ q, (s.pc t).ref = .destroys q → q.Pre s.mem.conn.toCore ∧ s.mem.conn.crashed = false)
    (fun _ e => (by cases e)) ?_ q
  intro s a m p hr _ ih hn q hq
  obtain ⟨hstep, hcrash⟩ := next_step hn
  by_cases hta : t = a.thread
  · subst hta
    rw [State.set_pc_self] at hq
    rw [State.set_mem]
    cases hold : destroys (s.pc a.thread) with
    | false =>
      obtain ⟨hconn, hne, hset, hout⟩ := outside_of_last hr hstep hold (by rw [destroys, hq])
      rw [hset] at hq
      cases hq
      rw [hconn]
      exact ⟨quiet_of_outside (reach_connection hr hne) hout, hcrash⟩
    | true =>
      generalize hp : s.pc a.thread = r, a.input = i at hstep hold
      cases hstep with
      | destroy hd =>
        obtain ⟨hpre, -⟩ := ih _ (by rw [hp])
        cases hq
        obtain ⟨hpre', hcrash', -⟩ := runDtor_pre hd hpre hcrash
        exact ⟨hpre', hcrash'⟩
      | _ => cases hold
  · rw [State.set_pc_of_ne _ _ _ _ hta] at hq
    obtain ⟨hpre, -⟩ := ih q hq
    have hd : destroys (s.pc t) = true := by rw [destroys, hq]
    have h0 := (disposed_holds hr).none t hd
    rcases untouched_of_step hr h0 (Program.step_eq_some.mpr ⟨m, p, hn, rfl⟩) with hown | hu
    · exact absurd ((disposed_holds hr).alone t a.thread hd hown) hta
    · rw [show (s.set a.thread m p).mem.conn.toCore = s.mem.conn.toCore from
        congrArg Connection.Ledger.toCore hu.ledger]
      exact ⟨hpre, hu.crashed.trans hcrash⟩

/-- A step of the destructor. -/
theorem next_destroy {t : ℕ} {m : Mem} {p : Pc} {q q' : DtorPc} {o : Outcome} {c : Connection.Mem}
    (hc : m.conn.crashed = false) (hp : p.ref = .destroys q) (hd : runDtor t m.conn q o = some (c, q')) :
    next t m p (.destroy o) = some ({ m with conn := c }, { p with ref := .destroys q' }) := by
  simp [next, hc, hp, hd]

/-- **The destructor ends**, by steps of its own, whatever was under way when the last reference was gone: the lock is
free, the event is signaled, and `shutdown()` does not find the connection disconnecting.  Then the connection is
disconnected and has no transport. -/
theorem destructor_ends (h : prog.Reach (Lifts Sound) s) {t : ℕ} {q : DtorPc} (ht : (s.pc t).ref = .destroys q) :
    q ≠ .assertion ∧ s.mem.conn.crashed = false ∧
      ∃ s', prog.Runs (fun _ a => a = ⟨t, .destroy .ok⟩) s s' ∧ (s'.pc t).ref = .destroys .ended ∧
        s'.mem.conn.connState = .disconnected ∧ s'.mem.conn.transport = none := by
  obtain ⟨hpre, hcrash⟩ := pre_holds h t ht
  refine ⟨?_, hcrash, ?_⟩
  · rintro rfl
    exact hpre
  -- by induction on the number of steps to the end
  induction hn : q.todo using Nat.strong_induction_on generalizing s q with
  | _ n ih =>
    by_cases hend : q = .ended
    · subst hend
      exact ⟨s, .refl, ht, hpre⟩
    obtain ⟨⟨c, q'⟩, hd⟩ := Option.isSome_iff_exists.mp (runDtor_enabled t hpre hend)
    obtain ⟨hpre', hcrash', hlt⟩ := runDtor_pre hd hpre hcrash
    have hnext := next_destroy hcrash ht hd
    have hreach : prog.Reach (Lifts Sound) (s.set t { s.mem with conn := c } { s.pc t with ref := .destroys q' }) :=
      h.step (a := ⟨t, .destroy .ok⟩) (fun i e => (by cases e)) (Program.step_eq_some.mpr ⟨_, _, hnext, rfl⟩)
    obtain ⟨s', hr, hs'⟩ := ih q'.todo (by omega) hreach (by rw [State.set_pc_self]) hpre' hcrash' rfl
    exact ⟨s', (Program.Runs.single rfl hnext).trans hr, hs'⟩

end

def lifts (T : Test ok) : Test (Lifts ok) where
  test s a :=
    match a.input with
    | .conn i => T.test (connection s) ⟨a.thread, i⟩
    | _ => true
  sound h i hi := T.sound (by simpa [hi] using h)

def sound : Test (Lifts Sound) :=
  lifts (Connection.onTime.and (Connection.handled.and Connection.notFailing))

theorem destructor_ends_dropping : ∃ s,
    ((s.pc 2).conn = .error 1 1 1 .tryWait ∧ (s.pc 3).ref = .destroys (.shutdown .wait)) ∧
    ∃ s', prog.Runs (fun _ a => a = ⟨3, .destroy .ok⟩) s s' ∧ (s'.pc 3).ref = .destroys .ended ∧
      s'.mem.conn.connState = .disconnected ∧ s'.mem.conn.transport = none := by
  obtain ⟨s, hr, hf⟩ := prog.exists_of_run sound dropping (fun s => ((s.pc 2).conn, (s.pc 3).ref))
    (.error 1 1 1 .tryWait, .destroys (.shutdown .wait)) rfl
  simp only [Prod.mk.injEq] at hf
  obtain ⟨-, -, hend⟩ := destructor_ends hr hf.2
  exact ⟨s, hf, hend⟩

/-- `abort()` throws in a `stop()`: the connection stays in disconnecting, and the destructor comes to its assertion. -/
def failedShutdown : List (Act Input) :=
  connected ++ conns ([Connection.call 2 .stop] ++ Connection.tasks 2 7 ++ [Connection.task 2 .throws]) ++
  [⟨2, .release⟩, ⟨3, .drop⟩] ++ List.replicate 4 ⟨3, .destroy .ok⟩

theorem failedShutdown_asserts : ¬ ∀ s, prog.Reachable s → ∀ t, (s.pc t).ref ≠ .destroys .assertion := by
  intro hall
  obtain ⟨s, hr, hf⟩ := prog.exists_of_run Test.all failedShutdown
    (fun s => (s.pc 3).ref) (.destroys .assertion) rfl
  exact hall s hr 3 hf

end SignalRClient.Destructor
