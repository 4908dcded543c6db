import SignalRClient.Connection.Completion
import SignalRClient.Event

/-!
# `connection_impl` over the code of `event`

In `Connection.prog` a use of `m_start_completed_event` is one step.  Here it is a call of `set()`, `reset()` or
`wait(60000)`, which takes the lock of the event, may sleep, wake up for no reason and time out, and is repeated
after a timeout.  The runs of this program are runs of `Connection.prog` (`reach_connection`), and what is under way
in it can be brought to an end as well (`comes_to_rest_over_event`).
-/

namespace SignalRClient.Signaling

open Threads

structure Mem where
  conn : Connection.Mem := {}
  event : Monitor.Mem Bool := ⟨false, false, 0⟩

structure Pc where
  conn : Connection.Pc := .idle
  event : Monitor.Pc Event.Op := .idle

inductive Input where
  | conn (i : Connection.Input)
  | event (i : Monitor.Input Event.Op)

/-- The call of the event that the connection is at. -/
def uses : Connection.Pc → Option Event.Op
  | .start _ _ .reset | .error _ _ _ .reset => some .reset
  | .start _ _ .succeedSet | .start _ _ .failSet | .error _ _ _ .okSet | .error _ _ _ .failSet => some .set
  | .stop _ .wait | .error _ _ _ .wait => some (.wait 60000)
  | _ => none

/-- The connection goes on as the call takes effect; its thread is back when the call has returned.  A `wait()` that
has timed out leaves the connection where it is, and is called again. -/
def next (t : ℕ) (m : Mem) (p : Pc) : Input → Option (Mem × Pc)
  | .conn i => match p.event, uses p.conn with
    | .idle, none => (Connection.next t m.conn p.conn i).map fun r => ({ m with conn := r.1 }, { p with conn := r.2 })
    | _, _ => none
  | .event i => match p.event, i with
    | .idle, .call a =>
      if uses p.conn = some a then
        (Event.event.next t m.event p.event i).map fun r => ({ m with event := r.1 }, { p with event := r.2 })
      else none
    | .act _, _ =>
      (Connection.next t m.conn p.conn (.task .ok)).bind fun q =>
        (Event.event.next t m.event p.event i).map fun r => (⟨q.1, r.1⟩, ⟨q.2, r.2⟩)
    | _, _ => (Event.event.next t m.event p.event i).map fun r => ({ m with event := r.1 }, { p with event := r.2 })

/-- **The program of a connection with its event.** -/
def prog : Program Mem Pc Input := ⟨{}, {}, next⟩

section

variable {t : ℕ} {m m' : Mem} {p p' : Pc} {i : Input}

theorem next_cases (h : next t m p i = some (m', p')) :
    (∃ j c q, i = .conn j ∧ p.event = .idle ∧ uses p.conn = none ∧
      Connection.next t m.conn p.conn j = some (c, q) ∧ m' = { m with conn := c } ∧ p' = { p with conn := q }) ∨
    (∃ j e q, i = .event j ∧ (∀ a, p.event ≠ .act a) ∧ (p.event = .idle → ∃ a, j = .call a ∧ uses p.conn = some a) ∧
      Event.event.next t m.event p.event j = some (e, q) ∧ m' = { m with event := e } ∧ p' = { p with event := q }) ∨
    ∃ a j c q e q', i = .event j ∧ p.event = .act a ∧ Connection.next t m.conn p.conn (.task .ok) = some (c, q) ∧
      Event.event.next t m.event p.event j = some (e, q') ∧ m' = ⟨c, e⟩ ∧ p' = ⟨q, q'⟩ := by
  cases i with
  | conn j =>
    simp only [next] at h
    split at h
    · obtain ⟨⟨c, q⟩, hn, e⟩ := Option.map_eq_some_iff.mp h
      cases e
      exact .inl ⟨j, c, q, rfl, by assumption, by assumption, hn, rfl, rfl⟩
    · cases h
  | event j =>
    have hcode : (Event.event.next t m.event p.event j).map
        (fun r => (({ m with event := r.1 }, { p with event := r.2 }) : Mem × Pc)) = some (m', p') →
      ∃ e q, Event.event.next t m.event p.event j = some (e, q) ∧
          m' = { m with event := e } ∧ p' = { p with event := q } := by
      intro h
      obtain ⟨⟨e, q⟩, hn, hr⟩ := Option.map_eq_some_iff.mp h
      cases hr
      exact ⟨e, q, hn, rfl, rfl⟩
    cases he : p.event with
    | idle =>
      cases j with
      | call a =>
        simp only [next, he, Option.ite_none_right_eq_some] at h
        obtain ⟨ha, h⟩ := h
        obtain ⟨e, q, hn, hm, hp⟩ := hcode (by rw [he]; exact h)
        exact .inr (.inl ⟨_, e, q, rfl, fun b => (by simp), fun _ => ⟨a, rfl, ha⟩, by rwa [he] at hn, hm, hp⟩)
      | _ => simp [next, he, Monitor.next] at h
    | act a =>
      simp only [next, he] at h
      obtain ⟨⟨c, q⟩, hc, h⟩ := Option.bind_eq_some_iff.mp h
      obtain ⟨⟨e, q'⟩, hn, hr⟩ := Option.map_eq_some_iff.mp h
      cases hr
      exact .inr (.inr ⟨a, j, c, q, e, q', rfl, rfl, hc, hn, rfl, rfl⟩)
    | _ =>
      simp only [next, he] at h
      obtain ⟨e, q, hn, hm, hp⟩ := hcode (by rw [he]; exact h)
      exact .inr (.inl ⟨j, e, q, rfl, fun b => (by simp), fun hidle => (by simp at hidle), by rwa [he] at hn, hm, hp⟩)

end

/-! ## The runs are runs of the connection -/

/-- The connection. -/
abbrev connection (s : State Mem Pc) : State Connection.Mem Connection.Pc := s.project Mem.conn Pc.conn

/-- The event. -/
abbrev event (s : State Mem Pc) : State (Monitor.Mem Bool) (Monitor.Pc Event.Op) := s.project Mem.event Pc.event

/-- A condition on the steps of the connection. -/
def Lifts (ok : State Connection.Mem Connection.Pc → Act Connection.Input → Prop) (s : State Mem Pc) (a : Act Input) :
    Prop :=
  match a.input with
  | .conn i => ok (connection s) ⟨a.thread, i⟩
  | .event _ => ∀ b, (s.pc a.thread).event = .act b → ok (connection s) ⟨a.thread, .task .ok⟩

section

variable {ok : State Connection.Mem Connection.Pc → Act Connection.Input → Prop} {ok' : State Mem Pc → Act Input → Prop}
  {s : State Mem Pc}

/-- **The code with its event does what the connection does.** -/
theorem reach_connection (h : prog.Reach (Lifts ok) s) : Connection.prog.Reach ok (connection s) := by
  refine h.project rfl rfl ?_
  intro s a m p _ hok hn
  rcases next_cases (t := a.thread) hn with ⟨j, c, q, hi, -, -, hc, rfl, rfl⟩ | ⟨j, e, q, hi, -, -, -, rfl, rfl⟩ |
    ⟨b, j, c, q, e, q', hi, he, hc, -, rfl, rfl⟩
  · rw [Lifts, hi] at hok
    exact .inr ⟨j, hok, hc⟩
  · exact .inl ⟨rfl, rfl⟩
  · rw [Lifts, hi] at hok
    exact .inr ⟨_, hok b he, hc⟩

theorem reach_event (h : prog.Reach ok' s) : (Event.event.prog false).Reachable (event s) := by
  refine h.project rfl rfl ?_
  intro s a m p _ _ hn
  rcases next_cases (t := a.thread) hn with ⟨j, c, q, hi, -, -, hc, rfl, rfl⟩ | ⟨j, e, q, hi, -, -, he, rfl, rfl⟩ |
    ⟨b, j, c, q, e, q', hi, -, -, he, rfl, rfl⟩
  · exact .inl ⟨rfl, rfl⟩
  · exact .inr ⟨j, trivial, he⟩
  · exact .inr ⟨j, trivial, he⟩

end

/-! ## The flag -/

/-- The call that has not yet taken effect. -/
def pending : Monitor.Pc Event.Op → Option Event.Op
  | .enter a | .test a _ | .asleep a _ | .reenter a _ | .act a => some a
  | _ => none

/-- The event is the flag of the connection, which is at each call until that takes effect. -/
structure Agrees (s : State Mem Pc) : Prop where
  flag : s.mem.conn.startCompleted = s.mem.event.value
  calls : ∀ t a, pending (s.pc t).event = some a → uses (s.pc t).conn = some a

section

variable {t : ℕ} {m m' : Connection.Mem} {p p' : Connection.Pc} {a : Event.Op}

/-- What a step of the connection does to the flag. -/
theorem next_flag {i : Connection.Input} (h : Connection.next t m p i = some (m', p')) :
    m'.startCompleted = (uses p).elim m.startCompleted fun a => Event.event.act a m.startCompleted := by
  cases Connection.next_leads h with
  | enter _ hm =>
    show m'.toLedger.startCompleted = _
    rw [hm]
    rfl
  | @start n c _ _ q _ o _ hr =>
    cases q <;> simp only [Connection.runStart] at hr <;> repeat' (split at hr)
    all_goals simp only [reduceCtorEq, Option.some.injEq, Prod.mk.injEq] at hr
    all_goals obtain ⟨rfl, -⟩ := hr; rfl
  | @stop g q _ o _ hr =>
    cases q <;> simp only [Connection.runStop] at hr <;> repeat' (split at hr)
    all_goals simp only [reduceCtorEq, Option.some.injEq, Prod.mk.injEq] at hr
    all_goals obtain ⟨rfl, -⟩ := hr; rfl
  | @error n k c _ _ q _ o _ hr | @leave n k c q o _ hr | @giveUp n k c q o _ hr =>
    cases q <;> simp only [Connection.runError] at hr <;> repeat' (split at hr)
    all_goals simp only [reduceCtorEq, Option.some.injEq, Prod.mk.injEq] at hr
    all_goals obtain ⟨rfl, -⟩ := hr; rfl
  | @effect n k e es _ => cases e <;> rfl
  | late | check | processed | timer => rfl

/-- Where the connection calls the event, it waits for nothing else. -/
structure Calling (p : Connection.Pc) (a : Event.Op) : Prop where
  answer : p.answer = .ok
  todo : p.todo ≠ 0
  acquires : p.acquires = false
  waits : p.waits = true → a = .wait 60000
  looksAt : p.looksAt = none
  connecting : ∀ n c, p ≠ .start n c .connecting

theorem calling_of_uses (h : uses p = some a) : Calling p a := by
  cases p with
  | start n c q | stop g q | error n k c q =>
    cases q <;> first | (cases h; done) | skip
    all_goals cases h
    all_goals
      exact ⟨rfl, fun e => (by cases e), rfl, fun e => (by first | rfl | cases e), rfl, fun _ _ e => (by cases e)⟩
  | _ => cases h

/-- The connection goes on when the call takes effect. -/
theorem next_enabled (t : ℕ) (hc : m.crashed = false) (hp : uses p = some a)
    (hg : Event.event.guard a m.startCompleted = true) : (Connection.next t m p (.task .ok)).isSome = true := by
  obtain ⟨hanswer, htodo, hacq, hwaits, hlooks, hcon⟩ := calling_of_uses hp
  rw [← hanswer]
  refine Connection.next_enabled t hc htodo (fun hb => ?_) fun n hn => ?_
  · cases hb with
    | lock ha =>
      rw [hacq] at ha
      cases ha
    | event hw he =>
      rw [hwaits hw] at hg
      have hg : m.startCompleted = true := hg
      rw [he] at hg
      cases hg
    | connect => exact hcon _ _ rfl
  · rw [hlooks] at hn
    cases hn

end

section

variable {ok' : State Mem Pc → Act Input → Prop} {s : State Mem Pc}

/-- A call that is pending is the one that was pending before, or has just been made. -/
theorem next_pending {t : ℕ} {m m' : Monitor.Mem Bool} {p p' : Monitor.Pc Event.Op} {i : Monitor.Input Event.Op}
    {a : Event.Op} (h : Event.event.next t m p i = some (m', p')) (hp : pending p' = some a) :
    (pending p = some a ∧ p ≠ .act a) ∨ (p = .idle ∧ i = .call a) := by
  cases Monitor.next_step h with
  | call b => cases hp; exact .inr ⟨rfl, rfl⟩
  | act | actQuiet | notify | leave | done | giveUp => cases hp
  | _ => cases hp; exact .inl ⟨rfl, by simp⟩

theorem agrees_holds (h : prog.Reach ok' s) : Agrees s := by
  refine h.invariant (J := Agrees) ⟨rfl, fun _ _ e => (by cases e)⟩ ?_
  intro s a m p _ _ ih hn
  rcases next_cases (t := a.thread) hn with ⟨j, c, q, hi, hidle, huses, hc, rfl, rfl⟩ |
    ⟨j, e, q, hi, hact, hcall, he, rfl, rfl⟩ | ⟨b, j, c, q, e, q', hi, hb, hc, he, rfl, rfl⟩
  · refine ⟨?_, fun t b hb => ?_⟩
    · have hflag := next_flag hc
      rw [huses] at hflag
      exact hflag.trans ih.flag
    · by_cases ht : t = a.thread
      · subst ht
        rw [State.set_pc_self] at hb
        have hb : pending (s.pc a.thread).event = some b := hb
        rw [hidle] at hb
        cases hb
      · rw [State.set_pc_of_ne _ _ _ _ ht] at hb ⊢
        exact ih.calls t b hb
  · refine ⟨?_, fun t b hb => ?_⟩
    · rcases Monitor.next_value (t := a.thread) he with hv | ⟨b, hb, -⟩
      · exact ih.flag.trans hv.symm
      · exact absurd hb (hact b)
    · by_cases ht : t = a.thread
      · subst ht
        rw [State.set_pc_self] at hb ⊢
        rcases next_pending he hb with ⟨hold, -⟩ | ⟨hidle, rfl⟩
        · exact ih.calls a.thread b hold
        · obtain ⟨b', e, hb'⟩ := hcall hidle
          cases e
          exact hb'
      · rw [State.set_pc_of_ne _ _ _ _ ht] at hb ⊢
        exact ih.calls t b hb
  · have huses := ih.calls a.thread b (by rw [hb]; rfl)
    refine ⟨?_, fun t b' hb' => ?_⟩
    · have hflag := next_flag hc
      rw [huses] at hflag
      rw [hb] at he
      rw [State.set_mem, hflag, Monitor.next_act_value (t := a.thread) he, ← ih.flag]
      rfl
    · by_cases ht : t = a.thread
      · subst ht
        rw [State.set_pc_self] at hb'
        rcases next_pending he hb' with ⟨hold, hne⟩ | ⟨hidle, -⟩
        · rw [hb] at hold hne
          cases hold
          exact absurd rfl hne
        · rw [hb] at hidle
          cases hidle
      · rw [State.set_pc_of_ne _ _ _ _ ht] at hb' ⊢
        exact ih.calls t b' hb'

end

/-- The steps of a run without unhandled exceptions. -/
abbrev Handled : State Mem Pc → Act Input → Prop :=
  Lifts fun s a => Connection.Handled (s.pc a.thread) a.input

def handled : Test Handled where
  test s a :=
    match a.input with
    | .conn i => Connection.handled.test (connection s) ⟨a.thread, i⟩
    | .event _ => Connection.handled.test (connection s) ⟨a.thread, .task .ok⟩
  sound h := by
    simp only [Handled, Lifts]
    split at h
    · exact Connection.handled.sound h
    · exact fun _ _ => Connection.handled.sound h

def conns (t j : ℕ) : List (Act Input) := List.replicate j ⟨t, .conn (.task .ok)⟩

/-- Thread `t` calls the event and takes `j` steps in the call. -/
def calling (t : ℕ) (a : Event.Op) (j : ℕ) : List (Act Input) :=
  ⟨t, .event (.call a)⟩ :: List.replicate j ⟨t, .event .go⟩

/-- Thread 0 negotiates, thread 1 stops and sleeps in `wait(60000)`, which has timed out once. -/
def sleeping : List (Act Input) :=
  [⟨0, .conn (.call .start)⟩] ++ conns 0 3 ++ calling 0 .reset 5 ++ conns 0 4 ++
    [⟨1, .conn (.call .stop)⟩] ++ conns 1 3 ++ calling 1 (.wait 60000) 2 ++
    [⟨1, .event .timeout⟩, ⟨1, .event .go⟩, ⟨1, .event .go⟩, ⟨1, .event .go⟩, ⟨1, .event .go⟩] ++
    calling 1 (.wait 60000) 2

/-- **The connection over its event is the connection**, for any condition on its steps: the flag is `m_signaled`, and
a thread that has called the event and not yet taken effect is where the connection uses it.  So what holds in every
run of `Connection.prog` holds over the code of `event`. -/
theorem connection_over_event {ok : State Connection.Mem Connection.Pc → Act Connection.Input → Prop}
    {s : State Mem Pc}
    (h : prog.Reach (Lifts ok) s) : Connection.prog.Reach ok (connection s) ∧
      (Event.event.atomic false).Reachable ((event s).project Monitor.Mem.value Monitor.Pc.seen) ∧
      s.mem.conn.startCompleted = s.mem.event.value ∧
      ∀ t a, pending (s.pc t).event = some a → uses (s.pc t).conn = some a :=
  ⟨reach_connection h, Monitor.reach_atomic (reach_event h), (agrees_holds h).flag, (agrees_holds h).calls⟩

theorem connection_over_event_sleeping : ∃ s, ((s.pc 0).conn = .start 1 1 .negotiating ∧
      (s.pc 1).event = .asleep (.wait 60000) 0) ∧
    Connection.prog.Reach (fun s a => Connection.Handled (s.pc a.thread) a.input) (connection s) ∧
    (Event.event.atomic false).Reachable ((event s).project Monitor.Mem.value Monitor.Pc.seen) ∧
    s.mem.conn.startCompleted = s.mem.event.value := by
  obtain ⟨s, hr, hf⟩ := prog.exists_of_run handled sleeping
    (fun s => ((s.pc 0).conn, (s.pc 1).event)) (.start 1 1 .negotiating, .asleep (.wait 60000) 0) rfl
  simp only [Prod.mk.injEq] at hf
  obtain ⟨hconn, hevent, hflag, -⟩ := connection_over_event hr
  exact ⟨s, hf, hconn, hevent, hflag⟩

/-! ## The calls that have begun come to their end -/

/-- A step in which nothing new is begun but the connect timers, and no thread wakes up for no reason or times out. -/
def Quiet (s : State Mem Pc) (a : Act Input) : Prop :=
  Lifts Connection.Quiet s a ∧ a.input ≠ .event .spurious ∧ a.input ≠ .event .timeout

/-- The number of steps to the end of the call, or to the sleep of its thread. -/
def todo : Monitor.Pc Event.Op → ℕ
  | .enter _ | .reenter _ _ => 6
  | .test _ _ => 5
  | .act _ => 4
  | .notify _ => 3
  | .leave _ _ => 2
  | .returned _ _ => 1
  | .idle | .asleep _ _ => 0

/-- No call is under way but those of threads that sleep. -/
def Flushed (s : State Mem Pc) : Prop := ∀ t, todo (s.pc t).event = 0

section

variable {s : State Mem Pc} {t : ℕ}

theorem handled_of_quiet (s : State Mem Pc) (a : Act Input) (h : Quiet s a) : Handled s a := by
  have hl := h.1
  unfold Lifts at hl
  simp only [Handled, Lifts]
  split at hl
  · exact hl.1
  · exact fun b hb => (hl b hb).1

/-- What a call of the event does next is quiet. -/
theorem quiet_event (s : State Mem Pc) (t : ℕ) {i : Monitor.Input Event.Op} (hi : i = .go ∨ ∃ a, i = .call a) :
    Quiet s ⟨t, .event i⟩ := by
  refine ⟨fun b _ => ⟨?_, fun k e => (by cases e)⟩, ?_, ?_⟩
  · exact ⟨fun _ _ _ _ => ⟨by simp, by simp⟩, fun _ _ _ _ => ⟨by simp, by simp⟩, fun _ _ _ _ => (by simp)⟩
  · rcases hi with rfl | ⟨a, rfl⟩ <;> exact fun e => (by cases e)
  · rcases hi with rfl | ⟨a, rfl⟩ <;> exact fun e => (by cases e)

/-- A step of the code of the event. -/
theorem next_code {m : Mem} {p : Pc} {e : Monitor.Mem Bool} {q : Monitor.Pc Event.Op}
    (hidle : p.event ≠ .idle) (hact : ∀ a, p.event ≠ .act a)
    (hn : Event.event.next t m.event p.event .go = some (e, q)) :
    next t m p (.event .go) = some ({ m with event := e }, { p with event := q }) := by
  cases hp : p.event with
  | idle => exact absurd hp hidle
  | act a => exact absurd hp (hact a)
  | _ =>
    rw [hp] at hn
    simp [next, hp, hn]

/-- … and the one by which the call takes effect. -/
theorem next_effect {m : Mem} {p : Pc} {a : Event.Op} {c : Connection.Mem} {q : Connection.Pc}
    (hp : p.event = .act a) (hc : Connection.next t m.conn p.conn (.task .ok) = some (c, q)) :
    next t m p (.event .go) = some (⟨c, { m.event with value := Event.event.act a m.event.value }⟩,
      ⟨q, if Event.event.notifies a then .notify a else .leave a true⟩) := by
  simp [next, hp, hc, Monitor.next]

/-- A step of a call that is under way brings it nearer to its end. -/
theorem todo_lt {m m' : Monitor.Mem Bool} {p p' : Monitor.Pc Event.Op} (h : Event.event.next t m p .go = some (m', p'))
    (hp : todo p ≠ 0) : todo p' < todo p := by
  cases Monitor.next_step h with
  | wake => exact absurd rfl hp
  | _ => simp [todo]

/-- A call that is under way can go on when its thread has the lock or the lock is free. -/
theorem exists_next {m : Monitor.Mem Bool} {p : Monitor.Pc Event.Op} (t : ℕ) (hp : todo p ≠ 0)
    (hl : p.holds = true ∨ m.lock = false) : (Event.event.next t m p .go).isSome = true := by
  cases hh : p.holds with
  | true =>
    obtain ⟨m', p', hn, -⟩ := Monitor.next_holder (D := Event.event) (m := m) t hh
    rw [hn]
    rfl
  | false =>
    have hfree : m.lock = false := hl.resolve_left (by rw [hh]; simp)
    cases p with
    | enter | reenter => simp [Monitor.next, hfree]
    | returned => rfl
    | idle | asleep => exact absurd rfl hp
    | _ => cases hh

/-- Whoever has the lock of the event goes on, and so does everyone else while it is free. -/
theorem exists_flushing (h : prog.Reach Handled s) (hc : ¬ s.mem.conn.crashed = true)
    (hbusy : ∃ t, todo (s.pc t).event ≠ 0) :
    ∃ s', prog.Runs Quiet s s' ∧ (s'.mem.conn.crashed = true ∨ Lower (fun p : Pc => todo p.event) s s') := by
  have hevent := reach_event h
  have hagree := agrees_holds h
  obtain ⟨t, ht, hl⟩ : ∃ t, todo (s.pc t).event ≠ 0 ∧ ((s.pc t).event.holds = true ∨ s.mem.event.lock = false) := by
    cases hl : s.mem.event.lock with
    | true =>
      obtain ⟨t, ht⟩ := Monitor.owned_holds hevent hl
      have ht : (s.pc t).event.holds = true := ht
      refine ⟨t, ?_, .inl ht⟩
      cases hp : (s.pc t).event with
      | test | act | notify | leave => simp [todo]
      | _ => rw [hp] at ht; cases ht
    | false =>
      obtain ⟨t, ht⟩ := hbusy
      exact ⟨t, ht, .inr rfl⟩
  obtain ⟨⟨m, p⟩, hn⟩ := Option.isSome_iff_exists.mp (exists_next t ht hl)
  by_cases hact : ∃ a, (s.pc t).event = .act a
  · obtain ⟨a, hp⟩ := hact
    have hguard := (Monitor.ready_holds hevent t).act a hp
    have huses := hagree.calls t a (by rw [hp]; rfl)
    obtain ⟨⟨c, q⟩, hcn⟩ := Option.isSome_iff_exists.mp (next_enabled t (by simpa using hc) huses
      (by rw [hagree.flag]; exact hguard))
    refine ⟨_, .single (quiet_event s t (.inl rfl)) (next_effect hp hcn), .inr (.set ?_)⟩
    rw [hp]
    cases a <;> simp [Event.event, todo]
  · have hidle : (s.pc t).event ≠ .idle := fun e => ht (by rw [e]; rfl)
    exact ⟨_, .single (quiet_event s t (.inl rfl)) (next_code hidle (fun a ha => hact ⟨a, ha⟩) hn),
      .inr (.set (todo_lt hn ht))⟩

theorem exists_flushed (h : prog.Reach Handled s) :
    ∃ s', prog.Runs Quiet s s' ∧ (s'.mem.conn.crashed = true ∨ Flushed s') := by
  refine h.exists_rest (fun p : Pc => todo p.event) (fun s => s.mem.conn.crashed = true) rfl handled_of_quiet ?_
  intro s hs hc hbusy
  exact exists_flushing hs hc hbusy

end

/-! ## What is under way comes to its end -/

section

variable {s : State Mem Pc} {t : ℕ} {a : Event.Op}

/-- A thread that is to call the event, or sleeps in the call, gets to look at the flag. -/
theorem runs_test (hl : s.mem.event.lock = false) (hu : uses (s.pc t).conn = some a)
    (hp : (s.pc t).event = .idle ∨ ∃ e, (s.pc t).event = .asleep a e ∧ e < s.mem.event.notified) :
    prog.Runs Quiet s (s.set t { s.mem with event := { s.mem.event with lock := true } }
      { s.pc t with event := .test a false }) := by
  have hgo : ∀ s, Quiet s ⟨t, .event .go⟩ := fun s => quiet_event s t (.inl rfl)
  rcases hp with hp | ⟨e, hp, hlt⟩
  · have hcall : prog.Runs Quiet s (s.set t s.mem { s.pc t with event := .enter a }) :=
      .single (quiet_event s t (.inr ⟨a, rfl⟩)) (by
        show next t s.mem (s.pc t) (.event (.call a)) = _
        simp [next, hp, hu, Monitor.next])
    exact hcall.next (hgo _) (by
      show next t s.mem { s.pc t with event := .enter a } (.event .go) = _
      simp [next, Monitor.next, hl])
  · have hwake : prog.Runs Quiet s (s.set t s.mem { s.pc t with event := .reenter a false }) :=
      .single (hgo s) (by
        show next t s.mem (s.pc t) (.event .go) = _
        simp [next, hp, hlt, Monitor.next])
    exact hwake.next (hgo _) (by
      show next t s.mem { s.pc t with event := .reenter a false } (.event .go) = _
      simp [next, Monitor.next, hl])

/-- Then the call takes effect and returns. -/
theorem runs_call (hl : s.mem.event.lock = false) (hu : uses (s.pc t).conn = some a)
    (hp : (s.pc t).event = .idle ∨ ∃ e, (s.pc t).event = .asleep a e ∧ e < s.mem.event.notified)
    (hg : Event.event.guard a s.mem.event.value = true) {c : Connection.Mem} {q : Connection.Pc}
    (hc : Connection.next t s.mem.conn (s.pc t).conn (.task .ok) = some (c, q)) :
    ∃ e, prog.Runs Quiet s (s.set t ⟨c, e⟩ ⟨q, .idle⟩) := by
  have hgo : ∀ s, Quiet s ⟨t, .event .go⟩ := fun s => quiet_event s t (.inl rfl)
  let e₁ : Monitor.Mem Bool := { s.mem.event with lock := true }
  let e₂ : Monitor.Mem Bool := { e₁ with value := Event.event.act a s.mem.event.value }
  have hpass : prog.Runs Quiet s (s.set t { s.mem with event := e₁ } { s.pc t with event := .act a }) :=
    (runs_test hl hu hp).next (hgo _) (by
      show next t { s.mem with event := e₁ } { s.pc t with event := .test a false } (.event .go) = _
      simp [next, Monitor.next, hg, e₁])
  have heffect := hpass.next (hgo _)
    (next_effect (m := { s.mem with event := e₁ }) (p := { s.pc t with event := .act a }) rfl hc)
  have hleave : ∃ e, prog.Runs Quiet s (s.set t ⟨c, e⟩ ⟨q, .leave a true⟩) := by
    cases hn : Event.event.notifies a with
    | true =>
      rw [if_pos hn] at heffect
      exact ⟨_, heffect.next (hgo _) rfl⟩
    | false =>
      rw [if_neg (by rw [hn]; simp)] at heffect
      exact ⟨e₂, heffect⟩
  obtain ⟨e, he⟩ := hleave
  have hreturn : prog.Runs Quiet s (s.set t ⟨c, { e with lock := false }⟩ ⟨q, .returned a true⟩) := he.next (hgo _) rfl
  exact ⟨_, hreturn.next (hgo _) rfl⟩

/-- A step of the connection by which a call takes effect depends on the flag only. -/
theorem next_calls {m m' : Connection.Mem} {p p' : Connection.Pc} {i : Connection.Input}
    (h : Connection.next t m p i = some (m', p')) (hu : uses p = some a) :
    Connection.next t m p (.task .ok) = some (m', p') ∧ Event.event.guard a m.startCompleted = true := by
  cases p with
  | start n c q =>
    obtain ⟨o, rfl, hr⟩ := Connection.next_start h
    cases q <;> first | (cases hu; done) | skip
    all_goals cases hu
    all_goals exact ⟨by rw [← h]; rfl, rfl⟩
  | stop g q =>
    obtain ⟨o, rfl, hr⟩ := Connection.next_stop h
    cases q <;> first | (cases hu; done) | skip
    cases hu
    simp only [Connection.runStop] at hr
    split at hr
    · exact ⟨by rw [← h]; rfl, by assumption⟩
    · cases hr
  | error n k c q =>
    obtain ⟨o, rfl, hr⟩ := Connection.next_error h
    cases q <;> first | (cases hu; done) | skip
    case wait =>
      cases hu
      simp only [Connection.runError] at hr
      split at hr
      · exact ⟨by rw [← h]; rfl, by assumption⟩
      · cases hr
    all_goals cases hu
    all_goals exact ⟨by rw [← h]; rfl, rfl⟩
  | _ => cases hu

theorem flushed_set {m : Mem} {p : Pc} (hf : Flushed s) (hp : todo p.event = 0) : Flushed (s.set t m p) := by
  intro u
  by_cases hu : u = t
  · subst hu
    rwa [State.set_pc_self]
  · rw [State.set_pc_of_ne _ _ _ _ hu]
    exact hf u

/-- Where no call is under way, the lock of the event is free, and who sleeps though the event is signaled can wake
up. -/
theorem idle_or_wakes (h : prog.Reach Handled s) (hf : Flushed s) :
    s.mem.event.lock = false ∧ ∀ t, (s.pc t).event = .idle ∨ ∃ a e, (s.pc t).event = .asleep a e ∧
      uses (s.pc t).conn = some a ∧ (Event.event.guard a s.mem.event.value = true → e < s.mem.event.notified) := by
  have hevent := reach_event h
  refine ⟨?_, fun t => ?_⟩
  · cases hl : s.mem.event.lock with
    | false => rfl
    | true =>
      obtain ⟨t, ht⟩ := Monitor.owned_holds hevent hl
      have ht : (s.pc t).event.holds = true := ht
      have hzero := hf t
      cases hp : (s.pc t).event with
      | test | act | notify | leave => rw [hp] at hzero; cases hzero
      | _ => rw [hp] at ht; cases ht
  · have hzero := hf t
    cases hp : (s.pc t).event with
    | idle => exact .inl rfl
    | asleep a e =>
      refine .inr ⟨a, e, rfl, (agrees_holds h).calls t a (by rw [hp]; rfl), fun hg => ?_⟩
      have hwakes := (Monitor.notified_holds Event.notifying_event hevent).wakes t a e hp hg
      refine hwakes.resolve_right fun ⟨u, b, hu⟩ => ?_
      have hu : (s.pc u).event = .notify b := hu
      have hnot := hf u
      rw [hu] at hnot
      cases hnot
    | _ => rw [hp] at hzero; cases hzero

/-- **Each step of the connection is made by its code**, when no call of the event is under way. -/
theorem exists_step (h : prog.Reach Handled s) (hf : Flushed s) {b : Act Connection.Input}
    {s' : State Connection.Mem Connection.Pc} (hb : Connection.Quiet (connection s) b)
    (hs : Connection.prog.step (connection s) b = some s') :
    ∃ s₁, prog.Runs Quiet s s₁ ∧ Flushed s₁ ∧ connection s₁ = s' := by
  obtain ⟨c, q, hn, rfl⟩ := Program.step_eq_some.mp hs
  have hn : Connection.next b.thread s.mem.conn (s.pc b.thread).conn b.input = some (c, q) := hn
  obtain ⟨hl, hall⟩ := idle_or_wakes h hf
  cases hu : uses (s.pc b.thread).conn with
  | none =>
    have hidle : (s.pc b.thread).event = .idle := by
      refine (hall b.thread).resolve_right fun ⟨a, e, _, hsome, _⟩ => ?_
      rw [hu] at hsome
      cases hsome
    have hnext : next b.thread s.mem (s.pc b.thread) (.conn b.input) =
        some ({ s.mem with conn := c }, { s.pc b.thread with conn := q }) := by
      simp [next, hidle, hu, hn]
    have hquiet : Quiet s ⟨b.thread, .conn b.input⟩ := ⟨hb, fun e => (by cases e), fun e => (by cases e)⟩
    exact ⟨_, .single hquiet hnext, flushed_set hf (hf b.thread), State.project_set ..⟩
  | some a =>
    obtain ⟨hok, hg⟩ := next_calls hn hu
    rw [(agrees_holds h).flag] at hg
    have hat : (s.pc b.thread).event = .idle ∨
        ∃ e, (s.pc b.thread).event = .asleep a e ∧ e < s.mem.event.notified := by
      refine (hall b.thread).imp_right fun ⟨a', e, hp, hsome, hwake⟩ => ?_
      rw [hu] at hsome
      cases hsome
      exact ⟨e, hp, hwake hg⟩
    obtain ⟨e, hr⟩ := runs_call hl hu hat hg hok
    exact ⟨_, hr, flushed_set hf rfl, State.project_set ..⟩

/-- … and so is each run. -/
theorem exists_run (h : prog.Reach Handled s) (hf : Flushed s) {s' : State Connection.Mem Connection.Pc}
    (hr : Connection.prog.Runs Connection.Quiet (connection s) s') :
    ∃ s₁, prog.Runs Quiet s s₁ ∧ Flushed s₁ ∧ connection s₁ = s' := by
  let R : State Connection.Mem Connection.Pc → State Mem Pc → Prop :=
    fun c s => prog.Reach Handled s ∧ Flushed s ∧ connection s = c
  have hstep : ∀ c c' b s, R c s → Connection.Quiet c b → Connection.prog.step c b = some c' →
      ∃ s', prog.Runs Quiet s s' ∧ R c' s' := by
    intro c c' b s hR hq hs
    obtain ⟨h, hf, rfl⟩ := hR
    obtain ⟨s', hr, hf', he⟩ := exists_step h hf hq hs
    exact ⟨s', hr, h.runs hr handled_of_quiet, hf', he⟩
  obtain ⟨s₁, hr₁, -, hf₁, he⟩ := hr.simulate R hstep ⟨h, hf, rfl⟩
  exact ⟨s₁, hr₁, hf₁, he⟩

/-- **What is under way can be brought to an end**, down to the code of the event: from every state of a run without
an exception that gets past the handlers, with nothing new but the connect timers, without a thread that wakes up
for no reason and without a timeout. -/
theorem comes_to_rest_over_event (h : prog.Reach Handled s) :
    ∃ s', prog.Runs Quiet s s' ∧ (s'.mem.conn.crashed = true ∨
      (Connection.AtRest (connection s') ∧ s'.mem.event.lock = false ∧ ∀ t, (s'.pc t).event = .idle)) := by
  obtain ⟨s₁, hr₁, hs₁⟩ := exists_flushed h
  rcases hs₁ with hc | hf
  · exact ⟨s₁, hr₁, .inl hc⟩
  have h₁ := h.runs hr₁ handled_of_quiet
  have hconn : Connection.prog.Reach (fun s a => Connection.Handled (s.pc a.thread) a.input) (connection s₁) :=
    reach_connection h₁
  obtain ⟨s', hr', hs'⟩ := Connection.exists_todo_zero ∅ hconn fun t ht => absurd ht (Finset.notMem_empty t)
  obtain ⟨s₂, hr₂, hf₂, rfl⟩ := exists_run h₁ hf (hr'.mono fun _ _ hb => hb.1)
  refine ⟨s₂, hr₁.trans hr₂, hs'.imp_right fun hall => ?_⟩
  have h₂ := h₁.runs hr₂ handled_of_quiet
  obtain ⟨hl, hidle⟩ := idle_or_wakes h₂ hf₂
  refine ⟨Connection.atRest_of_todo (reach_connection h₂) hall, hl, fun t => (hidle t).resolve_right ?_⟩
  rintro ⟨a, e, -, hu, -⟩
  exact (calling_of_uses hu).todo (hall t)

end

theorem comes_to_rest_over_event_sleeping : ∃ s, ((s.pc 0).conn = .start 1 1 .negotiating ∧
      (s.pc 1).event = .asleep (.wait 60000) 0) ∧
    ∃ s', prog.Runs Quiet s s' ∧ (s'.mem.conn.crashed = true ∨
      (Connection.AtRest (connection s') ∧ s'.mem.event.lock = false ∧ ∀ t, (s'.pc t).event = .idle)) := by
  obtain ⟨s, hr, hf⟩ := prog.exists_of_run handled sleeping
    (fun s => ((s.pc 0).conn, (s.pc 1).event)) (.start 1 1 .negotiating, .asleep (.wait 60000) 0) rfl
  simp only [Prod.mk.injEq] at hf
  exact ⟨s, hf, comes_to_rest_over_event hr⟩

end SignalRClient.Signaling
