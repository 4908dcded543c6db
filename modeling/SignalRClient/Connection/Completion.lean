import SignalRClient.Connection.Handshake
import SignalRClient.Connection.Waiting
import SignalRClient.Threads.Mutex
import SignalRClient.Threads.Progress

/-!
# No deadlock

`m_stop_lock` is held by a thread, and who holds it can go on or waits for `m_start_completed_event`, which is
signaled by a thread that needs neither (`exists_signals`).  So from every state some thread gets nearer to the end
of what it does, and all that is under way can be brought to an end without anything new but the connect timers
(`comes_to_rest`).  Then the lock is free and the event signaled.
-/

namespace SignalRClient.Connection

open Threads

/-! ## How far a thread is from its end -/

/-- The number of steps to the end, when the requests and the socket answer and the reconnect window has expired. -/
def StartPc.todo : StartPc → ℕ
  | .lock => 22 | .cas => 21 | .newCts => 20 | .reset => 19 | .fields => 18 | .unlock => 17 | .attach => 16
  | .negotiate => 15 | .negotiating => 14 | .startTransport _ => 13 | .create => 12 | .connect => 11
  | .connecting => 10 | .setTransport => 9 | .startRequest => 8 | .startRequesting => 7 | .succeed => 2
  | .fail => 3 | .failState => 2 | .succeedSet | .failSet | .reject => 1
  | .rejected | .started | .failed | .broken => 0

def StopPc.todo : StopPc → ℕ
  | .lock => 15 | .check => 14 | .cancel => 13 | .wait => 12 | .recheck => 11 | .exchange => 10 | .unlock => 9
  | .abort => 8 | .disconnect => 7 | .closing => 6 | .unlockIdle => 6
  | .contLock _ => 5 | .contCas _ => 4 | .contNull => 3 | .contUnlock => 2 | .callback | .unlockCancelled => 1
  | .stopped | .cancelledTask | .thrown => 0

/-- A `reconnect()` that gives up goes on with `stop()`. -/
def ErrorPc.todo : ErrorPc → ℕ
  | .check => 35 | .setException => 34 | .lock => 33 | .wait => 32 | .cas => 31 | .capture => 30 | .unlock => 29
  | .callback => 28 | .relock => 27 | .recheckCts => 26 | .recheckState => 25 | .reset => 24 | .release => 23
  | .build => 22 | .retryCheck => 22 | .tryCheck => 21 | .tryConnect => 20 | .tryWait => 19 | .tryFailed => 18
  | .tryWindow => 17 | .failSet => 16 | .okCas => 3 | .okSet => 2 | .okCallback | .quit => 1
  | .broken => 0

def Pc.todo : Pc → ℕ
  | .idle | .finished => 0
  | .start _ _ p => p.todo
  | .stop _ p => p.todo
  | .error _ _ _ p => p.todo
  | .message _ r => (processEffects r).length + 2
  | .process _ _ es => es.length + 1
  | .timer _ => 1

/-- What the outside says on this way. -/
def Pc.answer : Pc → Outcome
  | .start _ _ .negotiating => .fault
  | .error _ _ _ .tryWindow => .expired
  | _ => .ok

/-- The thread is to take `m_stop_lock`. -/
def Pc.acquires : Pc → Bool
  | .start _ _ .lock | .stop _ .lock | .stop _ (.contLock _) | .error _ _ _ .lock | .error _ _ _ .relock => true
  | _ => false

/-- The thread looks at the token that the transport of this session has captured. -/
def Pc.looksAt : Pc → Option ℕ
  | .message n _ | .error n _ _ .check | .timer n => some n
  | _ => none

/-- The thread waits, for the lock, for the event or for the first response of its transport. -/
inductive Blocked (m : Mem) : Pc → Prop
  | lock {p : Pc} : p.acquires = true → m.stopLock = true → Blocked m p
  | event {p : Pc} : p.waits = true → m.startCompleted = false → Blocked m p
  | connect {n c : ℕ} : m.connectTce n = .unset → Blocked m (.start n c .connecting)

section Steps

variable {t : ℕ} {m m' : Mem} {p p' : Pc}

/-- With this answer a step brings the thread nearer to its end. -/
theorem next_lowers (h : next t m p (.task p.answer) = some (m', p')) : m'.crashed = true ∨ p'.todo < p.todo := by
  cases hp : p with
  | start n c q =>
    subst hp
    obtain ⟨o, e, hr⟩ := next_start h
    injection e with e
    subst e
    cases q <;> simp only [runStart, Pc.answer] at hr <;> repeat' (split at hr)
    all_goals simp only [reduceCtorEq, Option.some.injEq, Prod.mk.injEq] at hr
    all_goals obtain ⟨rfl, rfl⟩ := hr
    all_goals first | exact .inl rfl | exact .inr (by simp [Pc.todo, StartPc.todo])
  | stop g q =>
    subst hp
    obtain ⟨o, e, hr⟩ := next_stop h
    injection e with e
    subst e
    cases q <;> simp only [runStop, Pc.answer] at hr <;> repeat' (split at hr)
    all_goals simp only [reduceCtorEq, Option.some.injEq, Prod.mk.injEq] at hr
    all_goals obtain ⟨rfl, rfl⟩ := hr
    all_goals first | exact .inl rfl | exact .inr (by simp [Pc.todo, StopPc.todo])
  | error n k c q =>
    subst hp
    obtain ⟨o, e, hr⟩ := next_error h
    injection e with e
    subst e
    cases q <;> simp only [runError, Pc.answer] at hr <;> repeat' (split at hr)
    all_goals simp only [reduceCtorEq, Option.some.injEq, Prod.mk.injEq] at hr
    all_goals obtain ⟨rfl, rfl⟩ := hr
    all_goals first | exact .inl rfl | exact .inr (by simp [Pc.todo, ErrorPc.todo, StopPc.todo])
  | _ =>
    subst hp
    cases next_leads h <;> exact .inr (by simp [Pc.todo])

/-- A thread that waits for nothing can make this step. -/
theorem next_enabled (t : ℕ) (hc : m.crashed = false) (hp : p.todo ≠ 0) (hb : ¬ Blocked m p)
    (hk : ∀ n, p.looksAt = some n → (m.created n).isSome) : (next t m p (.task p.answer)).isSome = true := by
  have hlock : p.acquires = true → m.stopLock = false := by
    intro ha
    by_contra hl
    exact hb (.lock ha (by simpa using hl))
  have hevent : p.waits = true → m.startCompleted = true := by
    intro hw
    by_contra he
    exact hb (.event hw (by simpa using he))
  cases p with
  | idle | finished => exact absurd rfl hp
  | start n c q =>
    have hn : next t m (.start n c q) (.task (Pc.start n c q).answer) =
        runStart m n c q (Pc.start n c q).answer := by simp [next, hc]
    rw [hn]
    cases q with
    | lock => simp [runStart, hlock rfl]
    | connecting =>
      have htce : m.connectTce n ≠ .unset := fun e => hb (.connect e)
      cases hv : m.connectTce n <;> simp_all [runStart]
    | _ =>
      simp only [runStart, Pc.answer]
      repeat' split
      all_goals first | rfl | exact absurd rfl hp
  | stop g q =>
    have hn : next t m (.stop g q) (.task (Pc.stop g q).answer) = runStop t m g q (Pc.stop g q).answer := by
      simp [next, hc]
    rw [hn]
    cases q with
    | lock | contLock own => simp [runStop, hlock rfl]
    | wait => simp [runStop, hevent rfl]
    | _ =>
      simp only [runStop, Pc.answer]
      repeat' split
      all_goals first | rfl | exact absurd rfl hp
  | error n k c q =>
    have hn : next t m (.error n k c q) (.task (Pc.error n k c q).answer) =
        runError m n k c q (Pc.error n k c q).answer := by simp [next, hc]
    rw [hn]
    cases q with
    | lock | relock => simp [runError, hlock rfl]
    | wait => simp [runError, hevent rfl]
    | check =>
      obtain ⟨cts, hcts⟩ := Option.isSome_iff_exists.mp (hk n rfl)
      simp only [runError, hcts]
      split <;> rfl
    | _ =>
      simp only [runError, Pc.answer]
      repeat' split
      all_goals first | rfl | exact absurd rfl hp
  | message n r =>
    obtain ⟨cts, hcts⟩ := Option.isSome_iff_exists.mp (hk n rfl)
    simp only [next, hc, runMessage, hcts]
    simp only [Bool.false_eq_true, if_false]
    split <;> rfl
  | process n k es =>
    cases es <;> simp [next, hc, runProcess]
  | timer n =>
    obtain ⟨cts, hcts⟩ := Option.isSome_iff_exists.mp (hk n rfl)
    simp [next, hc, runTimer, hcts]

/-- A step of `start()`, `stop()` or `reconnect()` takes `m_stop_lock`, leaves it, or neither. -/
theorem next_lock {i : Input} (h : next t m p i = some (m', p')) :
    LockStep m.stopLock m'.stopLock p.role.locked p'.role.locked := by
  rcases next_core h with ⟨n, c, q, o, rfl, hr⟩ | ⟨g, q, o, rfl, hr⟩ | ⟨n, k, c, q, o, rfl, hr⟩ | ⟨hm, hp, hp'⟩
  · cases q <;> simp only [runStart] at hr <;> repeat' (split at hr)
    all_goals simp only [reduceCtorEq, Option.some.injEq, Prod.mk.injEq] at hr
    all_goals obtain ⟨rfl, rfl⟩ := hr
    all_goals first | exact .stay _ _ | exact .leave _ | simpa [Pc.role, StartPc.role, *] using LockStep.take
  · cases q <;> simp only [runStop] at hr <;> repeat' (split at hr)
    all_goals simp only [reduceCtorEq, Option.some.injEq, Prod.mk.injEq] at hr
    all_goals obtain ⟨rfl, rfl⟩ := hr
    all_goals first | exact .stay _ _ | exact .leave _ | simpa [Pc.role, StopPc.role, *] using LockStep.take
  · cases q <;> simp only [runError] at hr <;> repeat' (split at hr)
    all_goals simp only [reduceCtorEq, Option.some.injEq, Prod.mk.injEq] at hr
    all_goals obtain ⟨rfl, rfl⟩ := hr
    all_goals first | exact .stay _ _ | exact .leave _ | simpa [Pc.role, ErrorPc.role, *] using LockStep.take
  · rw [hm, hp, hp']
    exact .stay _ _

end Steps

/-! ## Nobody is stuck -/

/-- The callbacks and the timers are those of transports that exist. -/
structure Backed (s : State Mem Pc) : Prop where
  looks : ∀ t n, (s.pc t).looksAt = some n → (s.mem.created n).isSome = true
  timer : ∀ n, s.mem.timer n = true → (s.mem.created n).isSome = true

section

variable {s : State Mem Pc} {t : ℕ} {m m' : Mem} {p p' : Pc} {i : Input} {n : ℕ}

theorem created_mono (h : next t m p i = some (m', p')) (hn : (m.created n).isSome = true) :
    (m'.created n).isSome = true := by
  rcases (next_records h).created with e | ⟨k, c, -, e⟩
  · rwa [e]
  · rw [e]
    by_cases hk : n = k
    · simp [hk]
    · rwa [Function.update_of_ne hk]

theorem next_looksAt (h : next t m p i = some (m', p')) (hp : p'.looksAt = some n) :
    (m.created n).isSome = true ∨ m.timer n = true := by
  cases next_leads h with
  | @enter k _ _ he _ hk =>
    subst hk
    cases k <;> cases hp
    all_goals simp only [enter, Option.ite_none_right_eq_some] at he
    all_goals first | exact .inl he.1 | exact .inr he.1
  | @error n₀ k c k' c' q q' o _ hr =>
    cases q <;> simp only [runError] at hr <;> repeat' (split at hr)
    all_goals simp only [reduceCtorEq, Option.some.injEq, Prod.mk.injEq, Pc.error.injEq] at hr
    all_goals obtain ⟨-, -, -, -, rfl⟩ := hr
    all_goals cases hp
  | _ => cases hp

/-- A timer is set as the transport is made. -/
theorem next_timer_created (h : next t m p i = some (m', p')) (hn : m'.timer n = true) :
    m.timer n = true ∨ (m'.created n).isSome = true := by
  rcases (next_records h).timer with e | ⟨k, c, rfl, -⟩ | ⟨k, -, e⟩
  · exact .inl (by rwa [← e])
  · obtain ⟨o, -, hr⟩ := next_start h
    simp only [runStart] at hr
    split at hr
    · cases hr; exact .inl hn
    · cases hr; exact .inl hn
    · cases hr
      by_cases hk : n = k
      · exact .inr (by simp [hk])
      · exact .inl (by simpa [Function.update_of_ne hk] using hn)
  · by_cases hk : n = k
    · rw [e, hk, Function.update_self] at hn
      cases hn
    · exact .inl (by rwa [e, Function.update_of_ne hk] at hn)

theorem backed_holds (h : prog.Reachable s) : Backed s := by
  refine h.invariant (J := Backed) ⟨fun _ _ hn => (by cases hn), fun _ hn => (by cases hn)⟩ ?_
  intro s a m p _ _ ih hn
  refine ⟨fun t n hlook => ?_, fun n htimer => ?_⟩
  · refine created_mono hn ?_
    by_cases ht : t = a.thread
    · subst ht
      rw [State.set_pc_self] at hlook
      exact (next_looksAt hn hlook).elim id (ih.timer n)
    · rw [State.set_pc_of_ne _ _ _ _ ht] at hlook
      exact ih.looks t n hlook
  · exact (next_timer_created hn htimer).elim (fun hold => created_mono hn (ih.timer n hold)) id

end

/-- The step is handled, and begins nothing but the activity of a connect timer. -/
def Quiet (s : State Mem Pc) (a : Act Input) : Prop :=
  Handled (s.pc a.thread) a.input ∧ ∀ k, a.input = .call k → ∃ n, k = .timer n

/-- … and is none of a thread of `F`. -/
def Beside (F : Finset ℕ) (s : State Mem Pc) (a : Act Input) : Prop := Quiet s a ∧ a.thread ∉ F

/-- From `s` some thread gets nearer to its end, without a step of those in `F`. -/
def Progresses (F : Finset ℕ) (s : State Mem Pc) : Prop :=
  ∃ s', prog.Runs (Beside F) s s' ∧ (s'.mem.crashed = true ∨ Lower Pc.todo s s')

section

variable {s : State Mem Pc} {p : Pc} {F : Finset ℕ}

theorem handled_answer (p : Pc) : Handled p (.task p.answer) := by
  refine ⟨fun n c q hp => ?_, fun n k c hp => ?_, fun n k c hp => ?_⟩
  · subst hp
    cases q <;> exact ⟨fun e => (by cases e), fun e => (by cases e)⟩
  · subst hp
    exact ⟨fun e => (by cases e), fun e => (by cases e)⟩
  · subst hp
    exact fun e => (by cases e)

theorem handled_idle (i : Input) : Handled .idle i :=
  ⟨fun _ _ _ e => (by cases e), fun _ _ _ e => (by cases e), fun _ _ _ e => (by cases e)⟩

theorem todo_of_locked (h : p.role.locked = true) : p.todo ≠ 0 ∧ p.acquires = false := by
  cases p with
  | start n c q | stop g q | error n k c q =>
    cases q <;> first | (cases h; done) | exact ⟨fun e => (by cases e), rfl⟩
  | _ => cases h

theorem locked_of_waits (h : p.waits = true) : p.role.locked = true := by
  unfold Pc.waits at h
  split at h <;> first | rfl | cases h

theorem todo_of_signals (h : p.signals = true) : p.todo ≠ 0 ∧ p.acquires = false := by
  cases p with
  | start n c q | error n k c q =>
    cases q <;> first | (cases h; done) | exact ⟨fun e => (by cases e), rfl⟩
  | _ => cases h

/-- A thread that waits for nothing goes on. -/
theorem progresses_of_enabled (h : prog.Reachable s) (hc : s.mem.crashed = false) {t : ℕ} (hp : (s.pc t).todo ≠ 0)
    (hb : ¬ Blocked s.mem (s.pc t)) (hF : ∀ t ∈ F, (s.pc t).todo = 0) : Progresses F s := by
  obtain ⟨⟨m, p⟩, hn⟩ := Option.isSome_iff_exists.mp (next_enabled t hc hp hb fun n => (backed_holds h).looks t n)
  have hquiet : Beside F s ⟨t, .task (s.pc t).answer⟩ :=
    ⟨⟨handled_answer _, fun k e => (by cases e)⟩, fun ht => hp (hF t ht)⟩
  refine ⟨_, .single (t := t) hquiet hn, ?_⟩
  exact (next_lowers hn).imp_right fun hlt => .set hlt

/-- An idle thread runs the connect timer. -/
theorem exists_timed (F : Finset ℕ) (h : prog.Reachable s) (hc : s.mem.crashed = false) {n : ℕ}
    (ht : s.mem.timer n = true) :
    ∃ s', prog.Runs (Beside F) s s' ∧ s'.mem.connectTce n ≠ .unset ∧ s'.mem.crashed = false ∧
      (∀ t, s.pc t ≠ .idle → s'.pc t = s.pc t) ∧ ∀ t, (s'.pc t).todo ≤ (s.pc t).todo := by
  obtain ⟨S, hS⟩ := h.exists_idle
  obtain ⟨w, hw⟩ := Infinite.exists_notMem_finset (S ∪ F)
  obtain ⟨hwS, hwF⟩ := not_or.mp fun hmem => hw (Finset.mem_union.mpr hmem)
  have hidle : s.pc w = .idle := hS w hwS
  obtain ⟨cts, hcts⟩ := Option.isSome_iff_exists.mp ((backed_holds h).timer n ht)
  let m : Mem := { s.mem with timer := Function.update s.mem.timer n false }
  have hn : next w s.mem (s.pc w) (.call (.timer n)) = some (m, .timer n) := by
    simp [next, hc, hidle, enter, ht, m]
  have hn' : next w m ((s.set w m (.timer n)).pc w) (.task .ok) =
      some (m.completeConnect n (if m.cancelled cts then .set else .failed), .finished) := by
    rw [State.set_pc_self]
    simp [next, hc, runTimer, hcts, m]
  have hquiet : Beside F s ⟨w, .call (.timer n)⟩ :=
    ⟨⟨by rw [hidle]; exact handled_idle _, fun k e => ⟨n, by cases e; rfl⟩⟩, hwF⟩
  refine ⟨_, (Program.Runs.single (t := w) hquiet hn).trans
    (.single (t := w) ⟨⟨?_, fun k e => (by cases e)⟩, hwF⟩ hn'), ?_, hc, fun t ht => ?_, fun t => ?_⟩
  · rw [State.set_pc_self]
    exact handled_answer (.timer n)
  · exact next_timed (t := w) (m := m) (i := .task .ok) (by simpa using hn')
  · have hne : t ≠ w := fun e => ht (by rw [e, hidle])
    rw [State.set_pc_of_ne _ _ _ _ hne, State.set_pc_of_ne _ _ _ _ hne]
  · by_cases htw : t = w
    · subst htw
      rw [State.set_pc_self]
      exact Nat.zero_le _
    · rw [State.set_pc_of_ne _ _ _ _ htw, State.set_pc_of_ne _ _ _ _ htw]

/-- Who waits for the first response of its transport goes on when the connect timer has expired. -/
theorem progresses_of_connecting (h : prog.Reachable s) (hc : s.mem.crashed = false) {t n c : ℕ}
    (hp : s.pc t = .start n c .connecting) (htce : s.mem.connectTce n = .unset) (hF : ∀ t ∈ F, (s.pc t).todo = 0) :
    Progresses F s := by
  rcases exists_timer h (u := t) (n := n) (by rw [hp]; rfl) with hset | htimer | ⟨v, hv⟩
  · exact absurd htce hset
  · obtain ⟨s₁, hr, htce₁, hc₁, hsame, hle⟩ := exists_timed F h hc htimer
    have hp₁ : s₁.pc t = .start n c .connecting := by rw [hsame t (by rw [hp]; simp), hp]
    have h₁ : prog.Reachable s₁ := h.runs hr fun _ _ _ => trivial
    have htodo : (s₁.pc t).todo ≠ 0 := by rw [hp₁]; simp [Pc.todo, StartPc.todo]
    have hfree : ¬ Blocked s₁.mem (s₁.pc t) := fun hb => by
      rw [hp₁] at hb
      cases hb with
      | lock ha => cases ha
      | event hw => cases hw
      | connect hunset => exact htce₁ hunset
    obtain ⟨s₂, hr', hs₂⟩ := progresses_of_enabled (F := F) h₁ hc₁ htodo hfree fun u hu =>
      Nat.le_zero.mp ((hle u).trans (hF u hu).le)
    exact ⟨s₂, hr.trans hr', hs₂.imp_right (.of_le hle)⟩
  · refine progresses_of_enabled h hc (t := v) (by rw [hv]; exact one_ne_zero) (fun hb => ?_) hF
    rw [hv] at hb
    cases hb with
    | lock ha => cases ha
    | event hw => cases hw

/-- Some thread waits neither for the lock nor for the event. -/
theorem exists_free (h : prog.Reach (fun s a => Handled (s.pc a.thread) a.input) s)
    (hbusy : ∃ t, (s.pc t).todo ≠ 0) :
    ∃ t, (s.pc t).todo ≠ 0 ∧ ((s.pc t).acquires = true → s.mem.stopLock = false) ∧
      ((s.pc t).waits = true → s.mem.startCompleted = true) := by
  have hmutex : Mutex (fun m : Mem => m.stopLock) (fun p : Pc => p.role.locked) s :=
    h.mutex rfl fun _ _ _ _ _ _ hn => next_lock hn
  have howned : Owned (fun m : Mem => m.stopLock) (fun p : Pc => p.role.locked) s :=
    h.owned rfl fun _ _ _ _ _ _ hn => next_lock hn
  cases hl : s.mem.stopLock with
  | false =>
    obtain ⟨t, ht⟩ := hbusy
    refine ⟨t, ht, fun _ => rfl, fun hw => ?_⟩
    have hheld : s.mem.stopLock = true := hmutex.held t (locked_of_waits hw)
    rw [hl] at hheld
    cases hheld
  | true =>
    obtain ⟨t, ht⟩ := howned hl
    by_cases hw : (s.pc t).waits = true ∧ s.mem.startCompleted = false
    · -- the holder waits for a thread that needs neither
      obtain ⟨u, hu⟩ := exists_signals h hw.2 (sessions_of_waits h.reachable hw.1)
      obtain ⟨htodo, hacq⟩ := todo_of_signals hu
      refine ⟨u, htodo, fun ha => ?_, fun hwu => ?_⟩
      · rw [hacq] at ha
        cases ha
      · rw [Pc.not_signals_of_waits hwu] at hu
        cases hu
    · obtain ⟨htodo, hacq⟩ := todo_of_locked ht
      refine ⟨t, htodo, fun ha => ?_, fun hwt => ?_⟩
      · rw [hacq] at ha
        cases ha
      · by_contra he
        exact hw ⟨hwt, by simpa using he⟩

/-- **No deadlock.** -/
theorem progresses (h : prog.Reach (fun s a => Handled (s.pc a.thread) a.input) s) (hc : ¬ s.mem.crashed = true)
    (hF : ∀ t ∈ F, (s.pc t).todo = 0) (hbusy : ∃ t, (s.pc t).todo ≠ 0) : Progresses F s := by
  have hc : s.mem.crashed = false := by simpa using hc
  obtain ⟨t, ht, hlock, hevent⟩ := exists_free h hbusy
  by_cases hcon : ∃ n c, s.pc t = .start n c .connecting ∧ s.mem.connectTce n = .unset
  · obtain ⟨n, c, hp, htce⟩ := hcon
    exact progresses_of_connecting h.reachable hc hp htce hF
  · refine progresses_of_enabled h.reachable hc ht (fun hb => ?_) hF
    generalize hp : s.pc t = p at hb hlock hevent
    cases hb with
    | lock ha hl =>
      rw [hlock ha] at hl
      cases hl
    | event hw he =>
      rw [hevent hw] at he
      cases he
    | connect htce => exact hcon ⟨_, _, hp, htce⟩

end

/-! ## Rest -/

/-- The activity is over, and its task is completed. -/
def Pc.isOver : Pc → Bool
  | .idle | .finished | .start _ _ .rejected | .start _ _ .started | .start _ _ .failed
  | .stop _ .stopped | .stop _ .cancelledTask | .stop _ .thrown => true
  | _ => false

/-- An exception has got past the handlers. -/
def Pc.isBroken : Pc → Bool
  | .start _ _ .broken | .error _ _ _ .broken => true
  | _ => false

/-- Nothing is under way. -/
structure AtRest (s : State Mem Pc) : Prop where
  ended : ∀ t, (s.pc t).isOver = true
  unlocked : s.mem.stopLock = false
  signaled : 0 < s.mem.sessions → s.mem.startCompleted = true
  settled : s.mem.connState ≠ .connecting

section

variable {s : State Mem Pc}

theorem next_isBroken {t : ℕ} {m m' : Mem} {p p' : Pc} {i : Input} (h : next t m p i = some (m', p'))
    (hh : Handled p i) : p'.isBroken = false := by
  cases next_leads h with
  | @enter k _ _ _ _ hp =>
    subst hp
    cases k <;> rfl
  | @start n c _ _ q _ o _ hr =>
    obtain ⟨h1, h2⟩ := hh.1 n c q rfl
    cases q <;> simp only [runStart] at hr <;> repeat' (split at hr)
    all_goals simp only [reduceCtorEq, Option.some.injEq, Prod.mk.injEq, Pc.start.injEq] at hr
    all_goals obtain ⟨-, -, -, rfl⟩ := hr
    all_goals first | rfl | exact absurd rfl h1 | exact absurd rfl h2
  | @error n k c _ _ q _ o _ hr =>
    obtain ⟨-, hconnect, hwait⟩ := hh
    cases q <;> simp only [runError] at hr <;> repeat' (split at hr)
    all_goals simp only [reduceCtorEq, Option.some.injEq, Prod.mk.injEq, Pc.error.injEq] at hr
    all_goals obtain ⟨-, -, -, -, rfl⟩ := hr
    all_goals first
      | rfl
      | exact absurd rfl (hconnect n k c rfl).1
      | exact absurd rfl (hconnect n k c rfl).2
      | exact absurd rfl (hwait n k c rfl)
  | _ => rfl

theorem isBroken_holds (h : prog.Reach (fun s a => Handled (s.pc a.thread) a.input) s) (t : ℕ) :
    (s.pc t).isBroken = false := by
  refine h.each (L := fun _ _ p => p.isBroken = false) (fun _ => rfl) ?_ t
  intro s a m p _ ha ih hn
  exact ⟨next_isBroken hn ha, fun u _ => ih u⟩

theorem isOver_of_todo {p : Pc} (h : p.todo = 0) (hb : p.isBroken = false) : p.isOver = true := by
  cases p with
  | start n c q | stop g q | error n k c q => cases q <;> first | rfl | (cases h; done) | cases hb
  | idle | finished => rfl
  | message | process | timer => cases h

theorem atRest_of_todo (h : prog.Reach (fun s a => Handled (s.pc a.thread) a.input) s)
    (hall : ∀ t, (s.pc t).todo = 0) : AtRest s := by
  have howned : Owned (fun m : Mem => m.stopLock) (fun p : Pc => p.role.locked) s :=
    h.owned rfl fun _ _ _ _ _ _ hn => next_lock hn
  refine ⟨fun t => isOver_of_todo (hall t) (isBroken_holds h t), ?_, fun hse => ?_, fun hcon => ?_⟩
  · by_contra hl
    obtain ⟨t, ht⟩ := howned (by simpa using hl)
    exact (todo_of_locked ht).1 (hall t)
  · by_contra he
    obtain ⟨t, ht⟩ := exists_signals h (by simpa using he) hse
    exact (todo_of_signals ht).1 (hall t)
  · obtain ⟨t, ht⟩ := exists_connects h.reachable hcon
    have hover := isOver_of_todo (hall t) (isBroken_holds h t)
    generalize s.pc t = p at ht hover
    unfold Pc.isOver at hover
    split at hover <;> first | cases hover; done | cases ht

theorem handled_of_beside {F : Finset ℕ} (s : State Mem Pc) (a : Act Input) (h : Beside F s a) :
    Handled (s.pc a.thread) a.input := h.1.1

/-- All threads come to their end, without a step of those in `F`, which have come there. -/
theorem exists_todo_zero (F : Finset ℕ) (h : prog.Reach (fun s a => Handled (s.pc a.thread) a.input) s)
    (hF : ∀ t ∈ F, (s.pc t).todo = 0) :
    ∃ s', prog.Runs (Beside F) s s' ∧ (s'.mem.crashed = true ∨ ∀ t, (s'.pc t).todo = 0) := by
  let stop : State Mem Pc → Prop := fun s => s.mem.crashed = true ∨ ¬ ∀ t ∈ F, (s.pc t).todo = 0
  obtain ⟨s', hr, hs'⟩ := h.exists_rest Pc.todo stop rfl (handled_of_beside (F := F)) fun s hs hstop hbusy => by
    obtain ⟨hc, hF⟩ := not_or.mp hstop
    obtain ⟨s', hr, hs'⟩ := progresses hs hc (not_not.mp hF) hbusy
    exact ⟨s', hr, hs'.imp_left .inl⟩
  refine ⟨s', hr, ?_⟩
  rcases hs' with (hc | hnot) | hall
  · exact .inl hc
  · refine absurd (fun t ht => ?_) hnot
    have hsame : s'.pc t = s.pc t := hr.pc_eq fun s a hb e => hb.2 (e ▸ ht)
    rw [hsame]
    exact hF t ht
  · exact .inr hall

/-- **What is under way can be brought to an end**, from every state of a run without an exception that gets past the
handlers and with nothing new but the connect timers, unless a null `m_transport` is dereferenced on the way: each
task of `start()` and `stop()` is completed then, the lock is free and the event is signaled. -/
theorem comes_to_rest (h : prog.Reach (fun s a => Handled (s.pc a.thread) a.input) s) :
    ∃ s', prog.Runs Quiet s s' ∧ (s'.mem.crashed = true ∨ AtRest s') := by
  obtain ⟨s', hr, hs'⟩ := exists_todo_zero ∅ h fun t ht => absurd ht (Finset.notMem_empty t)
  have h' := h.runs hr handled_of_beside
  exact ⟨s', hr.mono fun _ _ hb => hb.1, hs'.imp_right (atRest_of_todo h')⟩

end

/-- `stop()` waits in the lock for a start that is negotiating, and a second `start()` for the lock. -/
theorem comes_to_rest_waiting : ∃ s,
    (s.pc 1 = .stop .user .wait ∧ s.mem.startCompleted = false ∧ s.pc 2 = .start 0 0 .lock) ∧
    ∃ s', prog.Runs Quiet s s' ∧ (s'.mem.crashed = true ∨ AtRest s') := by
  obtain ⟨s, hr, hf⟩ := prog.exists_of_run handled
    ([call 0 .start] ++ tasks 0 8 ++ [call 1 .stop] ++ tasks 1 3 ++ [call 2 .start])
    (fun s => (s.pc 1, s.mem.startCompleted, s.pc 2)) (.stop .user .wait, false, .start 0 0 .lock) rfl
  simp only [Prod.mk.injEq] at hf
  exact ⟨s, hf, comes_to_rest hr⟩

end SignalRClient.Connection
