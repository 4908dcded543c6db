import SignalRClient.Threads.Trace
import SignalRClient.Connection.Shutdown

/-!
# How a session ends

The shutdown of a `stop()` moves the state to disconnecting; what moves it on to disconnected is the
continuation of a `stop()`, which then calls the disconnected callback.

* `stop_not_wedged` — a disconnecting connection has a continuation that will end it.  A shutdown whose
  `abort()` or `disconnect()` fails has none, and the connection stays as it is (`wedged_step`);
* `one_notification` — the disconnected callback is called once for each session that ends.  A `stop()`
  that has ended no session calls it too, unless it is cancelled or throws.
-/

namespace SignalRClient.Connection

open Threads

/-! ## A failing shutdown -/

/-- A `stop()` whose continuation has still to look at the state. -/
def Pc.finishes : Pc → Bool
  | .stop _ .unlock | .stop _ .abort | .stop _ .disconnect | .stop _ .closing | .stop _ .unlockIdle
  | .stop _ (.contLock _) | .stop _ (.contCas _) => true
  | _ => false

/-- The connection is disconnecting and no continuation of a `stop()` is pending that could end that. -/
def Wedged (s : State Mem Pc) : Prop :=
  s.mem.connState = .disconnecting ∧ ∀ t, (s.pc t).finishes = false

/-- The call throws. -/
def Outcome.isThrow : Outcome → Bool
  | .throws | .throwsOther => true
  | _ => false

/-- The task is faulted. -/
def Outcome.isFault : Outcome → Bool
  | .fault | .faultOther => true
  | _ => false

/-- A shutdown fails: `abort()` or `disconnect()` throws, or the task of `disconnect()` is faulted. -/
def failsShutdown (m : Mem) : Pc → Input → Bool
  | .stop _ .abort, .task o => m.transport.isSome && o.isThrow
  | .stop _ .disconnect, .task o => m.transport.isSome && o.isThrow
  | .stop _ .closing, .task o => o.isFault
  | _, _ => false

/-- The shutdown that has begun to disconnect does not fail, unless the continuation of another `stop()` is
pending. -/
def NotFailing (s : State Mem Pc) (a : Act Input) : Prop :=
  s.mem.connState = .disconnecting → failsShutdown s.mem (s.pc a.thread) a.input = true →
    ∃ u, u ≠ a.thread ∧ (s.pc u).finishes = true

section Steps

variable {t : ℕ} {m m' : Mem} {p p' : Pc} {i : Input}

theorem stop_of_finishes (h : p.finishes = true) : ∃ g q, p = .stop g q := by
  cases p <;> first | exact ⟨_, _, rfl⟩ | cases h

theorem stop_of_failsShutdown (h : failsShutdown m p i = true) : ∃ g q, p = .stop g q := by
  unfold failsShutdown at h
  split at h <;> first | exact ⟨_, _, rfl⟩ | cases h

/-- A shutdown that does not fail and its continuation go on until they have ended the session. -/
theorem next_finishes (h : next t m p i = some (m', p')) (hp : p.finishes = true)
    (hf : failsShutdown m p i = false) : p'.finishes = true ∨ m'.connState ≠ .disconnecting := by
  obtain ⟨g, q, rfl⟩ := stop_of_finishes hp
  obtain ⟨o, rfl, h'⟩ := next_stop h
  cases q <;> simp only [runStop] at h' <;> repeat' (split at h')
  all_goals simp only [reduceCtorEq, Option.some.injEq, Prod.mk.injEq] at h'
  all_goals obtain ⟨rfl, rfl⟩ := h'
  all_goals simp_all [Pc.finishes, failsShutdown, Outcome.isThrow, Outcome.isFault]

/-- One that fails is over, and leaves the state as it is. -/
theorem next_failsShutdown (h : next t m p i = some (m', p')) (hf : failsShutdown m p i = true) :
    m' = m ∧ p'.finishes = false := by
  obtain ⟨g, q, rfl⟩ := stop_of_failsShutdown hf
  obtain ⟨o, rfl, h'⟩ := next_stop h
  cases q <;> simp only [runStop] at h' <;> repeat' (split at h')
  all_goals simp only [reduceCtorEq, Option.some.injEq, Prod.mk.injEq] at h'
  all_goals obtain ⟨rfl, rfl⟩ := h'
  all_goals simp_all [Pc.finishes, failsShutdown, Outcome.isThrow, Outcome.isFault]

/-- The state becomes disconnecting by a shutdown whose continuation is still to come. -/
theorem next_disconnecting (h : next t m p i = some (m', p')) (hc : m'.connState = .disconnecting) :
    m.connState = .disconnecting ∨ p'.finishes = true := by
  rcases (next_writes h).state with e | hch
  · exact .inl (e.symm.trans hc)
  · rw [hc] at hch
    cases hch
    obtain ⟨o, rfl, h'⟩ := next_stop h
    cases h'
    exact .inr rfl

/-- A stop that has found something to end, or nothing, is on its way to its continuation. -/
theorem finishes_of_next (h : next t m p i = some (m', p')) (hp' : p'.finishes = true) :
    p.finishes = true ∨ m.connState = .disconnected ∨ ∃ g, p = .stop g .exchange := by
  obtain ⟨g, q', rfl⟩ := stop_of_finishes hp'
  rcases next_stop_pc h with rfl | ⟨q, o, rfl, h'⟩
  · cases hp'
  · cases q <;> simp only [runStop] at h' <;> repeat' (split at h')
    all_goals simp only [reduceCtorEq, Option.some.injEq, Prod.mk.injEq, Pc.stop.injEq, true_and] at h'
    all_goals obtain ⟨rfl, rfl⟩ := h'
    case check.isTrue hc => exact .inr (.inl hc)
    case recheck.isTrue hc => exact .inr (.inl hc)
    case exchange => exact .inr (.inr ⟨g, rfl⟩)
    all_goals first | exact .inl rfl | cases hp'

end Steps

/-- A step leads to a connection that is wedged exactly if it is the failure of the last shutdown that could
have ended the session. -/
theorem wedged_iff {s s' : State Mem Pc} {a : Act Input} (hw : ¬ Wedged s) (hs : prog.step s a = some s') :
    Wedged s' ↔ ¬ NotFailing s a := by
  obtain ⟨m', p', hn, rfl⟩ := Program.step_eq_some.mp hs
  constructor
  · rintro ⟨hc', hall⟩ hok
    have hp' : p'.finishes = false := by simpa using hall a.thread
    have hother : ∀ u, u ≠ a.thread → (s.pc u).finishes = false := fun u hu => by
      simpa [State.set_pc_of_ne _ _ _ _ hu] using hall u
    have hc : s.mem.connState = .disconnecting := by
      rcases next_disconnecting hn hc' with hc | hp
      · exact hc
      · rw [hp'] at hp
        cases hp
    -- it was the thread that steps whose continuation was pending
    have hp : (s.pc a.thread).finishes = true := by
      by_contra hp
      refine hw ⟨hc, fun u => ?_⟩
      by_cases hu : u = a.thread
      · rw [hu]
        simpa using hp
      · exact hother u hu
    cases hf : failsShutdown s.mem (s.pc a.thread) a.input with
    | true =>
      obtain ⟨u, hu, hfu⟩ := hok hc hf
      rw [hother u hu] at hfu
      cases hfu
    | false =>
      rcases next_finishes hn hp hf with h | h
      · rw [hp'] at h
        cases h
      · exact h hc'
  · intro hbad
    simp only [NotFailing, not_forall, not_exists, not_and, Bool.not_eq_true] at hbad
    obtain ⟨hc, hf, hother⟩ := hbad
    obtain ⟨rfl, hp'⟩ := next_failsShutdown hn hf
    refine ⟨hc, fun u => ?_⟩
    by_cases hu : u = a.thread
    · rw [hu, State.set_pc_self]
      exact hp'
    · rw [State.set_pc_of_ne _ _ _ _ hu]
      exact hother u hu

/-- **A stop is carried through.**  In every run in which the shutdown that could end the session does not
fail, a disconnecting connection has a continuation pending that will end it. -/
theorem stop_not_wedged {s : State Mem Pc} (h : prog.Reach NotFailing s) : ¬ Wedged s := by
  induction h with
  | init => exact fun hw => by cases hw.1
  | step _ ha hs ih => exact fun hw => (wedged_iff ih hs).mp hw ha

/-- The connection can not be started again: without a late signal it stays wedged. -/
theorem wedged_step {s s' : State Mem Pc} {a : Act Input} (h : prog.Reach OnTime s) (hw : Wedged s)
    (hs : prog.step s a = some s') : Wedged s' := by
  obtain ⟨hc, hall⟩ := hw
  have hl := (life_holds h).loc a.thread
  have hb := (ledger_holds h).loc a.thread
  obtain ⟨m', p', hn, rfl⟩ := Program.step_eq_some.mp hs
  rcases next_still hn hl hb hc with ⟨hc', -⟩ | ⟨g, own, hp, -⟩
  · refine ⟨hc'.trans hc, fun u => ?_⟩
    by_cases hu : u = a.thread
    · subst hu
      rw [State.set_pc_self]
      by_contra hp'
      rcases finishes_of_next hn (by simpa using hp') with hp | hd | ⟨g, hp⟩
      · rw [hall] at hp
        cases hp
      · rw [hc] at hd
        cases hd
      · have hcl := (hl.closing (by rw [hp]; rfl)).2.2.2
        rw [hc] at hcl
        simp at hcl
    · rw [State.set_pc_of_ne _ _ _ _ hu]
      exact hall u
  · have hf := hall a.thread
    rw [hp] at hf
    cases hf

def notFailing : Test NotFailing where
  test s a := !failsShutdown s.mem (s.pc a.thread) a.input
  sound h _ hf := by simp [hf] at h

/-- A connection that is being stopped; the abort request has failed, which nobody looks at. -/
theorem stop_not_wedged_aborted : ∃ s, ¬ Wedged s ∧ s.mem.connState = .disconnecting ∧
    s.pc 2 = .stop .user .disconnect := by
  obtain ⟨s, hr, hf⟩ := prog.exists_of_run notFailing
    (started 0 1 1 ++ [call 2 .stop] ++ tasks 2 7 ++ [task 2 .fault])
    (fun s => (s.mem.connState, s.pc 2)) (.disconnecting, .stop .user .disconnect) rfl
  simp only [Prod.mk.injEq] at hf
  exact ⟨s, stop_not_wedged hr, hf⟩

/-- `abort()` throws before it has issued its request: the connection stays in disconnecting. -/
theorem stop_wedged : ¬ ∀ s, prog.Reachable s → ¬ Wedged s := by
  intro hall
  obtain ⟨s, hr, hf, hidle⟩ := prog.exists_of_run_lt Test.all
    (started 0 1 1 ++ [call 2 .stop] ++ tasks 2 7 ++ [task 2 .throws]) 3 (by decide)
    (fun s => (s.mem.connState, s.pc 0, s.pc 1, s.pc 2))
    (.disconnecting, .start 1 1 .started, .finished, .stop .user .thrown) rfl
  simp only [Prod.mk.injEq] at hf
  obtain ⟨hc, h0, h1, h2⟩ := hf
  refine hall s hr ⟨hc, fun t => ?_⟩
  rcases Nat.lt_or_ge t 3 with ht | ht
  · interval_cases t
    · rw [h0]; rfl
    · rw [h1]; rfl
    · rw [h2]; rfl
  · rw [hidle t ht]; rfl

/-! ## One notification for each session -/

/-- What is seen of the stops: thread `t` moves the state to disconnecting, it moves it from disconnecting to
disconnected, it calls the disconnected callback. -/
inductive Notice where
  | began (t : ℕ)
  | ended (t : ℕ)
  | notified (t : ℕ)
  deriving DecidableEq

def Notice.isEnded : Notice → Bool
  | .ended _ => true
  | _ => false

def Notice.isNotified : Notice → Bool
  | .notified _ => true
  | _ => false

def notices (t : ℕ) (m : Mem) (p : Pc) (_ : Input) (m' : Mem) (_ : Pc) : List Notice :=
  (if m.connState = .disconnecting ∧ m'.connState = .disconnected then [.ended t] else []) ++
  match p with
  | .stop _ .exchange => [.began t]
  | .stop _ .callback => [.notified t]
  | _ => []

/-- A `stop()` that has been called and has neither thrown nor got its task completed. -/
def Pc.outstanding : Pc → Bool
  | .stop _ .stopped | .stop _ .cancelledTask | .stop _ .thrown => false
  | .stop _ _ => true
  | _ => false

/-- What the notifications have to do with the sessions that have ended. -/
structure OnePerSession (s : State Mem Pc) (l : List Notice) : Prop where
  bounded : l.countP Notice.isNotified ≤ l.countP Notice.isEnded
  equal : (∀ t, (s.pc t).outstanding = false) → l.countP Notice.isNotified = l.countP Notice.isEnded
  /-- a stop that calls the callback has itself begun to disconnect and ended the session -/
  own : ∀ t, .notified t ∈ l → .began t ∈ l ∧ .ended t ∈ l

/-- The continuation of a `stop()` runs only when its own shutdown has moved the state to disconnecting, and
finds that still so; and no failing start takes the state out of disconnecting. -/
structure EndsOwn (s : State Mem Pc) (a : Act Input) : Prop where
  stop : ∀ g own, s.pc a.thread = .stop g (.contCas own) → own = true ∧ s.mem.connState = .disconnecting
  start : ∀ n c, s.pc a.thread = .start n c .failState → s.mem.connState ≠ .disconnecting

/-- Between the end of the session and the call of the callback. -/
def Pc.notifies : Pc → Bool
  | .stop _ .contNull | .stop _ .contUnlock | .stop _ .callback => true
  | _ => false

/-- The state goes from disconnecting to disconnected by the continuation of a `stop()`, or by a failing
start. -/
theorem next_ended {t : ℕ} {m m' : Mem} {p p' : Pc} {i : Input} (h : next t m p i = some (m', p'))
    (hc : m.connState = .disconnecting) (hc' : m'.connState = .disconnected) :
    (∃ g own, p = .stop g (.contCas own)) ∨ ∃ n c, p = .start n c .failState := by
  rcases (next_writes h).state with e | hch
  · rw [hc, hc'] at e
    cases e
  · rw [hc'] at hch
    cases hch with
    | notStarted => exact .inr ⟨_, _, rfl⟩
    | stopped => exact .inl ⟨_, _, rfl⟩

theorem not_ended_self (m : Mem) : ¬ (m.connState = .disconnecting ∧ m.connState = .disconnected) := by
  rintro ⟨h, h'⟩
  rw [h] at h'
  cases h'

/-- The steps of a `stop()` that are seen, and the others. -/
theorem runStop_notices {t : ℕ} {m m' : Mem} {g : Origin} {q : StopPc} {o : Outcome} {p' : Pc} {i : Input}
    (hown : ∀ own, q = .contCas own → own = true ∧ m.connState = .disconnecting)
    (h : runStop t m g q o = some (m', p')) :
    (q = .exchange ∧ p' = .stop g .unlock ∧ notices t m (.stop g q) i m' p' = [.began t]) ∨
    (q = .contCas true ∧ p' = .stop g .contNull ∧ notices t m (.stop g q) i m' p' = [.ended t]) ∨
    (q = .callback ∧ p' = .stop g .stopped ∧ notices t m (.stop g q) i m' p' = [.notified t]) ∨
    (p'.notifies = (Pc.stop g q).notifies ∧ notices t m (.stop g q) i m' p' = []) := by
  cases q <;> simp only [runStop] at h <;> repeat' (split at h)
  all_goals simp only [reduceCtorEq, Option.some.injEq, Prod.mk.injEq] at h
  all_goals obtain ⟨rfl, rfl⟩ := h
  case exchange => exact .inl ⟨rfl, rfl, by simp [notices]⟩
  case contCas.isTrue own hc =>
    obtain rfl := (hown own rfl).1
    exact .inr (.inl ⟨rfl, rfl, by simp [notices, hc]⟩)
  case contCas.isFalse own hc => exact absurd (hown own rfl).2 hc
  case callback =>
    refine .inr (.inr (.inl ⟨rfl, rfl, ?_⟩))
    rw [notices, if_neg (not_ended_self m)]
    rfl
  -- the others leave the state as it is
  all_goals
    refine .inr (.inr (.inr ⟨rfl, ?_⟩))
    exact List.append_eq_nil_iff.mpr ⟨if_neg (not_ended_self m), rfl⟩

theorem next_notices {s : State Mem Pc} {a : Act Input} {m' : Mem} {p' : Pc} (ha : EndsOwn s a)
    (h : next a.thread s.mem (s.pc a.thread) a.input = some (m', p')) :
    let l := notices a.thread s.mem (s.pc a.thread) a.input m' p'
    (∃ g, s.pc a.thread = .stop g .exchange ∧ p' = .stop g .unlock ∧ l = [.began a.thread]) ∨
    (∃ g, s.pc a.thread = .stop g (.contCas true) ∧ p' = .stop g .contNull ∧ l = [.ended a.thread]) ∨
    (∃ g, s.pc a.thread = .stop g .callback ∧ p' = .stop g .stopped ∧ l = [.notified a.thread]) ∨
    (p'.notifies = (s.pc a.thread).notifies ∧ l = []) := by
  intro l
  by_cases hstop : ∃ g q, s.pc a.thread = .stop g q
  · obtain ⟨g, q, hp⟩ := hstop
    rw [hp] at h
    obtain ⟨o, -, h'⟩ := next_stop h
    have hl : l = notices a.thread s.mem (.stop g q) a.input m' p' := by rw [← hp]
    rcases runStop_notices (i := a.input) (fun own hq => ha.stop g own (by rw [hp, hq])) h' with
      ⟨rfl, e, e'⟩ | ⟨rfl, e, e'⟩ | ⟨rfl, e, e'⟩ | ⟨e, e'⟩
    · exact .inl ⟨g, hp, e, hl.trans e'⟩
    · exact .inr (.inl ⟨g, hp, e, hl.trans e'⟩)
    · exact .inr (.inr (.inl ⟨g, hp, e, hl.trans e'⟩))
    · exact .inr (.inr (.inr ⟨by rw [e, hp], hl.trans e'⟩))
  · refine .inr (.inr (.inr ⟨?_, ?_⟩))
    · have hp : (s.pc a.thread).notifies = false := by
        cases hp : s.pc a.thread with
        | stop g q => exact absurd ⟨g, q, hp⟩ hstop
        | _ => rfl
      rw [hp]
      cases p' with
      | stop g q' =>
        rcases next_stop_pc h with rfl | ⟨q, o, hq, -⟩
        · rfl
        · exact absurd ⟨g, q, hq⟩ hstop
      | _ => rfl
    · have hq : (match s.pc a.thread with
          | .stop _ .exchange => [Notice.began a.thread]
          | .stop _ .callback => [.notified a.thread]
          | _ => []) = [] := by
        cases hp : s.pc a.thread with
        | stop g q => exact absurd ⟨g, q, hp⟩ hstop
        | _ => rfl
      refine List.append_eq_nil_iff.mpr ⟨if_neg ?_, hq⟩
      rintro ⟨hc, hc'⟩
      rcases next_ended h hc hc' with ⟨g, own, hp⟩ | ⟨n, c, hp⟩
      · exact hstop ⟨g, _, hp⟩
      · exact ha.start n c hp hc

/-- A stop that is to call the callback, or has called it, has begun and ended a session. -/
structure Notifier (t : ℕ) (p : Pc) (l : List Notice) : Prop where
  began : p.stops = true → .began t ∈ l
  ended : p.notifies = true → .began t ∈ l ∧ .ended t ∈ l
  notified : .notified t ∈ l → .began t ∈ l ∧ .ended t ∈ l

theorem notifier_holds {s : State Mem Pc} {l : List Notice} (h : prog.Trace EndsOwn notices s l) (t : ℕ) :
    Notifier t (s.pc t) l := by
  refine h.each (L := fun t _ p l => Notifier t p l) (fun t => ?_)
    (fun s a l m' p' _ ha ih hn => ⟨?_, fun u hu => ?_⟩) t
  · constructor <;> intro hp <;> cases hp
  · have hi := ih a.thread
    rcases next_notices ha hn with ⟨g, hp, rfl, e⟩ | ⟨g, hp, rfl, e⟩ | ⟨g, hp, rfl, e⟩ | ⟨hp', e⟩
    · rw [e]
      refine ⟨by simp, fun hp' => (by cases hp'), fun hm => ?_⟩
      obtain ⟨hb, hen⟩ := hi.notified (by simpa using hm)
      exact ⟨List.mem_append_left _ hb, List.mem_append_left _ hen⟩
    · have hb : .began a.thread ∈ l := hi.began (by rw [hp]; rfl)
      rw [e]
      exact ⟨fun hp' => (by cases hp'), by simp [hb], by simp [hb]⟩
    · obtain ⟨hb, hen⟩ := hi.ended (by rw [hp]; rfl)
      rw [e]
      exact ⟨fun hp' => (by cases hp'), fun hp' => (by cases hp'), by simp [hb, hen]⟩
    · rw [e, List.append_nil]
      refine ⟨fun hst => ?_, by rw [hp']; exact hi.ended, hi.notified⟩
      rcases next_stops hn hst with ⟨hst', -⟩ | ⟨⟨g, hp⟩, -⟩
      · exact hi.began hst'
      · simp [notices, hp] at e
  · -- the events of another thread carry its number
    have hi := ih u
    have hmem : ∀ x, x ∈ l → x ∈ l ++ notices a.thread s.mem (s.pc a.thread) a.input m' p' :=
      fun x hx => List.mem_append_left _ hx
    refine ⟨fun hp => hmem _ (hi.began hp), fun hp => ?_, fun hm => ?_⟩
    · exact ⟨hmem _ (hi.ended hp).1, hmem _ (hi.ended hp).2⟩
    · have hm' : .notified u ∈ l := by
        rcases List.mem_append.mp hm with hm | hm
        · exact hm
        · rcases next_notices ha hn with ⟨g, -, -, e⟩ | ⟨g, -, -, e⟩ | ⟨g, -, -, e⟩ | ⟨-, e⟩
          all_goals rw [e] at hm
          all_goals simp at hm
          exact absurd hm hu
      exact ⟨hmem _ (hi.notified hm').1, hmem _ (hi.notified hm').2⟩

/-- **One notification for each session.**  It holds in every run in which the continuation of a `stop()`
runs only to end the session that its own shutdown has begun to end. -/
theorem one_notification {s : State Mem Pc} {l : List Notice} (h : prog.Trace EndsOwn notices s l) :
    OnePerSession s l := by
  obtain ⟨S, hS, hcount⟩ := h.balance Notice.isEnded Notice.isNotified Pc.notifies rfl
    fun s a l m' p' _ ha hn => by
      rcases next_notices ha hn with ⟨g, hp, rfl, e⟩ | ⟨g, hp, rfl, e⟩ | ⟨g, hp, rfl, e⟩ | ⟨hp, e⟩
      · rw [e, hp]; rfl
      · rw [e, hp]; rfl
      · rw [e, hp]; rfl
      · rw [e, hp]; rfl
  refine ⟨by omega, fun hout => ?_, fun t => (notifier_holds h t).notified⟩
  have hempty : S = ∅ := by
    refine Finset.eq_empty_of_forall_notMem fun t ht => ?_
    have hn := (hS t).mp ht
    have ho := hout t
    cases hp : s.pc t with
    | stop g q =>
      rw [hp] at hn ho
      cases q <;> simp [Pc.notifies, Pc.outstanding] at hn ho
    | _ => rw [hp] at hn; cases hn
  rw [hempty, Finset.card_empty] at hcount
  omega

def endsOwn : Test EndsOwn where
  test s a :=
    match s.pc a.thread with
    | .stop _ (.contCas own) => own && s.mem.connState = .disconnecting
    | .start _ _ .failState => s.mem.connState ≠ .disconnecting
    | _ => true
  sound h := ⟨fun g own hp => by simpa [hp] using h, fun n c hp => by simpa [hp] using h⟩

/-- A session that is stopped, with its notification. -/
theorem one_notification_stopped : ∃ s l, OnePerSession s l ∧ s.pc 2 = .stop .user .stopped ∧
    l = [.began 2, .ended 2, .notified 2] := by
  obtain ⟨s, l, hr, hf⟩ := prog.exists_of_history notices endsOwn
    (started 0 1 1 ++ [call 2 .stop] ++ tasks 2 15) (fun s l => (s.pc 2, l))
    (.stop .user .stopped, [.began 2, .ended 2, .notified 2]) rfl
  simp only [Prod.mk.injEq] at hf
  exact ⟨s, l, one_notification hr, hf⟩

/-- `stop()` on a connection that was never started: the callback is called and no session has ended. -/
theorem stop_idle_notifies : ¬ ∀ s l, prog.Trace (fun _ _ => True) notices s l → OnePerSession s l := by
  intro hall
  obtain ⟨s, l, hr, hf⟩ := prog.exists_of_history notices Test.all
    ([call 2 .stop] ++ tasks 2 7) (fun _ l => l) [.notified 2] rfl
  have hb := (hall s l hr).bounded
  rw [hf] at hb
  simp [Notice.isNotified, Notice.isEnded] at hb

end SignalRClient.Connection
