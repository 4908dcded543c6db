import SignalRClient.Threads.Linearizable
import SignalRClient.Threads.Mutex
import SignalRClient.Threads.Progress
import SignalRClient.Threads.Project

/-!
# Monitors

A value behind a lock, with a condition variable.  An operation waits until its guard holds, acts on the value,
and may notify all that wait; an operation that is timed may give up.

* `Monitor.prog` — the code: take the lock, look at the guard, sleep and look again, act, notify, leave the lock.  A
  thread that sleeps may wake up for no reason;
* `Monitor.atomic` — the operations as atomic steps;
* `trace_atomic` — what the callers see of a run of the code, they can see of a run of the atomic operations, which goes
  through the same states (`reach_atomic`);
* `linearizes` — so the monitor implements every sequential object that allows what its operations do;
* `notified_of_guard` — no wakeup is lost, when every operation that makes a guard true notifies;
* `settles` — then nobody sleeps whose guard holds, once the operations under way have gone on.
-/

namespace SignalRClient.Threads

/-- The operations on a value. -/
structure Monitor (V Op : Type*) where
  guard : Op → V → Bool
  act : Op → V → V
  notifies : Op → Bool
  timed : Op → Bool

namespace Monitor

variable {V Op : Type*}

/-! ## The code -/

structure Mem (V : Type*) where
  value : V
  lock : Bool := false
  notified : ℕ := 0                                  -- calls of notify_all() so far

/-- `last`: the time is up, so that a guard that does not hold ends the operation. -/
inductive Pc (Op : Type*) where
  | idle
  | enter (a : Op)
  | test (a : Op) (last : Bool)
  /-- asleep since `e` calls of `notify_all()` had been made -/
  | asleep (a : Op) (e : ℕ)
  | reenter (a : Op) (last : Bool)
  | act (a : Op)
  | notify (a : Op)
  | leave (a : Op) (r : Bool)
  | returned (a : Op) (r : Bool)

inductive Input (Op : Type*) where
  | call (a : Op) | go | spurious | timeout

variable (D : Monitor V Op)

/-- To sleep is to leave the lock in the same step. -/
def next (_ : ℕ) (m : Mem V) (p : Pc Op) (i : Input Op) : Option (Mem V × Pc Op) :=
  match p, i with
  | .idle, .call a => some (m, .enter a)
  | .enter a, .go => if m.lock then none else some ({ m with lock := true }, .test a false)
  | .test a last, .go =>
    if D.guard a m.value then some (m, .act a)
    else if last then some (m, .leave a false)
    else some ({ m with lock := false }, .asleep a m.notified)
  | .asleep a e, .go => if e < m.notified then some (m, .reenter a false) else none
  | .asleep a _, .spurious => some (m, .reenter a false)
  | .asleep a _, .timeout => if D.timed a then some (m, .reenter a true) else none
  | .reenter a last, .go => if m.lock then none else some ({ m with lock := true }, .test a last)
  | .act a, .go =>
    some ({ m with value := D.act a m.value }, if D.notifies a then .notify a else .leave a true)
  | .notify a, .go => some ({ m with notified := m.notified + 1 }, .leave a true)
  | .leave a r, .go => some ({ m with lock := false }, .returned a r)
  | .returned _ _, .go => some (m, .idle)
  | _, _ => none

def prog (v : V) : Program (Mem V) (Pc Op) (Input Op) := ⟨⟨v, false, 0⟩, .idle, D.next⟩

/-! ## The atomic operations -/

abbrev AtomicPc (Op : Type*) := Status Op Bool

inductive AtomicInput (Op : Type*) where
  | call (a : Op) | go | timeout

/-- An operation is one step, taken when its guard holds; a timed one may end without effect when it does not. -/
def atomicNext (_ : ℕ) (v : V) (p : AtomicPc Op) (i : AtomicInput Op) : Option (V × AtomicPc Op) :=
  match p, i with
  | .idle, .call a => some (v, .called a)
  | .called a, .go => if D.guard a v then some (D.act a v, .returned a true) else none
  | .called a, .timeout => if D.timed a && !D.guard a v then some (v, .returned a false) else none
  | .returned _ _, .go => some (v, .idle)
  | _, _ => none

def atomic (v : V) : Program V (AtomicPc Op) (AtomicInput Op) := ⟨v, .idle, D.atomicNext⟩

/-- The calls of a thread, and their returns to the caller. -/
def calls (t : ℕ) (_ : Mem V) (p : Pc Op) (i : Input Op) (_ : Mem V) (_ : Pc Op) : List (Moment Op Bool) :=
  match p, i with
  | .idle, .call a => [.call t a]
  | .returned a r, .go => [.ret t a r]
  | _, _ => []

/-- The same of the atomic operations, which take effect in between. -/
def moments (t : ℕ) (_ : V) (p : AtomicPc Op) (_ : AtomicInput Op) (_ : V) (p' : AtomicPc Op) :
    List (Moment Op Bool) :=
  match p, p' with
  | .idle, .called a => [.call t a]
  | .called a, .returned _ r => [.effect t a r]
  | .returned a r, .idle => [.ret t a r]
  | _, _ => []

/-- What is seen of a thread.  An operation takes effect as it acts. -/
def Pc.seen : Pc Op → AtomicPc Op
  | .idle => .idle
  | .enter a | .test a _ | .asleep a _ | .reenter a _ | .act a => .called a
  | .notify a => .returned a true
  | .leave a r | .returned a r => .returned a r

/-! ## One step -/

inductive Step (m : Mem V) : Pc Op → Input Op → Mem V → Pc Op → Prop
  | call (a : Op) : Step m .idle (.call a) m (.enter a)
  | enter (a : Op) : m.lock = false → Step m (.enter a) .go { m with lock := true } (.test a false)
  | pass (a : Op) (last : Bool) : D.guard a m.value = true → Step m (.test a last) .go m (.act a)
  | giveUp (a : Op) : D.guard a m.value = false → Step m (.test a true) .go m (.leave a false)
  | sleep (a : Op) : D.guard a m.value = false →
      Step m (.test a false) .go { m with lock := false } (.asleep a m.notified)
  | wake (a : Op) (e : ℕ) (i : Input Op) : (i = .go → e < m.notified) → Step m (.asleep a e) i m (.reenter a false)
  | expire (a : Op) (e : ℕ) : D.timed a = true → Step m (.asleep a e) .timeout m (.reenter a true)
  | reenter (a : Op) (last : Bool) : m.lock = false →
      Step m (.reenter a last) .go { m with lock := true } (.test a last)
  | act (a : Op) : D.notifies a = true → Step m (.act a) .go { m with value := D.act a m.value } (.notify a)
  | actQuiet (a : Op) : D.notifies a = false →
      Step m (.act a) .go { m with value := D.act a m.value } (.leave a true)
  | notify (a : Op) : Step m (.notify a) .go { m with notified := m.notified + 1 } (.leave a true)
  | leave (a : Op) (r : Bool) : Step m (.leave a r) .go { m with lock := false } (.returned a r)
  | done (a : Op) (r : Bool) : Step m (.returned a r) .go m .idle

variable {D} {ok : State (Mem V) (Pc Op) → Act (Input Op) → Prop} {v : V} {s : State (Mem V) (Pc Op)} {t : ℕ}
  {m m' : Mem V} {p p' : Pc Op} {i : Input Op}

theorem next_step (h : D.next t m p i = some (m', p')) : D.Step m p i m' p' := by
  unfold next at h
  split at h
  case h_1 => cases h; exact .call _
  case h_2 =>
    split at h <;> cases h
    exact .enter _ (by simp_all)
  case h_3 =>
    split at h
    · cases h; exact .pass _ _ (by assumption)
    · split at h
      · cases h; simp_all only [Bool.not_eq_true]; exact .giveUp _ (by assumption)
      · cases h; simp_all only [Bool.not_eq_true]; exact .sleep _ (by assumption)
  case h_4 => split at h <;> cases h; exact .wake _ _ _ fun _ => by assumption
  case h_5 => cases h; exact .wake _ _ _ fun e => (by cases e)
  case h_6 => split at h <;> cases h; exact .expire _ _ (by assumption)
  case h_7 =>
    split at h <;> cases h
    exact .reenter _ _ (by simp_all)
  case h_8 a =>
    cases hn : D.notifies a <;> simp only [hn] at h <;> cases h
    · exact .actQuiet _ hn
    · exact .act _ hn
  case h_9 => cases h; exact .notify _
  case h_10 => cases h; exact .leave _ _
  case h_11 => cases h; exact .done _ _
  case h_12 => cases h

/-! ## The lock -/

def Pc.holds : Pc Op → Bool
  | .test _ _ | .act _ | .notify _ | .leave _ _ => true
  | _ => false

theorem next_lock (h : D.next t m p i = some (m', p')) : LockStep m.lock m'.lock p.holds p'.holds := by
  cases next_step h with
  | enter a hl | reenter a _ hl => simpa [Pc.holds, hl] using LockStep.take
  | sleep | leave => exact .leave _
  | _ => exact .stay _ _

theorem mutex_holds (h : (D.prog v).Reach ok s) : Mutex (fun m : Mem V => m.lock) Pc.holds s :=
  h.mutex rfl fun t _ _ _ _ _ hn => next_lock (t := t) hn

theorem owned_holds (h : (D.prog v).Reach ok s) : Owned (fun m : Mem V => m.lock) Pc.holds s :=
  h.owned rfl fun t _ _ _ _ _ hn => next_lock (t := t) hn

/-! ## The operations are atomic -/

/-- An operation acts when its guard holds; only a timed one runs out of time, and only one that notifies does so. -/
structure Ready (D : Monitor V Op) (v : V) (p : Pc Op) : Prop where
  act : ∀ a, p = .act a → D.guard a v = true
  notify : ∀ a, p = .notify a → D.notifies a = true
  last : ∀ a, p = .test a true ∨ p = .reenter a true ∨ p = .leave a false → D.timed a = true

theorem next_ready (h : D.next t m p i = some (m', p')) (hr : Ready D m.value p) : Ready D m'.value p' := by
  cases next_step h with
  | pass a last hg => exact ⟨fun b e => (by cases e; exact hg), fun b e => (by cases e), fun b e => (by simp at e)⟩
  | expire a e ht =>
    exact ⟨fun b e => (by cases e), fun b e => (by cases e), fun b e => (by simp at e; rwa [← e])⟩
  | giveUp a hg =>
    refine ⟨fun b e => (by cases e), fun b e => (by cases e), fun b e => ?_⟩
    simp at e
    exact hr.last b (.inl (by rw [e]))
  | reenter a last hl =>
    exact ⟨fun b e => (by cases e), fun b e => (by cases e), fun b e => hr.last b (by simpa using e)⟩
  | act a ha => exact ⟨fun b e => (by cases e), fun b e => (by cases e; exact ha), fun b e => (by simp at e)⟩
  | _ => exact ⟨fun b e => (by cases e), fun b e => (by cases e), fun b e => (by simp at e)⟩

/-- The value changes as an operation acts. -/
theorem next_value (h : D.next t m p i = some (m', p')) :
    m'.value = m.value ∨ ∃ a, p = .act a ∧ m'.value = D.act a m.value := by
  cases next_step h with
  | act a | actQuiet a => exact .inr ⟨a, rfl, rfl⟩
  | _ => exact .inl rfl

theorem ready_holds (h : (D.prog v).Reach ok s) (t : ℕ) : Ready D s.mem.value (s.pc t) := by
  refine h.each (L := fun _ m p => Ready D m.value p)
    (fun _ => ⟨fun _ e => (by cases e), fun _ e => (by cases e), fun _ e => (by simp [prog] at e)⟩) ?_ t
  intro s a m p hr _ ih hn
  refine ⟨next_ready (t := a.thread) hn (ih a.thread), fun u hu => ⟨fun b hb => ?_, (ih u).notify, (ih u).last⟩⟩
  rcases next_value (t := a.thread) hn with e | ⟨c, hc, -⟩
  · rw [e]
    exact (ih u).act b hb
  · -- two threads that act both have the lock
    exact absurd ((mutex_holds hr).excl u a.thread (by rw [hb]; rfl) (by rw [hc]; rfl)) hu

/-- A step of the code is one of the operations, with the same call or return, or is not seen. -/
theorem next_seen (h : D.next t m p i = some (m', p')) (hr : Ready D m.value p) :
    (m'.value = m.value ∧ p'.seen = p.seen ∧ calls t m p i m' p' = []) ∨
      ∃ j, D.atomicNext t m.value p.seen j = some (m'.value, p'.seen) ∧
        (moments t m.value p.seen j m'.value p'.seen).filter Moment.visible = calls t m p i m' p' := by
  cases next_step h with
  | call a => exact .inr ⟨.call a, rfl, rfl⟩
  | giveUp a hg => exact .inr ⟨.timeout, by simp [atomicNext, Pc.seen, hg, hr.last a (.inl rfl)], rfl⟩
  | act a | actQuiet a => exact .inr ⟨.go, by simp [atomicNext, Pc.seen, hr.act a rfl], rfl⟩
  | done a r => exact .inr ⟨.go, rfl, rfl⟩
  | _ => exact .inl ⟨rfl, rfl, rfl⟩

/-- **The code refines the atomic operations**: in some run of these the same calls return the same. -/
theorem trace_atomic {l : List (Moment Op Bool)} (h : (D.prog v).Trace ok calls s l) :
    ∃ L, (D.atomic v).Trace (fun _ _ => True) moments (s.project Mem.value Pc.seen) L ∧
      L.filter Moment.visible = l := by
  refine h.invariant (J := fun s l => ∃ L,
    (D.atomic v).Trace (fun _ _ => True) moments (s.project Mem.value Pc.seen) L ∧ L.filter Moment.visible = l) ?_ ?_
  · exact ⟨[], .init, rfl⟩
  intro s a l m p hr _ ⟨L, hL, hl⟩ hn
  rw [State.project_set]
  rcases next_seen (t := a.thread) hn (ready_holds hr.reach a.thread) with ⟨hm, hp, hnone⟩ | ⟨j, hj, hseen⟩
  · refine ⟨L, ?_, by rw [hnone, List.append_nil, hl]⟩
    rw [hm, hp]
    exact (State.set_self (s.project Mem.value Pc.seen) a.thread).symm ▸ hL
  · refine ⟨_, hL.step (a := ⟨a.thread, j⟩) trivial hj, ?_⟩
    rw [List.filter_append, hl]
    exact congrArg (l ++ ·) hseen

theorem reach_atomic (h : (D.prog v).Reach ok s) : (D.atomic v).Reachable (s.project Mem.value Pc.seen) := by
  obtain ⟨l, hl⟩ : ∃ l, (D.prog v).Trace ok calls s l := h.exists_trace
  obtain ⟨L, hL, -⟩ := trace_atomic hl
  exact hL.reachable

/-- The object allows what the operations do. -/
structure Implements (D : Monitor V Op) (v : V) (O : Object V Op Bool) : Prop where
  init : v = O.init
  act : ∀ a x, D.guard a x = true → O.step x a true (D.act a x)
  giveUp : ∀ a x, D.timed a = true → D.guard a x = false → O.step x a false x

theorem Implements.advance {O : Object V Op Bool} (hO : D.Implements v O) {t : ℕ} {x y : V} {p p' : AtomicPc Op}
    {i : AtomicInput Op} (h : D.atomicNext t x p i = some (y, p')) : O.Advance t x p (moments t x p i y p') y p' := by
  unfold atomicNext at h
  split at h
  case h_1 => cases h; exact .call _ _
  case h_2 =>
    split at h <;> cases h
    exact .effect (hO.act _ _ (by assumption))
  case h_3 =>
    split at h <;> cases h
    rename_i hg
    obtain ⟨htimed, hguard⟩ := Bool.and_eq_true_iff.mp hg
    exact .effect (hO.giveUp _ _ htimed (by simpa using hguard))
  case h_4 => cases h; exact .ret _ _ _
  case h_5 => cases h

/-- **The atomic operations are those of the object.** -/
theorem linearizes {O : Object V Op Bool} (hO : D.Implements v O)
    {ok : State V (AtomicPc Op) → Act (AtomicInput Op) → Prop} {s : State V (AtomicPc Op)} {L : List (Moment Op Bool)}
    (h : (D.atomic v).Trace ok moments s L) : O.Linearizes (L.filter Moment.visible) L s.mem :=
  h.linearizes id id hO.init rfl fun _ _ _ _ _ _ hn => hO.advance hn

/-! ## No lost wakeup -/

/-- Every operation that makes a guard true notifies. -/
def Notifying (D : Monitor V Op) : Prop :=
  ∀ a b v, D.guard b v = false → D.guard b (D.act a v) = true → D.notifies a = true

/-- A thread that sleeps though its guard holds has been notified, or will be at once. -/
structure Notified (D : Monitor V Op) (s : State (Mem V) (Pc Op)) : Prop where
  le : ∀ t a e, s.pc t = .asleep a e → e ≤ s.mem.notified
  wakes : ∀ t a e, s.pc t = .asleep a e → D.guard a s.mem.value = true →
    e < s.mem.notified ∨ ∃ u b, s.pc u = .notify b

theorem next_notified (h : D.next t m p i = some (m', p')) :
    m.notified ≤ m'.notified ∧ ∀ a e, p' = .asleep a e → e = m'.notified ∧ D.guard a m'.value = false := by
  cases next_step h with
  | sleep a hg => exact ⟨le_rfl, fun b e he => (by cases he; exact ⟨rfl, hg⟩)⟩
  | notify a => exact ⟨Nat.le_succ _, fun b e he => (by cases he)⟩
  | _ => exact ⟨le_rfl, fun b e he => (by cases he)⟩

theorem next_notify {a : Op} (h : D.next t m (.notify a) i = some (m', p')) : m'.notified = m.notified + 1 := by
  cases next_step h with
  | notify => rfl

theorem next_act_value {a : Op} (h : D.next t m (.act a) i = some (m', p')) : m'.value = D.act a m.value := by
  cases next_step h <;> rfl

theorem next_act {a : Op} (h : D.next t m (.act a) i = some (m', p')) (ha : D.notifies a = true) : p' = .notify a := by
  cases next_step h with
  | act => rfl
  | actQuiet _ hq =>
    rw [ha] at hq
    cases hq

theorem notified_holds (hD : Notifying D) (h : (D.prog v).Reach ok s) : Notified D s := by
  refine h.invariant (J := Notified D) ⟨fun _ _ _ e => (by cases e), fun _ _ _ e => (by cases e)⟩ ?_
  intro s a m p hr _ ih hn
  obtain ⟨hmono, hnew⟩ := next_notified (t := a.thread) hn
  refine ⟨fun t b e ht => ?_, fun t b e ht hg => ?_⟩
  · by_cases hta : t = a.thread
    · subst hta
      rw [State.set_pc_self] at ht
      exact (hnew b e ht).1.le
    · rw [State.set_pc_of_ne _ _ _ _ hta] at ht
      exact (ih.le t b e ht).trans hmono
  · by_cases hta : t = a.thread
    · subst hta
      rw [State.set_pc_self] at ht
      rw [State.set_mem, (hnew b e ht).2] at hg
      cases hg
    · rw [State.set_pc_of_ne _ _ _ _ hta] at ht
      rw [State.set_mem] at hg ⊢
      cases hold : D.guard b s.mem.value with
      | true =>
        rcases ih.wakes t b e ht hold with hlt | ⟨u, c, hu⟩
        · exact .inl (hlt.trans_le hmono)
        · by_cases hua : u = a.thread
          · subst hua
            rw [hu] at hn
            exact .inl ((Nat.lt_succ_of_le (ih.le t b e ht)).trans_eq (next_notify (t := a.thread) hn).symm)
          · exact .inr ⟨u, c, by rwa [State.set_pc_of_ne _ _ _ _ hua]⟩
      | false =>
        -- an operation has made the guard true
        rcases next_value (t := a.thread) hn with hv | ⟨c, hc, hv⟩
        · rw [hv, hold] at hg
          cases hg
        · rw [hv] at hg
          rw [hc] at hn
          exact .inr ⟨a.thread, c, by rw [State.set_pc_self, next_act (t := a.thread) hn (hD c b _ hold hg)]⟩

/-! ## Rest -/

/-- The number of steps to the end, for a thread that is not asleep. -/
def Pc.todo : Pc Op → ℕ
  | .enter _ | .reenter _ _ => 6
  | .test _ _ => 5
  | .act _ => 4
  | .notify _ => 3
  | .leave _ _ => 2
  | .asleep _ _ => 1
  | .idle | .returned _ _ => 0

/-- The operation is over, or its guard does not hold. -/
def Rests (D : Monitor V Op) (v : V) : Pc Op → Prop
  | .idle | .returned _ _ => True
  | .asleep a _ => D.guard a v = false
  | _ => False

/-- A step of an operation that is under way. -/
def Goes (_ : State (Mem V) (Pc Op)) (a : Act (Input Op)) : Prop := a.input = .go

theorem todo_of_holds (h : p.holds = true) : p.todo ≠ 0 ∧ ∀ v, ¬ Rests D v p := by
  cases p with
  | test | act | notify | leave => exact ⟨fun e => (by cases e), fun _ => id⟩
  | _ => cases h

/-- Who has the lock goes on. -/
theorem next_holder (t : ℕ) (h : p.holds = true) : ∃ m' p', D.next t m p .go = some (m', p') ∧ p'.todo < p.todo := by
  cases p with
  | test a last =>
    cases hg : D.guard a m.value with
    | true => exact ⟨m, .act a, by simp [next, hg], by simp [Pc.todo]⟩
    | false =>
      cases last with
      | true => exact ⟨m, .leave a false, by simp [next, hg], by simp [Pc.todo]⟩
      | false => exact ⟨{ m with lock := false }, .asleep a m.notified, by simp [next, hg], by simp [Pc.todo]⟩
  | act a =>
    refine ⟨_, _, rfl, ?_⟩
    split <;> simp [Pc.todo]
  | notify | leave => exact ⟨_, _, rfl, by simp [Pc.todo]⟩
  | _ => cases h

/-- While the lock is free, a thread whose guard holds wakes up and returns. -/
theorem runs_returned {a : Op} {e : ℕ} (hl : s.mem.lock = false) (ht : s.pc t = .asleep a e)
    (hlt : e < s.mem.notified) (hg : D.guard a s.mem.value = true) :
    ∃ m, (D.prog v).Runs Goes s (s.set t m (.returned a true)) := by
  let m₁ : Mem V := { s.mem with lock := true }
  let m₂ : Mem V := { m₁ with value := D.act a s.mem.value }
  have hgo : ∀ s : State (Mem V) (Pc Op), Goes s ⟨t, .go⟩ := fun _ => rfl
  have hwake : (D.prog v).Runs Goes s (s.set t s.mem (.reenter a false)) :=
    .single (hgo s) (by show D.next t s.mem (s.pc t) .go = _; simp [next, ht, hlt])
  have henter : (D.prog v).Runs Goes s (s.set t m₁ (.test a false)) :=
    hwake.next (hgo _) (by show D.next t s.mem (.reenter a false) .go = _; simp [next, hl, m₁])
  have hpass : (D.prog v).Runs Goes s (s.set t m₁ (.act a)) :=
    henter.next (hgo _) (by show D.next t m₁ (.test a false) .go = _; simp [next, hg, m₁])
  have hleave : ∃ m, (D.prog v).Runs Goes s (s.set t m (.leave a true)) := by
    cases hn : D.notifies a with
    | true =>
      have hact : (D.prog v).Runs Goes s (s.set t m₂ (.notify a)) :=
        hpass.next (hgo _) (by show D.next t m₁ (.act a) .go = _; simp [next, hn, m₁, m₂])
      exact ⟨_, hact.next (hgo _) rfl⟩
    | false =>
      exact ⟨m₂, hpass.next (hgo _) (by show D.next t m₁ (.act a) .go = _; simp [next, hn, m₁, m₂])⟩
  obtain ⟨m, hm⟩ := hleave
  exact ⟨_, hm.next (hgo _) rfl⟩

/-- Unless all threads rest, one gets nearer to its end. -/
theorem exists_lower (hD : Notifying D) (h : (D.prog v).Reachable s) (hbusy : ¬ ∀ t, Rests D s.mem.value (s.pc t)) :
    ∃ s', (D.prog v).Runs Goes s s' ∧ Lower Pc.todo s s' := by
  cases hl : s.mem.lock with
  | true =>
    obtain ⟨t, ht⟩ := owned_holds h hl
    obtain ⟨m, p, hn, hlt⟩ := next_holder (D := D) (m := s.mem) t ht
    exact ⟨_, .single (t := t) rfl hn, .set hlt⟩
  | false =>
    have hfree : ∀ t, (s.pc t).holds = false := by
      intro t
      by_contra hh
      have hheld : s.mem.lock = true := (mutex_holds h).held t (by simpa using hh)
      rw [hl] at hheld
      cases hheld
    obtain ⟨t, ht⟩ := not_forall.mp hbusy
    cases hp : s.pc t with
    | idle | returned => rw [hp] at ht; exact absurd trivial ht
    | enter a =>
      exact ⟨_, .single (t := t) rfl (by show D.next t s.mem (s.pc t) .go = _; simp only [next, hp, hl]; rfl),
        .set (by rw [hp]; simp [Pc.todo])⟩
    | reenter a last =>
      exact ⟨_, .single (t := t) rfl (by show D.next t s.mem (s.pc t) .go = _; simp only [next, hp, hl]; rfl),
        .set (by rw [hp]; simp [Pc.todo])⟩
    | asleep a e =>
      have hg : D.guard a s.mem.value = true := by
        rw [hp] at ht
        simpa [Rests] using ht
      have hlt := ((notified_holds hD h).wakes t a e hp hg).resolve_right fun ⟨u, b, hu⟩ => by
        have hnot := hfree u
        rw [hu] at hnot
        cases hnot
      obtain ⟨m, hm⟩ := runs_returned (v := v) hl hp hlt hg
      exact ⟨_, hm, .set (by rw [hp]; simp [Pc.todo])⟩
    | _ =>
      have hnot := hfree t
      rw [hp] at hnot
      cases hnot

/-- **No thread sleeps for good while its guard holds.**  From every state the operations under way can go on until
the lock is free and each of them is over or waits for a guard that does not hold. -/
theorem settles (hD : Notifying D) (h : (D.prog v).Reachable s) :
    ∃ s', (D.prog v).Runs Goes s s' ∧ s'.mem.lock = false ∧ ∀ t, Rests D s'.mem.value (s'.pc t) := by
  obtain ⟨s', hr, hs'⟩ : ∃ s', (D.prog v).Runs Goes s s' ∧
      ((∀ t, Rests D s'.mem.value (s'.pc t)) ∨ ∀ t, (s'.pc t).todo = 0) := by
    refine h.exists_rest Pc.todo (fun s => ∀ t, Rests D s.mem.value (s.pc t)) rfl (fun _ _ _ => trivial) ?_
    intro s hs hbusy _
    obtain ⟨s', hr, hlow⟩ := exists_lower hD hs hbusy
    exact ⟨s', hr, .inr hlow⟩
  have hrests : ∀ t, Rests D s'.mem.value (s'.pc t) := by
    refine hs'.elim id fun hall t => ?_
    have := hall t
    cases hp : s'.pc t with
    | idle | returned => trivial
    | _ => rw [hp] at this; cases this
  refine ⟨s', hr, ?_, hrests⟩
  by_contra hl
  obtain ⟨t, ht⟩ := owned_holds (h.runs hr fun _ _ _ => trivial) (by simpa using hl)
  exact (todo_of_holds ht).2 _ (hrests t)

end Monitor

end SignalRClient.Threads
