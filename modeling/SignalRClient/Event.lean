import SignalRClient.Threads.Monitor

/-!
# `event`

`set()`, `reset()` and `wait()` as operations of a monitor: a flag behind `m_lock`, with `m_condition`.  `flag` says
what they are for.  `event_atomic`: the event is linearizable to it, the assertion of `wait()` holds, and nobody waits
for good while the event is signaled.
-/

namespace SignalRClient.Event

open Threads

/-- `event::timeout_infinite` -/
def timeoutInfinite : BitVec 32 := 0xFFFFFFFF

/-- `wait()` is `wait(timeout_infinite)`. -/
inductive Op where
  | set | reset
  | wait (timeout : BitVec 32)
  deriving DecidableEq

/-- The value is `m_signaled`.  `wait()` waits with the predicate that it is set. -/
def event : Monitor Bool Op where
  guard
    | .wait _, signaled => signaled
    | _, _ => true
  act
    | .set, _ => true
    | .reset, _ => false
    | .wait _, signaled => signaled
  notifies
    | .set => true
    | _ => false
  timed
    | .wait timeout => timeout ≠ timeoutInfinite
    | _ => false

/-- What `wait()` returns for the status of `wait_for`. -/
def status (r : Bool) : BitVec 32 := if r then 0 else timeoutInfinite

/-- From an event that is signaled or not, what an operation may return, and whether the event is signaled then.  `true`
is the 0 of `wait()`. -/
inductive Use : Bool → Op → Bool → Bool → Prop
  | set (signaled : Bool) : Use signaled .set true true
  | reset (signaled : Bool) : Use signaled .reset true false
  | signaled (timeout : BitVec 32) : Use true (.wait timeout) true true
  | timedOut {timeout : BitVec 32} : timeout ≠ timeoutInfinite → Use false (.wait timeout) false false

/-- An event as its callers see it: not signaled at first. -/
def flag : Object Bool Op Bool := ⟨false, Use⟩

theorem implements_flag : event.Implements false flag where
  init := rfl
  act a signaled hg := by
    cases a with
    | set => exact .set signaled
    | reset => exact .reset signaled
    | wait timeout =>
      have hsignaled : signaled = true := hg
      subst hsignaled
      exact .signaled timeout
  giveUp a signaled ht hg := by
    cases a with
    | wait timeout =>
      have hsignaled : signaled = false := hg
      subst hsignaled
      exact .timedOut (by simpa [event] using ht)
    | _ => cases ht

theorem notifying_event : Monitor.Notifying event := by
  intro a b v h₀ h₁
  cases a with
  | set => rfl
  | reset =>
    cases b with
    | wait => cases h₁
    | _ => cases h₀
  | wait timeout =>
    have hsame : event.guard b v = true := h₁
    rw [h₀] at hsame
    cases hsame

section

variable {ok : State (Monitor.Mem Bool) (Monitor.Pc Op) → Act (Monitor.Input Op) → Prop}
  {s : State (Monitor.Mem Bool) (Monitor.Pc Op)}

/-- The status of a `wait()` that is about to leave the lock is the flag. -/
theorem status_holds (h : (event.prog false).Reach ok s) (t : ℕ) :
    ∀ timeout r, s.pc t = .leave (.wait timeout) r → s.mem.value = r := by
  refine h.each (L := fun _ m p => ∀ timeout r, p = .leave (.wait timeout) r → m.value = r)
    (fun _ _ _ e => (by cases e)) ?_ t
  intro s a m p hr _ ih hn
  refine ⟨fun timeout r hp => ?_, fun u hu timeout r hp => ?_⟩
  · have hready := Monitor.ready_holds hr a.thread
    subst hp
    generalize s.pc a.thread = q, a.input = i at hn hready
    cases Monitor.next_step (t := a.thread) hn with
    | giveUp _ hg => exact hg
    | actQuiet _ _ => exact hready.act _ rfl
    | notify _ => cases hready.notify _ rfl
  · rcases Monitor.next_value (t := a.thread) hn with e | ⟨b, hb, -⟩
    · rw [e]
      exact ih u timeout r hp
    · exact absurd ((Monitor.mutex_holds hr).excl u a.thread (by rw [hp]; rfl) (by rw [hb]; rfl)) hu

/-- A `wait()` without a timeout returns 0. -/
theorem returns_zero (h : (event.prog false).Reach ok s) {t : ℕ} {timeout : BitVec 32} {r : Bool}
    (ht : s.pc t = .leave (.wait timeout) r) (hinf : timeout = timeoutInfinite) : status r = 0 := by
  cases r with
  | true => rfl
  | false =>
    have htimed := (Monitor.ready_holds h t).last _ (.inr (.inr ht))
    simp [event, hinf] at htimed

/-- **The event is linearizable.**  What the callers see of a run they see of a run of the atomic operations, in which
`set()`, `reset()` and `wait()` take effect once between the call and the return, by the rules of `flag`; and the
effects leave `m_signaled`.  The assertion of `wait()` holds, and without a timeout it returns 0; and from every state
the calls under way can go on until each has returned or waits for an event that is not signaled. -/
theorem event_atomic {l : List (Moment Op Bool)} (h : (event.prog false).Trace ok Monitor.calls s l) :
    (∃ L, (event.atomic false).Trace (fun _ _ => True) Monitor.moments
        (s.project Monitor.Mem.value Monitor.Pc.seen) L ∧ flag.Linearizes l L s.mem.value) ∧
      (∀ t timeout r, s.pc t = .leave (.wait timeout) r →
        r = s.mem.value ∧ (timeout = timeoutInfinite → status r = 0)) ∧
      ∃ s', (event.prog false).Runs Monitor.Goes s s' ∧ s'.mem.lock = false ∧
        ∀ t, Monitor.Rests event s'.mem.value (s'.pc t) := by
  refine ⟨?_, fun t timeout r ht => ?_, Monitor.settles notifying_event h.reachable⟩
  · obtain ⟨L, hL, hl⟩ := Monitor.trace_atomic h
    refine ⟨L, hL, ?_⟩
    rw [← hl]
    exact Monitor.linearizes implements_flag hL
  · exact ⟨(status_holds h.reach t timeout r ht).symm, returns_zero h.reach ht⟩

end

/-- Thread 0 waits, thread 1 sets the event and returns, and thread 0 wakes up. -/
def signaling : List (Act (Monitor.Input Op)) :=
  [⟨0, .call (.wait 60000)⟩, ⟨0, .go⟩, ⟨0, .go⟩, ⟨1, .call .set⟩] ++ List.replicate 6 ⟨1, .go⟩ ++ [⟨0, .go⟩]

theorem event_atomic_signaling : ∃ (s : State (Monitor.Mem Bool) (Monitor.Pc Op)) (L : List (Moment Op Bool)),
    s.pc 0 = .reenter (.wait 60000) false ∧
    flag.Linearizes [.call 0 (.wait 60000), .call 1 .set, .ret 1 .set true] L s.mem.value ∧
    ∃ s', (event.prog false).Runs Monitor.Goes s s' ∧ s'.mem.lock = false ∧
      ∀ t, Monitor.Rests event s'.mem.value (s'.pc t) := by
  obtain ⟨s, l, h, hf⟩ := (event.prog false).exists_of_history Monitor.calls Test.all signaling
    (fun s l => (s.pc 0, l))
    (.reenter (.wait 60000) false, [.call 0 (.wait 60000), .call 1 .set, .ret 1 .set true]) rfl
  simp only [Prod.mk.injEq] at hf
  obtain ⟨hp, rfl⟩ := hf
  obtain ⟨⟨L, -, hL⟩, -, hrest⟩ := event_atomic h
  exact ⟨s, L, hp, hL, hrest⟩

end SignalRClient.Event
