import SignalRClient.Threads.Mutex
import SignalRClient.Transport.Reports

/-!
# The client of a receive loop

`receive_loop` reads `m_websocket_client` anew for every `receive()`, while it is stopped through the token
source it was begun with.

* `Current`: a loop that is under way and whose token source is not cancelled belongs to the client in place.
  This rests on `m_start_stop_lock` (`mutex_holds`): `connect()` begins a loop only once the one before it is
  cancelled (`Call.guard`).
* `Fresh`: no loop that has been cancelled goes on with the client of a later `connect()`.
* `Prompt`: no loop is cancelled while a response of it waits for its continuation to start.
* `receives_own_client`: then each loop asks its own client, and the responses of a client are passed on in
  order, each once.
* `stale_swallows`: a `connect()` that completes late goes on with the client of a later one, and a response that
  waits for its continuation is lost when `disconnect()` comes in between.
-/

namespace SignalRClient.Transport

open Threads

variable {R : Type}

/-! ## `m_start_stop_lock` -/

/-- The call has the lock. -/
def Call.locked : Call → Bool
  | .connect p => match p with
    | .lock | .returned _ | .thrown => false
    | _ => true
  | .disconnect _ p => match p with
    | .check | .cancel | .fetch | .unlock _ | .unlockIdle => true
    | _ => false

def locked (p : Pc R) : Bool := p.call.any Call.locked

section

variable {t : ℕ} {m m' : Mem} {p p' : Pc R} {i : Input R} {f : Option Fault}

theorem release_locked (m : Mem) : m.release.2.any Call.locked = false := by
  simp only [Mem.release]
  split <;> rfl

/-- A call takes the lock when it is free, and leaves it. -/
theorem runCall_lock {c : Call} {q : Option Call} (h : runCall m c f = some (m', q)) :
    LockStep m.startStopLock m'.startStopLock c.locked (q.any Call.locked) := by
  cases runCall_step h with
  | lock hfree | lockStop hfree =>
    rw [hfree]
    exact .take
  | unlock | unlockThrow | unlockStop | unlockIdle => exact .leave _
  | returned | thrown =>
    rw [release_locked]
    exact .stay _ _
  | stopped hp =>
    rw [release_locked]
    rcases hp with rfl | rfl <;> exact .stay _ _
  | destroyed hp => rcases hp with rfl | rfl <;> exact .stay _ _
  | _ => exact .stay _ _

/-- What the continuations leave to `connect()` and `disconnect()`. -/
structure Apart (m m' : Mem) (p' : Pc R) : Prop where
  lock : m'.startStopLock = m.startStopLock
  client : m'.websocketClient = m.websocketClient
  cts : m'.receiveLoopCts = m.receiveLoopCts
  call : p'.call = none ∨ p'.call = some (.disconnect true .lock)

theorem release_call (m : Mem) : m.release.2 = none ∨ m.release.2 = some (.disconnect true .lock) := by
  simp only [Mem.release]
  split
  · exact .inr rfl
  · exact .inl rfl

theorem runFrame_apart {q : Frame R} (h : runFrame m q f = some (m', p')) : Apart m m' p' := by
  cases runFrame_step h with
  | release | finish | reported => exact ⟨rfl, rfl, rfl, release_call _⟩
  | _ => exact ⟨rfl, rfl, rfl, .inl rfl⟩

theorem enter_apart (h : enter m i = some (m', p')) : Apart m m' p' := by
  cases enter_step h with
  | drop => exact ⟨rfl, rfl, rfl, release_call _⟩
  | _ => exact ⟨rfl, rfl, rfl, .inl rfl⟩

/-- A step is one of a call, or leaves to the calls what is theirs. -/
theorem next_apart (h : next t m p i = some (m', p')) :
    (∃ c f c', p.call = some c ∧ runCall m c f = some (m', c') ∧ p' = ⟨p.frame, c'⟩) ∨
    (p.call = none ∧ m'.startStopLock = m.startStopLock ∧ m'.websocketClient = m.websocketClient ∧
      m'.receiveLoopCts = m.receiveLoopCts ∧
      (p'.call = none ∨ p'.call = some (.connect .lock) ∨ ∃ d, p'.call = some (.disconnect d .lock))) := by
  have hcall : ∀ {p' : Pc R}, p'.call = none ∨ p'.call = some (.disconnect true .lock) →
      p'.call = none ∨ p'.call = some (.connect .lock) ∨ ∃ d, p'.call = some (.disconnect d .lock) :=
    fun h => h.imp id fun h => .inr ⟨true, h⟩
  rcases next_cases h with ⟨c, f, c', hc, -, hr, hp'⟩ | ⟨hc, -, -, rfl, hp'⟩ | ⟨f, hc, -, hr⟩ | ⟨rfl, he⟩
  · exact .inl ⟨c, f, c', hc, hr, hp'⟩
  · refine .inr ⟨hc, rfl, rfl, rfl, .inr ?_⟩
    rcases hp' with ⟨-, rfl⟩ | ⟨-, rfl⟩
    · exact .inl rfl
    · exact .inr ⟨false, rfl⟩
  · have ha := runFrame_apart hr
    exact .inr ⟨hc, ha.lock, ha.client, ha.cts, hcall ha.call⟩
  · have ha := enter_apart he
    exact .inr ⟨rfl, ha.lock, ha.client, ha.cts, hcall ha.call⟩

theorem next_lock (h : next t m p i = some (m', p')) :
    LockStep m.startStopLock m'.startStopLock (locked p) (locked p') := by
  rcases next_apart h with ⟨c, f, c', hc, hr, rfl⟩ | ⟨hc, hl, -, -, hp'⟩
  · simp only [locked, hc]
    exact runCall_lock hr
  · have hfree : locked p' = false := by
      rcases hp' with hp' | hp' | ⟨d, hp'⟩ <;> simp [locked, hp', Call.locked]
    rw [hl, hfree]
    simp only [locked, hc, Option.any_none]
    exact .stay _ _

/-! ## What `connect()` and `disconnect()` do under the lock -/

/-- What holds of the shared members while `connect()` is on its way to a new loop. -/
def Call.guard (m : Mem) : Call → Prop
  | .connect p => match p with
    | .factory | .setClient _ => m.cancelled m.receiveLoopCts = true
    | .connect k | .setCts k => m.cancelled m.receiveLoopCts = true ∧ m.websocketClient = k
    | _ => True
  | .disconnect _ _ => True

/-- Only `connect()` sets the client … -/
theorem next_client (h : next t m p i = some (m', p')) :
    m'.websocketClient = m.websocketClient ∨
      ∃ k, p.call = some (.connect (.setClient k)) ∧ m'.websocketClient = k := by
  rcases next_apart h with ⟨c, f, c', hc, hr, -⟩ | ⟨-, -, hw, -⟩
  · cases runCall_step hr with
    | setClient => exact .inr ⟨_, hc, rfl⟩
    | _ => exact .inl rfl
  · exact .inl hw

/-- … and the token source. -/
theorem next_cts (h : next t m p i = some (m', p')) :
    (m'.receiveLoopCts = m.receiveLoopCts ∧ ∀ k, p.call ≠ some (.connect (.setCts k))) ∨
      ∃ k, p.call = some (.connect (.setCts k)) ∧ m'.receiveLoopCts = k := by
  rcases next_apart h with ⟨c, f, c', hc, hr, -⟩ | ⟨hc, -, -, hw, -⟩
  · cases runCall_step hr with
    | setCts => exact .inr ⟨_, hc, rfl⟩
    | _ => exact .inl ⟨rfl, by simp [hc]⟩
  · exact .inl ⟨hw, by simp [hc]⟩

/-- `connect()` goes on with the client it has set, as long as the members stay as they are. -/
theorem runCall_guard {c c' : Call} (h : runCall m c f = some (m', some c')) (hg : c.guard m) : c'.guard m' := by
  -- `~websocket_transport` begins with `disconnect()`, of which nothing is asked
  have hrelease : ∀ {m₁ : Mem} {q : Option Call}, (m₁, q) = m.release → q = some c' → c'.guard m₁ := by
    intro m₁ q e hq
    have hq' : m.release.2 = some c' := by rw [← e]; exact hq
    rcases release_call m with hn | hd
    · rw [hn] at hq'; cases hq'
    · rw [hd] at hq'; cases hq'; trivial
  generalize hq : some c' = q at h
  cases runCall_step h with
  | accept hcan => cases hq; exact hcan
  | make | attach => cases hq; exact hg
  | setClient => cases hq; exact ⟨hg, rfl⟩
  | returned | thrown | stopped => exact hrelease rfl hq.symm
  | _ => cases hq <;> trivial

theorem next_guard (h : next t m p i = some (m', p')) (hg : ∀ c, p.call = some c → c.guard m) :
    ∀ c, p'.call = some c → c.guard m' := by
  intro c' hc'
  rcases next_apart h with ⟨c, f, q, hc, hr, rfl⟩ | ⟨-, -, -, -, hp'⟩
  · obtain rfl : q = some c' := hc'
    exact runCall_guard hr (hg c hc)
  · rcases hp' with hp' | hp' | ⟨d, hp'⟩
    · rw [hp'] at hc'; cases hc'
    · rw [hp'] at hc'; cases hc'; trivial
    · rw [hp'] at hc'; cases hc'; trivial

/-- A token source that is cancelled stays so. -/
theorem Hands.cancelled_mono {H H' : Holder → Option (ℕ × Stage)} {l : List (Event R)} (h : Hands m m' H H' l) {k : ℕ}
    (hk : m.cancelled k = true) : m'.cancelled k = true := by
  have hcancel : ∀ j, (m.cancel j).cancelled k = true := fun j => by
    by_cases hj : k = j
    · subst hj; simp [Mem.cancel]
    · simpa [Mem.cancel, hj] using hk
  cases h with
  | keep _ _ _ hc =>
    rcases hc with hc | ⟨-, hc⟩
    · rw [hc]; exact hk
    · rw [hc]; exact hcancel _
  | give _ _ _ _ _ hc => rw [hc]; exact hk
  | move _ _ j _ _ c _ _ _ _ _ _ _ _ hc =>
    rw [hc]
    split
    · exact hcancel j
    · exact hk

end

/-- A holder that is not a call of `connect()`. -/
def Holder.runs : Holder → Prop
  | .call _ => False
  | _ => True

section

variable {t : ℕ} {m m' : Mem} {pc : ℕ → Pc R} {p' : Pc R} {i : Input R} {w : Holder} {k : ℕ} {x : Stage}

/-- A loop that is under way has been so before, or `connect()` has just returned a task. -/
theorem held_origin (hb : Bounded m) (hu : Unique fun h => (held m pc h).map Prod.fst)
    (h : next t m (pc t) i = some (m', p')) (hw : w.runs) (hheld : held m' (Function.update pc t p') w = some (k, x)) :
    (∃ w x, w.runs ∧ held m pc w = some (k, x)) ∨
      ((pc t).call = some (.connect (.connect k)) ∧ p'.call = some (.connect (.setCts k))) := by
  rcases next_apart h with ⟨c, f, q, hc, hr, rfl⟩ | ⟨hc, -, -, -, hp'⟩
  · -- a call hands a loop on only when the connect task is there
    have hkeep : inMem m' = inMem m → ∃ w x, w.runs ∧ held m pc w = some (k, x) := by
      intro hm
      rw [held_call q hm] at hheld
      have hne : w ≠ .call t := by
        rintro rfl
        exact hw
      rw [Function.update_of_ne hne] at hheld
      exact ⟨w, x, hw, hheld⟩
    cases runCall_step hr with
    | @attach j =>
      by_cases hwj : w = .pending j
      · subst hwj
        simp only [held, inMem, Function.update_self, if_true, Option.some.injEq, Prod.mk.injEq] at hheld
        obtain ⟨rfl, -⟩ := hheld
        exact .inr ⟨hc, rfl⟩
      · refine .inl ⟨w, x, hw, ?_⟩
        rw [← hheld]
        rcases w with j' | r | e | u | u
        · have hne : j' ≠ j := fun e => hwj (by rw [e])
          simp [held, inMem, hne]
        · rfl
        · rfl
        · by_cases hut : u = t
          · subst hut; simp [held]
          · simp [held, hut]
        · exact hw.elim
    | _ => exact .inl (hkeep rfl)
  · -- no call begins or ends with a loop in hand
    refine .inl ?_
    have hcalls : ∀ u, held m' (Function.update pc t p') (.call u) = held m pc (.call u) := by
      intro u
      by_cases hut : u = t
      · subst hut
        have hnone : p'.call.bind Call.hold? = none := by
          rcases hp' with hp' | hp' | ⟨d, hp'⟩ <;> rw [hp'] <;> rfl
        simp [held, hc, hnone]
      · simp [held, hut]
    have hkeep : held m' (Function.update pc t p') w = held m pc w → ∃ w x, w.runs ∧ held m pc w = some (k, x) :=
      fun e => ⟨w, x, hw, by rw [← e]; exact hheld⟩
    cases next_hands hb hu h with
    | keep hH _ _ _ => exact hkeep (by rw [hH])
    | give u hH _ _ _ _ =>
      refine hkeep ?_
      rw [hH, Function.update_of_ne]
      rintro rfl
      exact hw
    | move a b j y z c e ha hb' hH _ _ _ _ _ =>
      rw [hH] at hheld
      rcases of_hand hheld with ⟨rfl, hz⟩ | ⟨-, -, hwh⟩
      · obtain ⟨z', -, e'⟩ := Option.map_eq_some_iff.mp hz
        obtain rfl : j = k := (Prod.mk.inj e').1
        refine ⟨a, y, ?_, ha⟩
        rcases a with j' | r | e' | u | u
        · trivial
        · trivial
        · trivial
        · trivial
        · -- a call would still have its loop
          have hau := hcalls u
          rw [hH, ha] at hau
          by_cases hub : Holder.call u = w
          · rw [← hub] at hw
            exact hw.elim
          · rw [hand_of_ne hub, if_pos rfl] at hau
            cases hau
      · exact ⟨w, x, hw, hwh⟩

end

theorem unique_holds {ok : State Mem (Pc R) → Act (Input R) → Prop} {s : State Mem (Pc R)} (h : prog.Reach ok s) :
    Unique fun w => (held s.mem s.pc w).map Prod.fst := by
  obtain ⟨l, hl⟩ : ∃ l, prog.Trace ok events s l := h.exists_trace
  exact (course_holds hl).1.unique

theorem mutex_holds {ok : State Mem (Pc R) → Act (Input R) → Prop} {s : State Mem (Pc R)} (h : prog.Reach ok s) :
    Mutex Mem.startStopLock locked s :=
  h.mutex rfl fun t _ _ _ _ _ hn => next_lock (t := t) hn

/-- The loop that is under way and not cancelled is that of the client. -/
structure Current (s : State Mem (Pc R)) : Prop where
  guard : ∀ t c, (s.pc t).call = some c → c.guard s.mem
  live : ∀ w k x, w.runs → held s.mem s.pc w = some (k, x) → s.mem.cancelled k = false →
    s.mem.websocketClient = k ∧
      (s.mem.receiveLoopCts = k ∨ ∃ u, (s.pc u).call = some (.connect (.setCts k)))

theorem current_step {s : State Mem (Pc R)} {t : ℕ} {m : Mem} {p : Pc R} {i : Input R} (hcur : Current s)
    (hmut : Mutex Mem.startStopLock locked s) (hb : Bounded s.mem)
    (hu : Unique fun w => (held s.mem s.pc w).map Prod.fst) (hn : next t s.mem (s.pc t) i = some (m, p)) :
    Current (s.set t m p) := by
  have hmono : ∀ k, s.mem.cancelled k = true → m.cancelled k = true := fun k =>
    (next_hands hb hu hn).cancelled_mono
  -- two calls under the lock are one
  have hexcl : ∀ u q q', (s.pc t).call = some q → (s.pc u).call = some q' → q.locked = true → q'.locked = true →
      u = t := by
    intro u q q' hq hq' hl hl'
    exact hmut.excl u t (by simp [locked, hq', hl']) (by simp [locked, hq, hl])
  refine ⟨fun u c hc => ?_, fun w k x hw hheld hk => ?_⟩
  · by_cases hut : u = t
    · subst hut
      rw [State.set_pc_self] at hc
      exact next_guard hn (hcur.guard u) c hc
    · rw [State.set_pc_of_ne _ _ _ _ hut] at hc
      have hg := hcur.guard u c hc
      -- another thread changes these members under the lock only
      have hkeep : c.locked = true → m.websocketClient = s.mem.websocketClient ∧
          m.receiveLoopCts = s.mem.receiveLoopCts := by
        intro hl
        constructor
        · rcases next_client hn with h | ⟨k, hk, -⟩
          · exact h
          · exact absurd (hexcl u _ _ hk hc rfl hl) hut
        · rcases next_cts hn with ⟨h, -⟩ | ⟨k, hk, -⟩
          · exact h
          · exact absurd (hexcl u _ _ hk hc rfl hl) hut
      rcases c with q | ⟨d, q⟩
      · cases q with
        | factory | setClient k =>
          obtain ⟨-, hcts⟩ := hkeep rfl
          have hg : s.mem.cancelled s.mem.receiveLoopCts = true := hg
          show m.cancelled m.receiveLoopCts = true
          rw [hcts]
          exact hmono _ hg
        | connect k | setCts k =>
          obtain ⟨hcl, hcts⟩ := hkeep rfl
          obtain ⟨hg, hg'⟩ : s.mem.cancelled s.mem.receiveLoopCts = true ∧ s.mem.websocketClient = k := hg
          show m.cancelled m.receiveLoopCts = true ∧ m.websocketClient = k
          rw [hcts, hcl]
          exact ⟨hmono _ hg, hg'⟩
        | _ => trivial
      · trivial
  · have hk' : s.mem.cancelled k = false := by
      by_contra hc
      have hc : s.mem.cancelled k = true := by simpa using hc
      have hk : m.cancelled k = false := hk
      rw [hmono k hc] at hk
      cases hk
    rcases held_origin hb hu hn hw hheld with ⟨w, x, hw, hheld⟩ | ⟨hc, hc'⟩
    · obtain ⟨hcl, hcts⟩ := hcur.live w k x hw hheld hk'
      -- `connect()` begins another loop only once this one is cancelled
      have hdead : ∀ c, (s.pc t).call = some c → c.locked = true → s.mem.cancelled s.mem.receiveLoopCts = true →
          ∃ u, u = t ∧ (s.pc u).call = some (.connect (.setCts k)) := by
        intro c hc hl hcan
        rcases hcts with h | ⟨u, hu'⟩
        · rw [h, hk'] at hcan
          cases hcan
        · exact ⟨u, hexcl u c _ hc hu' hl rfl, hu'⟩
      constructor
      · show m.websocketClient = k
        rcases next_client hn with h | ⟨j, hj, -⟩
        · rw [h, hcl]
        · obtain ⟨u, rfl, hu'⟩ := hdead _ hj rfl (hcur.guard t _ hj)
          rw [hj] at hu'
          cases hu'
      · rcases next_cts hn with ⟨h, hnot⟩ | ⟨j, hj, hcts'⟩
        · rcases hcts with hcts | ⟨u, hu'⟩
          · exact .inl (h.trans hcts)
          · refine .inr ⟨u, ?_⟩
            have hut : u ≠ t := by
              rintro rfl
              exact hnot k hu'
            rw [State.set_pc_of_ne _ _ _ _ hut]
            exact hu'
        · obtain ⟨u, rfl, hu'⟩ := hdead _ hj rfl (hcur.guard t _ hj).1
          rw [hj] at hu'
          cases hu'
          exact .inl hcts'
    · -- the loop has just been made
      refine ⟨?_, .inr ⟨t, by rw [State.set_pc_self]; exact hc'⟩⟩
      show m.websocketClient = k
      rcases next_client hn with h | ⟨j, hj, -⟩
      · rw [h]
        exact (hcur.guard t _ hc).2
      · rw [hc] at hj
        cases hj

theorem current_holds {ok : State Mem (Pc R) → Act (Input R) → Prop} {s : State Mem (Pc R)}
    (h : prog.Reach ok s) : Current s := by
  refine h.invariant ⟨fun t c hc => (by cases hc), fun w k x _ hw _ => ?_⟩ ?_
  · cases w <;> cases hw
  · intro s a m p hr _ hcur hn
    exact current_step hcur (mutex_holds hr) (bounded_holds hr) (unique_holds hr) hn

/-! ## Loops that ask their own client -/

/-- The loop for which the client is to be read. -/
def Frame.fetches : Frame R → Option ℕ
  | .connected k .fetch => some k
  | .message i _ .fetch => some i.loop
  | _ => none

/-- No loop whose token source has been cancelled goes on when a later `connect()` has put its client in place,
and no response fails to be converted. -/
def Fresh (s : State Mem (Pc R)) (a : Act (Input R)) : Prop :=
  (∀ k, (s.pc a.thread).frame.fetches = some k → s.mem.cancelled k = true → s.mem.websocketClient = k) ∧
  ∀ i x f, (s.pc a.thread).frame = .message i x .process → a.input = .go f → f = none

/-- `disconnect()` does not cancel a loop that has got a response whose value continuation has not started. -/
def Prompt (s : State Mem (Pc R)) (a : Act (Input R)) : Prop :=
  ∀ d, (s.pc a.thread).call = some (.disconnect d .cancel) →
    ∀ u i x, (s.pc u).frame = .message i x .scheduled → i.loop ≠ s.mem.receiveLoopCts

/-- The client that the continuation has read or got its response from is that of its loop. -/
def Frame.own : Frame R → Prop
  | .connected k (.receive client) => client = k
  | .message i _ p => i.client = i.loop ∧ ∀ client, p = .receive client → client = i.loop
  | _ => True

structure Owning (s : State Mem (Pc R)) : Prop where
  pending : ∀ r i, s.mem.receiving r = some i → i.client = i.loop
  frame : ∀ t, (s.pc t).frame.own

section

variable {m m' : Mem} {p' : Pc R} {i : Input R} {f : Option Fault}

theorem receive_pending {j : Iteration} (hm : ∀ r i, m.receiving r = some i → i.client = i.loop)
    (hj : j.client = j.loop) : ∀ r i, (m.receive j).receiving r = some i → i.client = i.loop := by
  intro r i h
  by_cases hr : r = m.receives
  · subst hr
    simp only [Mem.receive, Function.update_self, Option.some.injEq] at h
    rw [← h]
    exact hj
  · simp only [Mem.receive, Function.update_of_ne hr] at h
    exact hm r i h

/-- A continuation that reads the client of its own loop keeps to it. -/
theorem runFrame_own {q : Frame R} (hm : ∀ r i, m.receiving r = some i → i.client = i.loop) (hq : q.own)
    (hfetch : ∀ k, q.fetches = some k → m.websocketClient = k) (h : runFrame m q f = some (m', p')) :
    (∀ r i, m'.receiving r = some i → i.client = i.loop) ∧ p'.frame.own := by
  have hkeep : ∀ {j : Iteration} {x : R} {q' : MessagePc}, j.client = j.loop → (∀ client, q' ≠ .receive client) →
      Frame.own (.message j x q') := fun hj hne => ⟨hj, fun client e => absurd e (hne client)⟩
  cases runFrame_step h with
  | fetchFirst => exact ⟨hm, hfetch _ rfl⟩
  | receiveFirst => exact ⟨receive_pending hm hq, trivial⟩
  | begin | acquire | process | processing | throw | stop | goOn => exact ⟨hm, hkeep hq.1 (by simp)⟩
  | @fetch _ j =>
    refine ⟨hm, hq.1, fun client e => ?_⟩
    cases e
    exact hfetch j.loop rfl
  | @receive j _ client => exact ⟨receive_pending hm (hq.2 client rfl), hkeep hq.1 (by simp)⟩
  | _ => exact ⟨hm, trivial⟩

theorem enter_own (hm : ∀ r i, m.receiving r = some i → i.client = i.loop) (h : enter m i = some (m', p')) :
    (∀ r i, m'.receiving r = some i → i.client = i.loop) ∧ p'.frame.own := by
  have hless : ∀ r r' i, Function.update m.receiving r none r' = some i → i.client = i.loop := by
    intro r r' i h'
    by_cases hr : r' = r
    · rw [hr, Function.update_self] at h'
      cases h'
    · rw [Function.update_of_ne hr] at h'
      exact hm r' i h'
  cases enter_step h with
  | received hr => exact ⟨hless _, hm _ _ hr, fun client e => (by cases e)⟩
  | receiveFailed => exact ⟨hless _, trivial⟩
  | _ => exact ⟨hm, trivial⟩

theorem runCall_receiving {c : Call} {q : Option Call} (h : runCall m c f = some (m', q)) :
    m'.receiving = m.receiving := by
  cases runCall_step h <;> rfl

end

/-- A continuation that is about to read the client has its loop in hand. -/
theorem hold_of_fetches {q : Frame R} {k : ℕ} (h : q.fetches = some k) : ∃ x, q.hold? = some (k, x) := by
  cases q with
  | connected j q => cases q <;> cases h; exact ⟨_, rfl⟩
  | message j x q => cases q <;> cases h; exact ⟨_, rfl⟩
  | idle => cases h
  | observe j q => cases h

theorem owning_holds {s : State Mem (Pc R)} (h : prog.Reach Fresh s) : Owning s := by
  refine h.invariant (J := Owning) ?_ ?_
  · exact ⟨fun _ _ h => (by cases h), fun _ => trivial⟩
  intro s a m p hr hok hown hn
  have hcur := current_holds hr
  have hown' : (∀ r i, m.receiving r = some i → i.client = i.loop) ∧ p.frame.own := by
    rcases next_cases (t := a.thread) hn with ⟨c, f, c', -, -, hc, rfl⟩ | ⟨-, -, -, rfl, hp⟩ | ⟨f, -, -, hf⟩ | ⟨-, he⟩
    · rw [runCall_receiving hc]
      exact ⟨hown.pending, hown.frame a.thread⟩
    · refine ⟨hown.pending, ?_⟩
      rcases hp with ⟨-, rfl⟩ | ⟨-, rfl⟩ <;> exact hown.frame a.thread
    · refine runFrame_own hown.pending (hown.frame a.thread) (fun k hk => ?_) hf
      obtain ⟨x, hx⟩ := hold_of_fetches hk
      cases hcan : s.mem.cancelled k with
      | false => exact (hcur.live (.frame a.thread) k x trivial hx hcan).1
      | true => exact hok.1 k hk hcan
    · exact enter_own hown.pending he
  refine ⟨hown'.1, fun t => ?_⟩
  by_cases ht : t = a.thread
  · subst ht
    rw [State.set_pc_self]
    exact hown'.2
  · rw [State.set_pc_of_ne _ _ _ _ ht]
    exact hown.frame t

/-! ## From the client to `process_response` -/

/-- The responses that a client has returned while its own loop was not cancelled. -/
def returned (k : ℕ) (l : List (Event R)) : List R :=
  l.filterMap fun
    | .received client true x => if client = k then some x else none
    | _ => none

/-- The responses of loop `k` that have been passed to `process_response`. -/
def processed (k : ℕ) (l : List (Event R)) : List R :=
  l.filterMap fun
    | .processed j x => if j = k then some x else none
    | _ => none

/-- The response of loop `k` that a value continuation is about to pass on. -/
def loaded (m : Mem) (k : ℕ) : Frame R → List R
  | .message i x .scheduled => if i.loop = k ∧ m.cancelled k = false then [x] else []
  | .message i x .acquire | .message i x .process => if i.loop = k then [x] else []
  | _ => []

/-- What client `k` has returned has been passed to `process_response`, in order and each response once, but
for the one that a value continuation is about to pass on. -/
def Delivered (s : State Mem (Pc R)) (l : List (Event R)) (k : ℕ) : Prop :=
  ∃ t, returned k l = processed k l ++ loaded s.mem k (s.pc t).frame ∧
    ∀ u, u ≠ t → loaded s.mem k (s.pc u).frame = []

@[simp] theorem returned_append (k : ℕ) (l l' : List (Event R)) : returned k (l ++ l') = returned k l ++ returned k l' :=
  List.filterMap_append ..

@[simp] theorem processed_append (k : ℕ) (l l' : List (Event R)) :
    processed k (l ++ l') = processed k l ++ processed k l' :=
  List.filterMap_append ..

section

variable {m m' : Mem} {p p' : Pc R} {i : Input R} {f : Option Fault} {k : ℕ}

theorem returned_destruction : returned k (destruction m m' : List (Event R)) = [] := by
  simp only [destruction]
  split <;> rfl

theorem processed_destruction : processed k (destruction m m' : List (Event R)) = [] := by
  simp only [destruction]
  split <;> rfl

/-- A response that is passed on is gone from the hand of its continuation, unless the transport is gone. -/
theorem runFrame_flow {q : Frame R} (hrefs : m.refs ≠ 0)
    (hproc : ∀ i x, q = .message i x .process → f = none) (h : runFrame m q f = some (m', p')) :
    loaded m k q ++ returned k (frameEvents q f) = processed k (frameEvents q f) ++ loaded m' k p'.frame := by
  cases runFrame_step h with
  | @skip f j x hcan =>
    have hnone : ¬ (j.loop = k ∧ m.cancelled k = false) := by
      rintro ⟨rfl, hk⟩
      rw [hcan] at hk
      cases hk
    simp [loaded, frameEvents, returned, processed, hnone]
  | @begin f j x hcan =>
    by_cases hj : j.loop = k
    · subst hj
      simp [loaded, frameEvents, returned, processed, hcan]
    · simp [loaded, frameEvents, returned, processed, hj]
  | expired hr => exact absurd hr hrefs
  | acquire => simp [loaded, frameEvents, returned, processed]
  | @process j => by_cases hj : j.loop = k <;> simp [loaded, frameEvents, returned, processed, hj]
  | @throw g j x p hp =>
    rcases hp with rfl | rfl | ⟨client, rfl⟩
    · cases hproc j x rfl
    · cases g <;> rfl
    · cases g <;> rfl
  | _ => rfl

/-- A response that a client returns comes to the hand of a continuation of its own loop. -/
theorem enter_flow (hm : ∀ r i, m.receiving r = some i → i.client = i.loop) (h : enter m i = some (m', p')) :
    returned k (stepEvents m {} i) = processed k (stepEvents m {} i) ++ loaded m' k p'.frame := by
  cases enter_step h with
  | @received r j _ hj =>
    have hown := hm r j hj
    by_cases hk : j.loop = k
    · subst hk
      cases hcan : m.cancelled j.loop <;> simp [stepEvents, hj, hown, hcan, returned, processed, loaded]
    · cases hcan : m.cancelled j.loop <;> simp [stepEvents, hj, hown, hcan, returned, processed, loaded, hk]
  | @receiveFailed g r j hj => cases g <;> simp [stepEvents, hj, returned, processed, loaded]
  | _ => rfl

/-- A response is returned by the client of a loop that is receiving. -/
theorem receiving_of_returned (hm : ∀ r i, m.receiving r = some i → i.client = i.loop)
    (h : returned k (stepEvents m p i) ≠ []) : ∃ r j, m.receiving r = some j ∧ j.loop = k := by
  obtain ⟨frame, call⟩ := p
  cases call with
  | some c =>
    refine absurd ?_ h
    rcases c with q | ⟨d, q⟩
    · rfl
    · cases q <;> rfl
  | none =>
    cases i with
    | received r o =>
      cases hj : m.receiving r with
      | none => exact absurd (by simp [stepEvents, hj, returned]) h
      | some j =>
        refine ⟨r, j, hj, ?_⟩
        cases o with
        | inl response =>
          by_contra hk
          refine h ?_
          have hk : ¬ j.client = k := by rw [hm r j hj]; exact hk
          cases hcan : m.cancelled j.client <;> simp [stepEvents, hj, hcan, returned, hk]
        | inr g => exact absurd (by cases g <;> simp [stepEvents, hj, returned]) h
    | go f =>
      refine absurd ?_ h
      cases frame with
      | idle => rfl
      | connected j q =>
        cases q with
        | receive client => rcases f with _ | _ | _ | _ <;> rfl
        | _ => rfl
      | message j x q =>
        cases q with
        | process | processing | receive => rcases f with _ | _ | _ | _ <;> rfl
        | _ => rfl
      | observe j q =>
        cases q with
        | close => cases f <;> rfl
        | _ => rfl
    | _ => exact absurd rfl h

theorem step_flow {t : ℕ} (hrefs : m.refs ≠ 0) (hm : ∀ r i, m.receiving r = some i → i.client = i.loop)
    (hproc : ∀ j x f, p.frame = .message j x .process → i = .go f → f = none)
    (hkeep : p.call ≠ none → loaded m' k p.frame = loaded m k p.frame) (h : next t m p i = some (m', p')) :
    loaded m k p.frame ++ returned k (stepEvents m p i) = processed k (stepEvents m p i) ++ loaded m' k p'.frame := by
  rcases next_cases h with ⟨c, f, q, hc, rfl, -, rfl⟩ | ⟨hc, -, -, hm', hp'⟩ | ⟨f, hc, rfl, hf⟩ | ⟨rfl, he⟩
  · have hl : stepEvents m p (.go f) = [] ∨ stepEvents m p (.go f) = [.disconnected m.receiveLoopCts] := by
      rcases c with q | ⟨d, q⟩
      · exact .inl (by simp [stepEvents, hc])
      · cases q <;> simp [stepEvents, hc]
    have hframe := hkeep (by simp [hc])
    rcases hl with hl | hl <;> rw [hl] <;> simp [returned, processed, hframe]
  · have hframe : loaded m' k p.frame = loaded m k p.frame := by
      cases hq : p.frame with
      | message j x q => cases q <;> simp [loaded, hm']
      | _ => rfl
    rcases hp' with ⟨rfl, rfl⟩ | ⟨rfl, rfl⟩ <;> simp [stepEvents, hc, returned, processed, hframe]
  · have hl : stepEvents m p (.go f) = frameEvents p.frame f := by simp [stepEvents, hc]
    rw [hl]
    exact runFrame_flow hrefs (fun j x hq => hproc j x f hq rfl) hf
  · exact enter_flow hm he

end

/-- A value continuation that is about to pass on a response has its loop in hand. -/
theorem hold_of_loaded {m : Mem} {q : Frame R} {k : ℕ} (h : loaded m k q ≠ []) : ∃ x, q.hold? = some (k, x) := by
  cases q with
  | message i x p =>
    have hk : i.loop = k := by
      by_contra hk
      refine h ?_
      cases p <;> first | rfl | exact if_neg hk | exact if_neg fun hboth => hk hboth.1
    subst hk
    cases p with
    | release => exact absurd rfl h
    | _ => exact ⟨_, rfl⟩
  | _ => exact absurd rfl h

/-- Who cancels a token source: `disconnect()`, or a continuation that ends its loop. -/
theorem next_cancels {t : ℕ} {m m' : Mem} {p p' : Pc R} {i : Input R} (h : next t m p i = some (m', p')) :
    m'.cancelled = m.cancelled ∨
    (∃ d, p.call = some (.disconnect d .cancel) ∧ m'.cancelled = (m.cancel m.receiveLoopCts).cancelled) ∨
    ∃ k x, p.call = none ∧ p.frame.hold? = some (k, x) ∧ x ≠ .looping ∧ m'.cancelled = (m.cancel k).cancelled := by
  rcases next_cases h with ⟨c, f, q, hc, -, hr, -⟩ | ⟨-, -, -, rfl, -⟩ | ⟨f, hc, -, hf⟩ | ⟨-, he⟩
  · cases runCall_step hr with
    | cancel => exact .inr (.inl ⟨_, hc, rfl⟩)
    | _ => exact .inl rfl
  · exact .inl rfl
  · generalize hq : p.frame = q at hf
    cases runFrame_step hf with
    | cancel => exact .inr (.inr ⟨_, .starting, hc, rfl, by decide, rfl⟩)
    | quiet => exact .inr (.inr ⟨_, .silent, hc, rfl, by decide, rfl⟩)
    | fail => exact .inr (.inr ⟨_, .failing, hc, rfl, by decide, rfl⟩)
    | _ => exact .inl rfl
  · cases enter_step he <;> exact .inl rfl

/-- A response that waits for its continuation to start is not skipped when its loop was not cancelled. -/
theorem loaded_keep {s : State Mem (Pc R)} {a : Act (Input R)} {m : Mem} {p : Pc R} (hok : Prompt s a)
    (hu : Unique fun w => (held s.mem s.pc w).map Prod.fst)
    (hn : next a.thread s.mem (s.pc a.thread) a.input = some (m, p)) {u : ℕ}
    (hcase : u ≠ a.thread ∨ (s.pc a.thread).call ≠ none) (k : ℕ) :
    loaded m k (s.pc u).frame = loaded s.mem k (s.pc u).frame := by
  cases hq : (s.pc u).frame with
  | message i x q =>
    cases q with
    | scheduled =>
      have hcan : m.cancelled i.loop = s.mem.cancelled i.loop := by
        rcases next_cancels (t := a.thread) hn with e | ⟨d, hd, e⟩ | ⟨j, y, hc, hj, hy, e⟩
        · rw [e]
        · rw [e]
          exact Function.update_of_ne (hok d hd u i x hq) _ _
        · -- one holder has the loop in hand
          have hut : u ≠ a.thread := hcase.resolve_right fun hne => hne hc
          have hij : i.loop ≠ j := by
            intro hij
            have heq := hu (.frame u) (.frame a.thread) i.loop (by simp [held, hq, Frame.hold?])
              (by simp [held, hj, hij])
            injection heq with heq
            exact hut heq
          rw [e]
          exact Function.update_of_ne hij _ _
      by_cases hk : i.loop = k
      · subst hk
        simp [loaded, hcan]
      · simp [loaded, hk]
    | _ => rfl
  | _ => rfl

theorem delivered_holds {s : State Mem (Pc R)} {l : List (Event R)}
    (h : prog.Trace (fun s a => Fresh s a ∧ Prompt s a) events s l) (hl : .destroyed ∉ l) (k : ℕ) :
    Delivered s l k := by
  revert hl
  refine h.invariant (J := fun s l => .destroyed ∉ l → Delivered s l k) ?_ ?_
  · exact fun _ => ⟨0, rfl, fun _ _ => rfl⟩
  · intro s a l m p hr hok ih hn hl
    have hl₀ : .destroyed ∉ l := fun h => hl (List.mem_append_left _ h)
    obtain ⟨t, heq, hfree⟩ := ih hl₀
    have hown := owning_holds (hr.reach.mono fun _ _ hok => hok.1)
    have hrefs : s.mem.refs ≠ 0 := fun h => hl₀ ((course_holds hr).2 h)
    have hkeep : ∀ u, u ≠ a.thread → loaded m k (s.pc u).frame = loaded s.mem k (s.pc u).frame := fun u hu =>
      loaded_keep hok.2 (unique_holds hr.reach) hn (.inl hu) k
    have hflow := step_flow (k := k) (t := a.thread) hrefs hown.pending hok.1.2
      (fun hc => loaded_keep hok.2 (unique_holds hr.reach) hn (.inr hc) k) hn
    have hobs : events a.thread s.mem (s.pc a.thread) a.input m p =
        stepEvents s.mem (s.pc a.thread) a.input ++ destruction s.mem m := rfl
    simp only [Delivered, hobs, returned_append, processed_append, returned_destruction, processed_destruction,
      List.append_nil]
    by_cases hta : ∀ u, u ≠ a.thread → loaded s.mem k (s.pc u).frame = []
    · -- no other thread has a response of the loop
      have heq' : returned k l = processed k l ++ loaded s.mem k (s.pc a.thread).frame := by
        by_cases hat : t = a.thread
        · rw [← hat]
          exact heq
        · rw [heq, hta t hat, hfree a.thread (Ne.symm hat)]
      refine ⟨a.thread, ?_, fun u hu => ?_⟩
      · rw [State.set_pc_self, State.set_mem, heq', List.append_assoc, hflow, List.append_assoc]
      · rw [State.set_pc_of_ne _ _ _ _ hu, State.set_mem, hkeep u hu]
        exact hta u hu
    · push Not at hta
      obtain ⟨u, hu, hload⟩ := hta
      obtain rfl : u = t := by
        by_contra hut
        exact hload (hfree u hut)
      -- so the loop is not receiving, and its client returns nothing
      obtain ⟨x, hx⟩ := hold_of_loaded hload
      have hnone : returned k (stepEvents s.mem (s.pc a.thread) a.input) = [] := by
        by_contra hret
        obtain ⟨r, j, hj, hjk⟩ := receiving_of_returned hown.pending hret
        have := unique_holds hr.reach (.frame u) (.receive r) k (by simp [held, hx]) (by simp [held, inMem, hj, hjk])
        cases this
      have hmine : loaded s.mem k (s.pc a.thread).frame = [] := hfree a.thread hu.symm
      rw [hmine, hnone] at hflow
      obtain ⟨hpro, hload'⟩ := List.append_eq_nil_iff.mp hflow.symm
      refine ⟨u, ?_, fun v hv => ?_⟩
      · rw [State.set_pc_of_ne _ _ _ _ hu, State.set_mem, hkeep u hu, hnone, hpro, List.append_nil, List.append_nil]
        exact heq
      · by_cases hva : v = a.thread
        · subst hva
          rw [State.set_pc_self]
          exact hload'
        · rw [State.set_pc_of_ne _ _ _ _ hva, State.set_mem, hkeep v hva]
          exact hfree v hv

/-- The step that issues a `receive()` is one of a continuation that has read the client. -/
theorem step_receive {t : ℕ} {m m' : Mem} {p p' : Pc R} {i : Input R} {k client : ℕ} (hown : p.frame.own)
    (h : .receive k client ∈ events t m p i m' p') : client = k := by
  have hframe : ∀ {q : Frame R} {f : Option Fault}, q.own → .receive k client ∈ frameEvents q f → client = k := by
    intro q f hq hm
    cases q with
    | idle => cases hm
    | connected j q =>
      cases q with
      | receive c =>
        rcases f with _ | _ | _ | _ <;> simp [frameEvents] at hm
        obtain ⟨rfl, rfl⟩ := hm
        exact hq
      | _ => cases hm
    | message j x q =>
      cases q with
      | receive c =>
        rcases f with _ | _ | _ | _ <;> simp [frameEvents] at hm
        obtain ⟨rfl, rfl⟩ := hm
        exact hq.2 client rfl
      | process | processing => rcases f with _ | _ | _ | _ <;> simp [frameEvents] at hm
      | _ => cases hm
    | observe j q =>
      cases q with
      | close => cases f <;> simp [frameEvents] at hm
      | error => simp [frameEvents] at hm
      | _ => cases hm
  have hstep : .receive k client ∈ stepEvents m p i := by
    refine (List.mem_append.mp h).resolve_right fun hd => ?_
    split at hd
    · cases List.mem_singleton.mp hd
    · cases hd
  obtain ⟨frame, call⟩ := p
  cases call with
  | some c =>
    rcases c with q | ⟨d, q⟩
    · cases hstep
    · cases q <;> simp [stepEvents] at hstep
  | none =>
    cases i with
    | go f => exact hframe hown hstep
    | received r o =>
      simp only [stepEvents] at hstep
      split at hstep
      · simp at hstep
      · simp at hstep
      · cases hstep
    | _ => cases hstep

/-- **Each receive loop asks its own client.**  In a run in which no loop whose token source has been cancelled
goes on when a later `connect()` has put its client in place, no response fails to be converted, and no
`disconnect()` comes between a response and the start of its continuation, every `receive()` of the loop that the
`connect()` number `k` began is issued on the client of that `connect()`; and as long as the transport is alive,
what a client returns while its own loop is not cancelled is passed to `process_response` in order, each response
once. -/
theorem receives_own_client {s : State Mem (Pc R)} {l : List (Event R)}
    (h : prog.Trace (fun s a => Fresh s a ∧ Prompt s a) events s l) :
    (∀ k client, .receive k client ∈ l → client = k) ∧ (.destroyed ∉ l → ∀ k, Delivered s l k) := by
  refine ⟨fun k client hk => ?_, delivered_holds h⟩
  obtain ⟨l₁, l₂, hl⟩ := List.append_of_mem hk
  obtain ⟨s₀, a, m, p, o₁, o₂, l₀, h₀, hok, -, hobs, -⟩ := h.exists_step hl
  have hmem : .receive k client ∈ events a.thread s₀.mem (s₀.pc a.thread) a.input m p := by
    rw [hobs]
    exact List.mem_append_right _ List.mem_cons_self
  exact step_receive ((owning_holds (h₀.reach.mono fun _ _ hok => hok.1)).frame a.thread) hmem

/-! ## Schedules -/

def fresh : Test (Fresh (R := R)) where
  test s a :=
    (match (s.pc a.thread).frame.fetches with
      | some k => !s.mem.cancelled k || s.mem.websocketClient == k
      | none => true) &&
    match (s.pc a.thread).frame, a.input with
      | .message _ _ .process, .go f => f == none
      | _, _ => true
  sound h := by
    obtain ⟨h₁, h₂⟩ := Bool.and_eq_true_iff.mp h
    refine ⟨fun k hk hcan => ?_, fun i x f hf hi => ?_⟩
    · simpa [hk, hcan] using h₁
    · simpa [hf, hi] using h₂

/-- A step that is no `disconnect()` at its cancellation is prompt. -/
def prompt : Test (Prompt (R := R)) where
  test s a :=
    match (s.pc a.thread).call with
    | some (.disconnect _ .cancel) => false
    | _ => true
  sound h d hd := by simp [hd] at h

/-- Client 1 returns a response, which is processed. -/
def delivering : List (Act (Input ℕ)) := connected 0 1 ++ [⟨0, .received 0 (.inl 7)⟩] ++ going 0 3

theorem receives_own_client_delivering : ∃ (s : State Mem (Pc ℕ)) (l : List (Event ℕ)),
    prog.Trace (fun s a => Fresh s a ∧ Prompt s a) events s l ∧ .processed 1 7 ∈ l ∧ Delivered s l 1 := by
  obtain ⟨s, l, h, hl⟩ := Program.exists_of_history prog events (fresh.and prompt) delivering
    (fun _ l => l) [.receive 1 1, .started 1, .received 1 true 7, .processed 1 7] rfl
  subst hl
  exact ⟨s, _, h, by simp, (receives_own_client h).2 (by simp) 1⟩

/-- Client 1 is still connecting when `disconnect()` cancels its loop and a second client is made; then the
first `connect()` completes, its loop asks client 2, and drops the response as its token is cancelled. -/
def stale : List (Act (Input ℕ)) :=
  [⟨0, .connect⟩] ++ going 0 8 ++ [⟨1, .disconnect⟩] ++ going 1 7 ++ [⟨0, .connect⟩] ++ going 0 8 ++
  [⟨1, .connected 1 none⟩] ++ going 1 4 ++ [⟨0, .connected 2 none⟩] ++ going 0 4 ++ [⟨1, .received 0 (.inl 7)⟩] ++
  going 1 1

/-- Client 1 returns a response; `disconnect()` cancels its loop before the continuation starts. -/
def interrupted : List (Act (Input ℕ)) :=
  connected 0 1 ++ [⟨0, .received 0 (.inl 7)⟩, ⟨1, .disconnect⟩] ++ going 1 7 ++ going 0 1

theorem frame_idle {s : State Mem (Pc R)} (hidle : ∀ t, 2 ≤ t → s.pc t = {}) (h0 : s.pc 0 = {}) (h1 : s.pc 1 = {})
    (t : ℕ) : (s.pc t).frame = .idle := by
  by_cases ht : t < 2
  · rcases (by omega : t = 0 ∨ t = 1) with rfl | rfl
    · rw [h0]
    · rw [h1]
  · rw [hidle t (by omega)]

/-- So a loop may ask the client of a later one, and swallow its response; and a response may be dropped that its own
client has returned to its own loop. -/
theorem stale_swallows :
    (¬ ∀ (s : State Mem (Pc ℕ)) (l : List (Event ℕ)), prog.Trace (fun _ _ => True) events s l →
      ∀ k client, .receive k client ∈ l → client = k) ∧
    (¬ ∀ (s : State Mem (Pc ℕ)) (l : List (Event ℕ)), prog.Trace (fun _ _ => True) events s l → .destroyed ∉ l →
      ∀ k, Delivered s l k) ∧
    ¬ ∀ (s : State Mem (Pc ℕ)) (l : List (Event ℕ)), prog.Trace Fresh events s l → .destroyed ∉ l →
      ∀ k, Delivered s l k := by
  obtain ⟨s, l, h, hf, hidle⟩ := Program.exists_of_history_lt prog events Test.all stale 2 (by decide)
    (fun s l => (l, s.pc 0, s.pc 1))
    ([.disconnected 1, .receive 1 2, .started 1, .receive 2 2, .started 2, .received 2 true 7], {}, {}) rfl
  simp only [Prod.mk.injEq] at hf
  obtain ⟨rfl, h0, h1⟩ := hf
  refine ⟨fun hall => ?_, fun hall => ?_, fun hall => ?_⟩
  · have := hall s _ h 1 2 (by simp)
    omega
  · obtain ⟨t, ht, -⟩ := hall s _ h (by simp) 2
    rw [frame_idle hidle h0 h1 t] at ht
    cases ht
  · obtain ⟨s', l', h', hf', hidle'⟩ := Program.exists_of_history_lt prog events fresh interrupted 2 (by decide)
      (fun s l => (l, s.pc 0, s.pc 1))
      ([.receive 1 1, .started 1, .received 1 true 7, .disconnected 1], {}, {}) rfl
    simp only [Prod.mk.injEq] at hf'
    obtain ⟨rfl, h0', h1'⟩ := hf'
    obtain ⟨t, ht, -⟩ := hall s' _ h' (by simp) 1
    rw [frame_idle hidle' h0' h1' t] at ht
    cases ht

end SignalRClient.Transport
