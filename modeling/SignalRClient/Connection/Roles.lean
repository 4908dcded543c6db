import SignalRClient.Connection.Model

/-!
# The protocol between the state, the lock and the event

What keeps the life cycle of a connection in order is a protocol between `m_connection_state`,
`m_stop_lock`, `m_start_completed_event` and the token source of the session.  A `Role` is what a
thread has claimed in that protocol.

* `Role.Loc c r` — what the holder of role `r` may rely on;
* `Role.Pair c r w` — what two threads with the roles `r` and `w` exclude of each other;
* `Fits c r w` — both for a thread that is about to step and for another one.

The rules (`Fits.acquire`, `Fits.begin`, …) are the moves of the protocol: what each of them may
assume and which roles fit behind it.  They speak of no program counter.
-/

namespace SignalRClient.Connection

/-- A start or a reconnect attempt in progress, by the state it has published. -/
inductive Phase where
  | connecting | connected | reconnecting
  deriving DecidableEq

def Phase.state : Phase → ConnectionState
  | .connecting => .connecting
  | .connected => .connected
  | .reconnecting => .reconnecting

/-- What a thread has claimed. -/
structure Role where
  locked : Bool := false           -- it holds the lock
  phase : Option Phase := none     -- it runs a start or a reconnect attempt
  unset : Bool := false            -- … and has reset the event and not yet set it
  passed : Bool := false           -- it has seen the event signaled and holds the lock since
  stopping : Bool := false         -- it is in shutdown(), in the lock, and will move to disconnecting
  cancels : Bool := false          -- … and has cancelled the token source
  closing : Bool := false          -- … and has looked at the state for the last time
  lost : Bool := false             -- it has moved to reconnecting and not yet captured the source
  watch : Option ℕ := none         -- … has captured it, and has not yet begun the attempt
  live : Bool := false             -- … and has seen, in the lock, that it is not cancelled

/-- The thread is the one to continue the lost connection. -/
def Role.Owns (c : Core) (r : Role) : Prop := r.lost = true ∨ ∃ k, r.watch = some k ∧ c.cancelled k = false

/-- What a thread with role `r` may rely on. -/
structure Role.Loc (c : Core) (r : Role) : Prop where
  lock : r.locked = true → c.stopLock = true
  phase : ∀ p, r.phase = some p → c.connState = p.state
  unset : r.unset = true → c.startCompleted = false ∧ r.phase ≠ none
  reset : r.phase ≠ none → r.unset = true ∨ r.locked = true
  passed : r.passed = true → r.locked = true ∧ c.connState ≠ .connecting
  stopping : r.stopping = true → r.locked = true ∧ c.connState ≠ .disconnecting
  cancels : r.cancels = true → r.locked = true ∧ c.cancelled c.disconnectCts = true
  closing : r.closing = true → r.locked = true ∧ r.passed = true ∧ r.cancels = true ∧
    (c.connState = .connected ∨ c.connState = .reconnecting)
  lost : r.lost = true → r.locked = true
  owns : r.Owns c → c.connState = .reconnecting
  watch : ∀ k, r.watch = some k → c.cancelled k = false → k = c.disconnectCts
  live : r.live = true → r.locked = true ∧ ∃ k, r.watch = some k ∧ c.cancelled k = false

/-- What the roles of two threads exclude. -/
structure Role.Pair (c : Core) (r w : Role) : Prop where
  lock : r.locked = true → w.locked = false
  phase : r.phase ≠ none → w.phase = none
  passed : r.passed = true → w.phase = none
  owns : r.Owns c → w.phase = none ∧ ¬ w.Owns c

/-- The roles of a thread about to step and of another thread. -/
structure Fits (c : Core) (r w : Role) : Prop where
  loc : r.Loc c
  other : w.Loc c
  left : r.Pair c w
  right : w.Pair c r

theorem Role.Owns.mono {c c' : Core} {r : Role} (h : ∀ k, c.cancelled k = true → c'.cancelled k = true)
    (ho : r.Owns c') : r.Owns c := by
  rcases ho with ho | ⟨k, hk, hc⟩
  · exact .inl ho
  · refine .inr ⟨k, hk, ?_⟩
    cases hck : c.cancelled k with
    | false => rfl
    | true => rw [h k hck] at hc; cases hc

/-- Who runs a start or an attempt is alone in that, and so the state it has published stays. -/
theorem Fits.free {c : Core} {r w : Role} (h : Fits c r w)
    (hc : c.connState = .disconnected ∨ c.connState = .disconnecting) : w.phase = none := by
  cases hp : w.phase with
  | none => rfl
  | some p => have := h.other.phase p hp; cases p <;> simp_all [Phase.state]

/-- Token sources are never un-cancelled, so that a claim once lost stays lost. -/
theorem Role.Pair.mono {c c' : Core} {r w : Role} (h : ∀ k, c.cancelled k = true → c'.cancelled k = true)
    (hp : r.Pair c w) : r.Pair c' w :=
  ⟨hp.lock, hp.phase, hp.passed, fun ho =>
    ⟨(hp.owns (ho.mono h)).1, fun hw => (hp.owns (ho.mono h)).2 (hw.mono h)⟩⟩

/-! ## The moves -/

section Rules

variable {c : Core} {r w : Role}

attribute [local grind] Role.Owns Role.Loc Role.Pair

/-- Claims other than the lock may be given up at any point. -/
theorem Fits.drop (h : Fits c r w) : Fits c { locked := r.locked } w := by
  obtain ⟨hr, hw, hrw, hwr⟩ := h
  constructor <;> constructor <;> grind -ring -linarith

/-- The protocol does not speak of `m_transport`. -/
theorem Fits.setTransport (h : Fits c r w) (x : Option ℕ) : Fits { c with transport := x } r w := by
  obtain ⟨hr, hw, hrw, hwr⟩ := h
  constructor <;> constructor <;> grind -ring -linarith

/-! ### The lock -/

theorem Fits.acquire (h : Fits c r w) (hl : c.stopLock = false) :
    Fits { c with stopLock := true } { r with locked := true } w := by
  obtain ⟨hr, hw, hrw, hwr⟩ := h
  have hwl : w.locked = false := by
    by_contra hc
    exact absurd (hw.lock (by simpa using hc)) (by simp [hl])
  constructor <;> constructor <;> grind -ring -linarith

/-- Leaving the lock ends all that rests on holding it; a start or an attempt, and the claim of a
captured token source, go on. -/
theorem Fits.release (h : Fits c r w) (hl : r.locked = true) (hlost : r.lost = false)
    (hset : r.phase ≠ none → r.unset = true) :
    Fits { c with stopLock := false } { phase := r.phase, unset := r.unset, watch := r.watch } w := by
  obtain ⟨hr, hw, hrw, hwr⟩ := h
  have hwl : w.locked = false := hrw.lock hl
  constructor <;> constructor <;> grind -ring -linarith

/-! ### A start -/

/-- A start moves the state from disconnected to connecting; it does so in the lock, where nobody can
have seen the event signaled and rely on it. -/
theorem Fits.begin (h : Fits c { locked := true } w) (hc : c.connState = .disconnected) :
    Fits { c with connState := .connecting } { locked := true, phase := some .connecting } w := by
  have hwp : w.phase = none := h.free (.inl hc)
  obtain ⟨hr, hw, hrw, hwr⟩ := h
  have hwo : ¬ w.Owns c := fun ho => by simpa [hc] using hw.owns ho
  have hwl : w.locked = false := hrw.lock rfl
  constructor <;> constructor <;> grind -ring -linarith [Phase.state]

/-- The start makes a token source of its own. -/
theorem Fits.renew {k : ℕ} (h : Fits c { locked := true, phase := some .connecting } w) :
    Fits { c with disconnectCts := k } { locked := true, phase := some .connecting } w := by
  obtain ⟨hr, hw, hrw, hwr⟩ := h
  have hc : c.connState = .connecting := hr.phase _ rfl
  have hwo : ¬ w.Owns c := fun ho => by simpa [hc] using hw.owns ho
  have hwl : w.locked = false := hrw.lock rfl
  constructor <;> constructor <;> grind -ring -linarith

/-- … and resets the event. -/
theorem Fits.resetStart (h : Fits c { locked := true, phase := some .connecting } w) :
    Fits { c with startCompleted := false }
      { locked := true, phase := some .connecting, unset := true } w := by
  obtain ⟨hr, hw, hrw, hwr⟩ := h
  have hwp : w.phase = none := hrw.phase (by simp)
  constructor <;> constructor <;> grind -ring -linarith

/-- A start that succeeds publishes connected, with the event still unsignaled. -/
theorem Fits.succeed (h : Fits c { phase := some .connecting, unset := true } w) :
    Fits { c with connState := .connected } { phase := some .connected, unset := true } w := by
  obtain ⟨hr, hw, hrw, hwr⟩ := h
  have hc : c.connState = .connecting := hr.phase _ rfl
  have hwp : w.phase = none := hrw.phase (by simp)
  have hwo : ¬ w.Owns c := fun ho => by simpa [hc] using hw.owns ho
  constructor <;> constructor <;> grind -ring -linarith [Phase.state]

/-- A start that fails publishes disconnected, with the event still unsignaled. -/
theorem Fits.publish (h : Fits c { phase := some .connecting, unset := true } w) :
    Fits { c with connState := .disconnected } {} w := by
  obtain ⟨hr, hw, hrw, hwr⟩ := h
  have hc : c.connState = .connecting := hr.phase _ rfl
  have hwp : w.phase = none := hrw.phase (by simp)
  have hwo : ¬ w.Owns c := fun ho => by simpa [hc] using hw.owns ho
  constructor <;> constructor <;> grind -ring -linarith

/-! ### The event -/

/-- The event is signaled for good only when no other thread still has to signal it. -/
theorem Fits.signal (h : Fits c r w) (hw : w.unset = false) :
    Fits { c with startCompleted := true } {} w := by
  obtain ⟨hr, hw', hrw, hwr⟩ := h
  constructor <;> constructor <;> grind -ring -linarith

/-- Who is to signal the event is alone in that. -/
theorem Fits.alone (h : Fits c r w) (hr : r.phase ≠ none) : w.unset = false := by
  have hp : w.phase = none := h.left.phase hr
  by_contra hw
  exact (h.other.unset (by simpa using hw)).2 hp

/-! ### A shutdown -/

theorem Fits.look (h : Fits c { locked := true } w) (hd : c.connState ≠ .disconnecting) :
    Fits c { locked := true, stopping := true } w := by
  obtain ⟨hr, hw, hrw, hwr⟩ := h
  constructor <;> constructor <;> grind -ring -linarith

/-- The shutdown cancels the token source of the session; a claim on it is lost by that. -/
theorem Fits.cancel (h : Fits c { locked := true, stopping := true } w) :
    Fits { c with cancelled := Function.update c.cancelled c.disconnectCts true }
      { locked := true, stopping := true, cancels := true } w := by
  obtain ⟨hr, hw, hrw, hwr⟩ := h
  have hwl : w.locked = false := hrw.lock rfl
  have hmono : ∀ k, Function.update c.cancelled c.disconnectCts true k = false → c.cancelled k = false := by
    intro k hk
    by_cases e : k = c.disconnectCts
    · simp [e] at hk
    · simpa [Function.update_of_ne e] using hk
  constructor <;> constructor <;> grind -ring -linarith

/-- The event is signaled: no start and no attempt is in progress, since those that have reset it
have not set it, and one that has not yet reset it would hold the lock. -/
theorem Fits.pass (h : Fits c r w) (hl : r.locked = true) (he : c.startCompleted = true)
    (hr : r.phase = none) (hc : c.connState ≠ .connecting) :
    Fits c { r with passed := true } w := by
  obtain ⟨hr, hw, hrw, hwr⟩ := h
  have hwl : w.locked = false := hrw.lock hl
  have hwp : w.phase = none := by
    by_contra hp
    rcases hw.reset hp with hu | hu
    · simpa [he] using (hw.unset hu).1
    · simp [hwl] at hu
  constructor <;> constructor <;> grind -ring -linarith

/-- The last look at the state: what is left are connected and reconnecting. -/
theorem Fits.settle (h : Fits c { locked := true, stopping := true, cancels := true, passed := true } w)
    (hd : c.connState ≠ .disconnected) :
    Fits c { locked := true, stopping := true, cancels := true, passed := true, closing := true } w := by
  obtain ⟨hr, hw, hrw, hwr⟩ := h
  have h1 := (hr.passed rfl).2
  have h2 := (hr.stopping rfl).2
  have hc : c.connState = .connected ∨ c.connState = .reconnecting := by
    cases hs : c.connState <;> simp_all
  constructor <;> constructor <;> grind -ring -linarith

/-- The state becomes disconnecting.  Nobody is in the middle of a start or an attempt, and a lost
connection is not continued since its token source is cancelled. -/
theorem Fits.exchange
    (h : Fits c { locked := true, stopping := true, cancels := true, passed := true, closing := true } w) :
    Fits { c with connState := .disconnecting } { locked := true } w := by
  obtain ⟨hr, hw, hrw, hwr⟩ := h
  have hwl : w.locked = false := hrw.lock rfl
  have hwp : w.phase = none := hrw.passed rfl
  have hcan := (hr.cancels rfl).2
  have hwo : ¬ w.Owns c := by
    rintro (ho | ⟨k, hk, hck⟩)
    · simpa [hwl] using hw.lost ho
    · rw [hw.watch k hk hck, hcan] at hck; cases hck
  constructor <;> constructor <;> grind -ring -linarith

/-- The continuation of `stop()` ends the session. -/
theorem Fits.finish (h : Fits c { locked := true } w) (hc : c.connState = .disconnecting) :
    Fits { c with connState := .disconnected } { locked := true } w := by
  have hwp : w.phase = none := h.free (.inr hc)
  obtain ⟨hr, hw, hrw, hwr⟩ := h
  have hwl : w.locked = false := hrw.lock rfl
  have hwo : ¬ w.Owns c := fun ho => by simpa [hc] using hw.owns ho
  constructor <;> constructor <;> grind -ring -linarith

/-! ### A lost connection -/

theorem Fits.lose (h : Fits c { locked := true, passed := true } w) (hc : c.connState = .connected) :
    Fits { c with connState := .reconnecting } { locked := true, lost := true } w := by
  obtain ⟨hr, hw, hrw, hwr⟩ := h
  have hwl : w.locked = false := hrw.lock rfl
  have hwp : w.phase = none := hrw.passed rfl
  have hwo : ¬ w.Owns c := fun ho => by simpa [hc] using hw.owns ho
  constructor <;> constructor <;> grind -ring -linarith

theorem Fits.capture (h : Fits c { locked := true, lost := true } w) :
    Fits c { locked := true, watch := some c.disconnectCts } w := by
  obtain ⟨hr, hw, hrw, hwr⟩ := h
  constructor <;> constructor <;> grind -ring -linarith

/-- The captured token source is not cancelled, and it stays so as long as the lock is held. -/
theorem Fits.recheck {k : ℕ} (h : Fits c { locked := true, watch := some k } w)
    (hk : c.cancelled k = false) : Fits c { locked := true, watch := some k, live := true } w := by
  obtain ⟨hr, hw, hrw, hwr⟩ := h
  constructor <;> constructor <;> grind -ring -linarith

/-- The attempt begins: the event is reset. -/
theorem Fits.attempt {k : ℕ} (h : Fits c { locked := true, watch := some k, live := true } w) :
    Fits { c with startCompleted := false }
      { locked := true, phase := some .reconnecting, unset := true } w := by
  obtain ⟨hr, hw, hrw, hwr⟩ := h
  obtain ⟨k', hk', hc⟩ := (hr.live rfl).2
  have ho : Role.Owns c { locked := true, watch := some k, live := true } := .inr ⟨k', hk', hc⟩
  have hs : c.connState = .reconnecting := hr.owns ho
  obtain ⟨hwp, hwo⟩ := hrw.owns ho
  have hwl : w.locked = false := hrw.lock rfl
  constructor <;> constructor <;> grind -ring -linarith [Phase.state]

/-- The attempt succeeds. -/
theorem Fits.regain (h : Fits c { phase := some .reconnecting, unset := true } w) :
    Fits { c with connState := .connected } { phase := some .connected, unset := true } w := by
  obtain ⟨hr, hw, hrw, hwr⟩ := h
  have hwp : w.phase = none := hrw.phase (by simp)
  have hwo : ¬ w.Owns c := fun ho => by simpa using (hwr.owns ho).1
  constructor <;> constructor <;> grind -ring -linarith [Phase.state]

end Rules

end SignalRClient.Connection
