import SignalRClient.Threads.Tokens
import SignalRClient.Transport.Steps

/-!
# The moves of a receive loop

From the `connect()` that makes its client on, a loop is in the hand of one `Holder` at a time: the call of
`connect()`, its connect task or its receive task, a continuation, a value continuation that has failed.

* `Event`: what is seen of a run.
* `held`: the loop that a holder has in hand, and its `Stage`.
* `Hands`: what one step can do to the loops; `next_hands`: no step does anything else.  What a holder does
  with its loop is a `Move`, which says what is seen of it.
-/

namespace SignalRClient.Transport

open Threads

variable {R : Type}

/-! ## Where a step comes from -/

section

variable {t : ℕ} {m m' : Mem} {p p' : Pc R} {i : Input R}

theorem next_cases (h : next t m p i = some (m', p')) :
    (∃ c f c', p.call = some c ∧ i = .go f ∧ runCall m c f = some (m', c') ∧ p' = ⟨p.frame, c'⟩) ∨
    (p.call = none ∧ p.frame.calls = true ∧ m.refs ≠ 0 ∧ m' = { m with refs := m.refs + 1 } ∧
      ((i = .connect ∧ p' = ⟨p.frame, some (.connect .lock)⟩) ∨
        (i = .disconnect ∧ p' = ⟨p.frame, some (.disconnect false .lock)⟩))) ∨
    (∃ f, p.call = none ∧ i = .go f ∧ runFrame m p.frame f = some (m', p')) ∨
    (p = {} ∧ enter m i = some (m', p')) := by
  obtain ⟨frame, call⟩ := p
  cases call with
  | some c =>
    cases i with
    | go f =>
      obtain ⟨⟨m₁, c₁⟩, hr, e⟩ := Option.map_eq_some_iff.mp h
      cases e
      exact .inl ⟨c, f, c₁, rfl, rfl, hr, rfl⟩
    | _ => cases h
  | none =>
    cases i with
    | connect =>
      simp only [next, Option.ite_none_right_eq_some, Option.some.injEq, Prod.mk.injEq] at h
      obtain ⟨⟨hf, hr⟩, rfl, rfl⟩ := h
      exact .inr (.inl ⟨rfl, hf, hr, rfl, .inl ⟨rfl, rfl⟩⟩)
    | disconnect =>
      simp only [next, Option.ite_none_right_eq_some, Option.some.injEq, Prod.mk.injEq] at h
      obtain ⟨⟨hf, hr⟩, rfl, rfl⟩ := h
      exact .inr (.inl ⟨rfl, hf, hr, rfl, .inr ⟨rfl, rfl⟩⟩)
    | go f => exact .inr (.inr (.inl ⟨f, rfl, rfl, h⟩))
    | _ =>
      cases frame with
      | idle => exact .inr (.inr (.inr ⟨rfl, h⟩))
      | _ => cases h

end

/-! ## What is seen of a run -/

/-- What is seen of the loops and of the transport. -/
inductive Event (R : Type) where
  /-- the loop of the `connect()` number `k` has its first receive task -/
  | started (k : ℕ)
  /-- a `receive()` of loop `k` is issued on a client -/
  | receive (k client : ℕ)
  /-- a client returns a response; `live`: its own loop is not cancelled -/
  | received (client : ℕ) (live : Bool) (response : R)
  /-- a response is passed to `process_response` -/
  | processed (k : ℕ) (response : R)
  /-- a receive task of the loop, or its value continuation, ends with a `task_canceled` of its own -/
  | canceled (k : ℕ)
  /-- `close()` throws as the loop is to report an error -/
  | closeThrew (k : ℕ)
  /-- the error callback is called -/
  | error (k : ℕ)
  /-- `disconnect()` cancels a token source -/
  | disconnected (k : ℕ)
  /-- the last reference to the transport is gone -/
  | destroyed
  deriving DecidableEq

def frameEvents (p : Frame R) (f : Option Fault) : List (Event R) :=
  match p with
  | .connected k (.receive client) => if f = none then [.receive k client, .started k] else []
  | .message i response .process =>
    if f = none then [.processed i.loop response] else if f = some .canceled then [.canceled i.loop] else []
  | .message i _ .processing => if f = some .canceled then [.canceled i.loop] else []
  | .message i _ (.receive client) =>
    if f = none then [.receive i.loop client] else if f = some .canceled then [.canceled i.loop] else []
  | .observe i .close => if f = none then [] else [.closeThrew i.loop]
  | .observe i .error => [.error i.loop]
  | _ => []

def stepEvents (m : Mem) (p : Pc R) (i : Input R) : List (Event R) :=
  match p.call, i with
  | some (.disconnect _ .cancel), _ => [.disconnected m.receiveLoopCts]
  | some _, _ => []
  | none, .go f => frameEvents p.frame f
  | none, .received r o =>
    match m.receiving r, o with
    | some i, .inl response => [.received i.client (!m.cancelled i.client) response]
    | some i, .inr .canceled => [.canceled i.loop]
    | _, _ => []
  | none, _ => []

def events (_ : ℕ) (m : Mem) (p : Pc R) (i : Input R) (m' : Mem) (_ : Pc R) : List (Event R) :=
  stepEvents m p i ++ if m.refs ≠ 0 ∧ m'.refs = 0 then [.destroyed] else []

/-- An event that does not speak of the end of a loop. -/
def Event.quiet : Event R → Bool
  | .started _ | .canceled _ | .closeThrew _ | .error _ => false
  | _ => true

/-! ## Who has the end of a loop in hand -/

/-- A pending `connect()` or `receive()` of a client, a value continuation that is over, a thread in a
continuation or in a call of `connect()`. -/
inductive Holder where
  | pending (k : ℕ) | receive (r : ℕ) | task (e : ℕ) | frame (t : ℕ) | call (t : ℕ)
  deriving DecidableEq

/-- How far a loop is: not begun, receiving, about to end without a word, about to report an error. -/
inductive Stage where
  | starting | looping | silent | failing
  deriving DecidableEq

def Fault.stage : Fault → Stage
  | .canceled => .silent
  | _ => .failing

/-- The loop that the continuation is to begin, to go on with or to end. -/
def Frame.hold? : Frame R → Option (ℕ × Stage)
  | .connected k p => match p with
    | .fetch | .receive _ | .cancel => some (k, .starting)
    | _ => none
  | .message i _ p => match p with
    | .release f => f.map fun f => (i.loop, f.stage)
    | _ => some (i.loop, .looping)
  | .observe i p => match p with
    | .quiet => some (i.loop, .silent)
    | .erroring => none
    | _ => some (i.loop, .failing)
  | .idle => none

def Call.hold? : Call → Option (ℕ × Stage)
  | .connect (.setClient k) | .connect (.connect k) => some (k, .starting)
  | _ => none

def inMem (m : Mem) : Holder → Option (ℕ × Stage)
  | .pending k => if m.connecting k then some (k, .starting) else none
  | .receive r => (m.receiving r).map fun i => (i.loop, .looping)
  | .task e => (m.ended e).bind fun x => x.2.map fun f => (x.1.loop, f.stage)
  | .frame _ | .call _ => none

/-- The loop whose end a holder has in hand, and how far it is. -/
def held (m : Mem) (pc : ℕ → Pc R) : Holder → Option (ℕ × Stage)
  | .frame t => (pc t).frame.hold?
  | .call t => (pc t).call.bind Call.hold?
  | h => inMem m h

section

variable {m m' : Mem} {pc : ℕ → Pc R} {t : ℕ} {p' : Pc R}

theorem inMem_receive (m : Mem) (i : Iteration) :
    inMem (m.receive i) = Function.update (inMem m) (.receive m.receives) (some (i.loop, .looping)) := by
  funext h
  rcases h with k | r | e | u | u
  · rfl
  · by_cases hr : r = m.receives
    · subst hr; simp [inMem, Mem.receive]
    · simp [inMem, Mem.receive, hr]
  · rfl
  · rfl
  · rfl

theorem inMem_finish (m : Mem) (i : Iteration) (f : Option Fault) :
    inMem (m.finish i f) =
      Function.update (inMem m) (.task m.endings) (f.map fun f => (i.loop, f.stage)) := by
  funext h
  rcases h with k | r | e | u | u
  · rfl
  · rfl
  · by_cases he : e = m.endings
    · subst he; simp [inMem, Mem.finish]
    · simp [inMem, Mem.finish, he]
  · rfl
  · rfl

/-- The step of a thread that changes one thing in the memory, and the frame of the thread. -/
theorem held_step {w : Holder} {v : Option (ℕ × Stage)} (hm : inMem m' = Function.update (inMem m) w v)
    (hw : ∀ u, w ≠ .frame u ∧ w ≠ .call u)
    (hc : p'.call.bind Call.hold? = (pc t).call.bind Call.hold?) :
    held m' (Function.update pc t p') =
      Function.update (Function.update (held m pc) w v) (.frame t) p'.frame.hold? := by
  have hmem : ∀ h, inMem m' h = if h = w then v else inMem m h := fun h => by
    rw [hm, Function.update_apply]
  funext h
  rcases h with k | r | e | u | u
  · simp [held, hmem, Function.update_apply]
  · simp [held, hmem, Function.update_apply]
  · simp [held, hmem, Function.update_apply]
  · by_cases hu : u = t
    · subst hu; simp [held]
    · have hne := (hw u).1.symm
      simp [held, hu, hne]
  · have hne := (hw u).2.symm
    by_cases hu : u = t
    · subst hu; simp [held, hne, hc]
    · simp [held, hu, hne]

/-- The step of a thread that changes nothing in the memory but, perhaps, the frame of the thread. -/
theorem held_frame (hm : inMem m' = inMem m) (hc : p'.call.bind Call.hold? = (pc t).call.bind Call.hold?) :
    held m' (Function.update pc t p') = Function.update (held m pc) (.frame t) p'.frame.hold? := by
  have hm' : inMem m' = Function.update (inMem m) (.pending 0) (inMem m (.pending 0)) := by
    rw [hm, Function.update_eq_self]
  have hstep : held m' (Function.update pc t p') = Function.update (Function.update (held m pc) (.pending 0)
      (inMem m (.pending 0))) (.frame t) p'.frame.hold? :=
    held_step hm' (fun u => ⟨by simp, by simp⟩) hc
  rw [hstep]
  congr 1
  exact Function.update_eq_self (Holder.pending 0) (held m pc)

end

/-! ## The moves of a loop -/

/-- What becomes of loop `k` in a step, whether its token source is cancelled by it, and what is seen of that. -/
inductive Move (m m' : Mem) (k : ℕ) : Stage → Option Stage → Bool → Option (Event R) → Prop
  | stay (x : Stage) : Move m m' k x (some x) false none
  | cancel : Move m m' k .failing (some .failing) true none
  | refuse (b : Bool) : Move m m' k .starting none b none
  | start : Move m m' k .starting (some .looping) false (some (.started k))
  | skip : m.cancelled k = true → Move m m' k .looping (some .silent) false none
  | canceled : Move m m' k .looping (some .silent) false (some (.canceled k))
  | fail : Move m m' k .looping (some .failing) false none
  | stop : m.cancelled k = true ∨ m.refs = 0 → Move m m' k .looping none false none
  | quiet : Move m m' k .silent none true none
  | closeThrew : Move m m' k .failing none false (some (.closeThrew k))
  | gone : m.refs = 0 → Move m m' k .failing none false none
  | error : Move m m' k .failing none false (some (.error k))

/-- What a step does to the loops. -/
inductive Hands (m m' : Mem) (H H' : Holder → Option (ℕ × Stage)) (l : List (Event R)) : Prop where
  | keep : H' = H → (∀ e ∈ l, e.quiet = true) → m'.connects = m.connects →
      (m'.cancelled = m.cancelled ∨
        (.disconnected m.receiveLoopCts ∈ l ∧ m'.cancelled = (m.cancel m.receiveLoopCts).cancelled)) →
      Hands m m' H H' l
  | give (t : ℕ) : H' = Function.update H (.call t) (some (m.connects + 1, .starting)) → H (.call t) = none →
      l = [] → m'.connects = m.connects + 1 → m'.cancelled = m.cancelled → Hands m m' H H' l
  | move (a b : Holder) (k : ℕ) (x : Stage) (y : Option Stage) (c : Bool) (e : Option (Event R)) :
      H a = some (k, x) → (H b = none ∨ b = a) → H' = hand H a b (y.map fun y => (k, y)) →
      Move m m' k x y c e → (∀ z ∈ l, z.quiet = true ∨ e = some z) → (∀ z, e = some z → z ∈ l) →
      m'.connects = m.connects → m'.cancelled = (if c then (m.cancel k).cancelled else m.cancelled) →
      Hands m m' H H' l

/-- The numbers of the tasks to come are free. -/
structure Bounded (m : Mem) : Prop where
  receiving : ∀ r, m.receives ≤ r → m.receiving r = none
  ended : ∀ e, m.endings ≤ e → m.ended e = none

section

variable {m m' : Mem} {pc : ℕ → Pc R} {t : ℕ} {p p' : Pc R} {i : Input R}

theorem quiet_destroyed {l : List (Event R)} {c : Prop} [Decidable c] (h : ∀ e ∈ l, e.quiet = true) :
    ∀ e ∈ l ++ (if c then [Event.destroyed] else []), e.quiet = true := by
  intro e he
  rcases List.mem_append.mp he with he | he
  · exact h e he
  · split at he
    · rw [List.mem_singleton.mp he]; rfl
    · cases he

/-- The step of a frame that hands its loop on to itself. -/
theorem hands_frame {k : ℕ} {x : Stage} {y : Option Stage} {c : Bool} {e : Option (Event R)} {l : List (Event R)}
    (hm : inMem m' = inMem m) (hc : p'.call.bind Call.hold? = (pc t).call.bind Call.hold?)
    (hx : (pc t).frame.hold? = some (k, x)) (hy : p'.frame.hold? = y.map fun y => (k, y))
    (hmove : Move m m' k x y c e) (hq : ∀ z ∈ l, z.quiet = true ∨ e = some z) (he : ∀ z, e = some z → z ∈ l)
    (hn : m'.connects = m.connects)
    (hcan : m'.cancelled = (if c then (m.cancel k).cancelled else m.cancelled)) :
    Hands m m' (held m pc) (held m' (Function.update pc t p')) l := by
  refine .move (.frame t) (.frame t) k x y c e hx (.inr rfl) ?_ hmove hq he hn hcan
  rw [held_frame hm hc, hand_self, hy]

/-- … or to the memory. -/
theorem hands_toMem {w : Holder} {k : ℕ} {x : Stage} {y : Stage} {e : Option (Event R)} {l : List (Event R)}
    (hm : inMem m' = Function.update (inMem m) w (some (k, y)))
    (hw : ∀ u, w ≠ .frame u ∧ w ≠ .call u) (hfree : inMem m w = none)
    (hc : p'.call.bind Call.hold? = (pc t).call.bind Call.hold?)
    (hx : (pc t).frame.hold? = some (k, x)) (hy : p'.frame.hold? = none)
    (hmove : Move m m' k x (some y) false e) (hq : ∀ z ∈ l, z.quiet = true ∨ e = some z)
    (he : ∀ z, e = some z → z ∈ l) (hn : m'.connects = m.connects) (hcan : m'.cancelled = m.cancelled) :
    Hands m m' (held m pc) (held m' (Function.update pc t p')) l := by
  have hwt := (hw t).1
  have hheld : held m pc w = none := by
    rcases w with k | r | e | u | u
    · exact hfree
    · exact hfree
    · exact hfree
    · exact absurd rfl (hw u).1
    · exact absurd rfl (hw u).2
  refine .move (.frame t) w k x (some y) false e hx (.inl hheld) ?_ hmove hq he hn hcan
  rw [held_step hm hw hc, hy, hand]
  exact Function.update_comm hwt _ _ _

/-- … or from the memory to the frame. -/
theorem hands_fromMem {w : Holder} {k : ℕ} {x : Stage} {y : Option Stage} {l : List (Event R)}
    (hm : inMem m' = Function.update (inMem m) w none) (hw : ∀ u, w ≠ .frame u ∧ w ≠ .call u)
    (hc : p'.call.bind Call.hold? = (pc t).call.bind Call.hold?)
    (hx : inMem m w = some (k, x)) (hfree : (pc t).frame.hold? = none)
    (hy : p'.frame.hold? = y.map fun y => (k, y)) (hmove : Move m m' k x y false (none : Option (Event R)))
    (hq : ∀ z ∈ l, z.quiet = true) (hn : m'.connects = m.connects) (hcan : m'.cancelled = m.cancelled) :
    Hands m m' (held m pc) (held m' (Function.update pc t p')) l := by
  have hheld : held m pc w = some (k, x) := by
    rcases w with k | r | e | u | u
    · exact hx
    · exact hx
    · exact hx
    · exact absurd rfl (hw u).1
    · exact absurd rfl (hw u).2
  refine .move w (.frame t) k x y false none hheld (.inl hfree) ?_ hmove (fun z hz => .inl (hq z hz)) nofun hn hcan
  rw [held_step hm hw hc, hand, hy]

/-- A step that the loops do not take part in. -/
theorem hands_keep {l : List (Event R)} (hm : inMem m' = inMem m)
    (hc : p'.call.bind Call.hold? = (pc t).call.bind Call.hold?) (hf : p'.frame.hold? = (pc t).frame.hold?)
    (hq : ∀ e ∈ l, e.quiet = true) (hn : m'.connects = m.connects)
    (hcan : m'.cancelled = m.cancelled ∨
      (.disconnected m.receiveLoopCts ∈ l ∧ m'.cancelled = (m.cancel m.receiveLoopCts).cancelled)) :
    Hands m m' (held m pc) (held m' (Function.update pc t p')) l := by
  refine .keep ?_ hq hn hcan
  rw [held_frame hm hc, hf]
  exact Function.update_eq_self (Holder.frame t) (held m pc)

/-- The step of a call. -/
theorem held_call (q : Option Call) (hm : inMem m' = inMem m) :
    held m' (Function.update pc t ⟨(pc t).frame, q⟩) =
      Function.update (held m pc) (.call t) (q.bind Call.hold?) := by
  funext h
  rcases h with k | r | e | u | u
  · simp [held, hm]
  · simp [held, hm]
  · simp [held, hm]
  · by_cases hu : u = t
    · subst hu; simp [held]
    · simp [held, hu]
  · by_cases hu : u = t
    · subst hu; simp [held]
    · simp [held, hu]

end

/-! ## Every step -/

/-- The event of the last reference. -/
def destruction (m m' : Mem) : List (Event R) := if m.refs ≠ 0 ∧ m'.refs = 0 then [.destroyed] else []

theorem quiet_destruction {m m' : Mem} {l : List (Event R)} (h : ∀ e ∈ l, e.quiet = true) :
    ∀ e ∈ l ++ destruction m m', e.quiet = true :=
  quiet_destroyed h

section

variable {m m' : Mem} {pc : ℕ → Pc R} {t : ℕ} {q : Option Call} {f : Option Fault}

theorem release_hold : m.release.2.bind Call.hold? = none := by
  simp only [Mem.release]
  split <;> rfl

theorem held_call_self {c : Call} (hc : (pc t).call = some c) (hm : inMem m' = inMem m)
    (hq : q.bind Call.hold? = c.hold?) : held m' (Function.update pc t ⟨(pc t).frame, q⟩) = held m pc := by
  have hheld : held m pc (.call t) = c.hold? := by simp [held, hc]
  rw [held_call q hm, hq, ← hheld]
  exact Function.update_eq_self (Holder.call t) (held m pc)

/-- The steps of a call of `connect()`. -/
theorem hands_connect {p : ConnectPc} (hu : Unique fun h => (held m pc h).map Prod.fst)
    (hc : (pc t).call = some (.connect p)) (h : CallStep m (.connect p) f m' q) :
    Hands m m' (held m pc) (held m' (Function.update pc t ⟨(pc t).frame, q⟩)) (destruction m m' : List (Event R)) := by
  have hq : ∀ e ∈ (destruction m m' : List (Event R)), e.quiet = true := by
    simpa using quiet_destruction (m := m) (l := ([] : List (Event R))) (by simp)
  have hheld : held m pc (.call t) = Call.hold? (.connect p) := by simp [held, hc]
  cases h with
  | lock | accept | reject | noClient | setClient | setCts | unlock | unlockThrow =>
    exact .keep (held_call_self hc rfl rfl) hq rfl (.inl rfl)
  | returned | thrown => exact .keep (held_call_self hc rfl release_hold) hq rfl (.inl rfl)
  | make =>
    refine .give t (held_call _ rfl) hheld ?_ rfl rfl
    exact if_neg fun hd => hd.1 hd.2
  | @attach k =>
    have hk : held m pc (.call t) = some (k, .starting) := hheld
    have hfree : held m pc (.pending k) = none := by
      by_contra hb
      obtain ⟨x, hx⟩ := Option.ne_none_iff_exists'.mp hb
      have hk' : x.1 = k := by
        simp only [held, inMem, Option.ite_none_right_eq_some, Option.some.injEq] at hx
        rw [← hx.2]
      have := hu (.pending k) (.call t) k (by simp [hx, hk']) (by simp [hk])
      cases this
    refine .move (.call t) (.pending k) k .starting (some .starting) false none hk (.inl hfree) ?_
      (.stay _) (fun z hz => .inl (hq z hz)) nofun rfl rfl
    funext h
    rcases h with j | r | e | u | u
    · by_cases hj : j = k
      · subst hj; simp [held, inMem, hand]
      · simp [held, inMem, hand, hj]
    · simp [held, inMem, hand]
    · simp [held, inMem, hand]
    · by_cases hu : u = t
      · subst hu; simp [held, hand]
      · simp [held, hand, hu]
    · by_cases hu : u = t
      · subst hu; simp [held, hand, Call.hold?]
      · simp [held, hand, hu]
  | @noTask g k =>
    have hk : held m pc (.call t) = some (k, .starting) := hheld
    refine .move (.call t) (.call t) k .starting none false none hk (.inr rfl) ?_ (.refuse _)
      (fun z hz => .inl (hq z hz)) nofun rfl rfl
    rw [held_call _ rfl, hand_self]
    rfl

/-- A call of `disconnect()` leaves the loops to their holders, and all numbers. -/
theorem disconnect_keep {d : Bool} {p : DisconnectPc} (h : CallStep m (.disconnect d p) f m' q) :
    inMem m' = inMem m ∧ q.bind Call.hold? = none ∧ m'.connects = m.connects ∧
      (m'.cancelled = m.cancelled ∨ (p = .cancel ∧ m'.cancelled = (m.cancel m.receiveLoopCts).cancelled)) := by
  cases h with
  | cancel => exact ⟨rfl, rfl, rfl, .inr ⟨rfl, rfl⟩⟩
  | stopped => exact ⟨rfl, release_hold, rfl, .inl rfl⟩
  | _ => exact ⟨rfl, rfl, rfl, .inl rfl⟩

theorem hands_disconnect {d : Bool} {p : DisconnectPc} (hc : (pc t).call = some (.disconnect d p))
    (h : CallStep m (.disconnect d p) f m' q) :
    Hands m m' (held m pc) (held m' (Function.update pc t ⟨(pc t).frame, q⟩))
      ((if p = .cancel then [Event.disconnected m.receiveLoopCts] else []) ++ destruction m m' : List (Event R)) := by
  have hq : ∀ e ∈ (if p = .cancel then [(Event.disconnected m.receiveLoopCts : Event R)] else []) ++
      destruction m m', e.quiet = true := by
    refine quiet_destruction fun e he => ?_
    split at he
    · rw [List.mem_singleton.mp he]; rfl
    · cases he
  obtain ⟨hm, hold, hn, hcan⟩ := disconnect_keep h
  refine .keep (held_call_self hc hm hold) hq hn ?_
  rcases hcan with hcan | ⟨rfl, hcan⟩
  · exact .inl hcan
  · exact .inr ⟨by simp, hcan⟩

theorem inMem_finish_none (hb : Bounded m) (i : Iteration) : inMem (m.finish i none) = inMem m := by
  rw [inMem_finish, Function.update_eq_self_iff]
  simp [inMem, hb.ended]

theorem inMem_receives (hb : Bounded m) : inMem m (.receive m.receives) = none := by
  simp [inMem, hb.receiving]

theorem inMem_endings (hb : Bounded m) : inMem m (.task m.endings) = none := by
  simp [inMem, hb.ended]

section

variable {p' : Pc R}

/-- What a value continuation does when what it calls fails. -/
theorem hands_throw {i : Iteration} {response : R} {p : MessagePc} {f : Fault} (hc : (pc t).call = none)
    (hf : (pc t).frame = .message i response p) (hp : ∀ g, p ≠ .release g) :
    Hands m m (held m pc) (held m (Function.update pc t ⟨.message i response (.release (some f)), none⟩))
      ((if f = .canceled then [.canceled i.loop] else [] : List (Event R)) ++ destruction m m) := by
  have hx : (pc t).frame.hold? = some (i.loop, .looping) := by
    rw [hf]
    cases p with
    | release g => exact absurd rfl (hp g)
    | _ => rfl
  have hd : (destruction m m : List (Event R)) = [] := if_neg fun h => h.1 h.2
  rw [hd, List.append_nil]
  by_cases h : f = .canceled
  · subst h
    exact hands_frame rfl (by rw [hc]) hx rfl .canceled (by simp) (by simp) rfl rfl
  · have hs : f.stage = .failing := by cases f with
      | canceled => exact absurd rfl h
      | std | other => rfl
    rw [if_neg h]
    refine hands_frame rfl (by rw [hc]) hx ?_ .fail (by simp) (by simp) rfl rfl
    simp [Frame.hold?, hs]

/-- The steps of a continuation. -/
theorem hands_continuation {q : Frame R} {f : Option Fault} (hb : Bounded m) (hc : (pc t).call = none)
    (hf : (pc t).frame = q) (h : FrameStep m q f m' p') :
    Hands m m' (held m pc) (held m' (Function.update pc t p')) (frameEvents q f ++ destruction m m') := by
  have hx : (pc t).frame.hold? = q.hold? := by rw [hf]
  cases h with
  | fetchFirst | set | setException | begin | acquire | processing | goOn | fetch | close | report =>
    exact hands_keep rfl (by rw [hc]) (by rw [hx]; rfl) (quiet_destruction (by simp [frameEvents])) rfl (.inl rfl)
  | process =>
    exact hands_keep rfl (by rw [hc]) (by rw [hx]; rfl)
      (quiet_destruction (by simp [frameEvents, Event.quiet])) rfl (.inl rfl)
  | release | reported =>
    exact hands_keep rfl (by rw [hc]; exact release_hold) (by rw [hx]; rfl)
      (quiet_destruction (by simp [frameEvents])) rfl (.inl rfl)
  -- the loop begins, or fails to
  | @receiveFirst k client =>
    refine hands_toMem (inMem_receive m ⟨k, client⟩) (fun u => ⟨by simp, by simp⟩) (inMem_receives hb)
      (by rw [hc]) (by rw [hx]; rfl) rfl .start ?_ ?_ rfl rfl
    · simp [frameEvents, destruction, Mem.receive, Event.quiet]
    · simp [frameEvents]
  | refuse =>
    exact hands_keep rfl (by rw [hc]) (by rw [hx]; rfl) (quiet_destruction (by simp [frameEvents])) rfl (.inl rfl)
  | unhandled =>
    exact hands_frame rfl (by rw [hc]) (by rw [hx]; rfl) rfl (.refuse false)
      (fun z hz => .inl (quiet_destruction (by simp [frameEvents]) z hz)) nofun rfl rfl
  | cancel =>
    exact hands_frame rfl (by rw [hc]) (by rw [hx]; rfl) rfl (.refuse true)
      (fun z hz => .inl (quiet_destruction (by simp [frameEvents]) z hz)) nofun rfl rfl
  -- a response is processed
  | @skip f i x hcan =>
    exact hands_toMem (inMem_finish m i (some .canceled)) (fun u => ⟨by simp, by simp⟩) (inMem_endings hb)
      (by rw [hc]) (by rw [hx]; rfl) rfl (.skip hcan)
      (fun z hz => .inl (quiet_destruction (by simp [frameEvents]) z hz)) nofun rfl rfl
  | expired hr =>
    exact hands_frame (inMem_finish_none hb _) (by rw [hc]) (by rw [hx]; rfl) rfl (.stop (.inr hr))
      (fun z hz => .inl (quiet_destruction (by simp [frameEvents]) z hz)) nofun rfl rfl
  | throw hp =>
    rcases hp with rfl | rfl | ⟨client, rfl⟩
    all_goals simpa [frameEvents] using hands_throw hc hf (by simp)
  | stop hcan =>
    exact hands_frame rfl (by rw [hc]) (by rw [hx]; rfl) rfl (.stop (.inl hcan))
      (fun z hz => .inl (quiet_destruction (by simp [frameEvents]) z hz)) nofun rfl rfl
  | @receive i x client =>
    exact hands_toMem (inMem_receive m ⟨i.loop, client⟩) (fun u => ⟨by simp, by simp⟩) (inMem_receives hb)
      (by rw [hc]) (by rw [hx]; rfl) rfl (.stay _)
      (fun z hz => .inl (quiet_destruction (by simp [frameEvents, Event.quiet]) z hz)) nofun rfl rfl
  | @finish f g i x =>
    cases g with
    | none =>
      exact hands_keep (inMem_finish_none hb i) (by rw [hc]; exact release_hold) (by rw [hx]; rfl)
        (quiet_destruction (by simp [frameEvents])) rfl (.inl rfl)
    | some g =>
      exact hands_toMem (inMem_finish m i (some g)) (fun u => ⟨by simp, by simp⟩) (inMem_endings hb)
        (by rw [hc]; exact release_hold) (by rw [hx]; rfl) rfl (.stay _)
        (fun z hz => .inl (quiet_destruction (by simp [frameEvents]) z hz)) nofun rfl rfl
  -- the end of the loop is observed
  | quiet =>
    exact hands_frame rfl (by rw [hc]) (by rw [hx]; rfl) rfl .quiet
      (fun z hz => .inl (quiet_destruction (by simp [frameEvents]) z hz)) nofun rfl rfl
  | fail =>
    exact hands_frame rfl (by rw [hc]) (by rw [hx]; rfl) rfl .cancel
      (fun z hz => .inl (quiet_destruction (by simp [frameEvents]) z hz)) nofun rfl rfl
  | noClose =>
    exact hands_frame rfl (by rw [hc]) (by rw [hx]; rfl) rfl .closeThrew
      (by simp [frameEvents, destruction]) (by simp [frameEvents]) rfl rfl
  | gone hr =>
    exact hands_frame rfl (by rw [hc]) (by rw [hx]; rfl) rfl (.gone hr)
      (fun z hz => .inl (quiet_destruction (by simp [frameEvents]) z hz)) nofun rfl rfl
  | error =>
    exact hands_frame rfl (by rw [hc]) (by rw [hx]; rfl) rfl .error
      (by simp [frameEvents, destruction]) (by simp [frameEvents]) rfl rfl

/-- A receive task ends, and the value continuation is skipped or fails with it. -/
theorem hands_ended {r : ℕ} {i : Iteration} {f : Fault} {e : Option (Event R)} {l : List (Event R)}
    (hb : Bounded m) (hr : m.receiving r = some i) (hpc : pc t = {})
    (hmove : Move m ({ m with receiving := Function.update m.receiving r none }.finish i (some f)) i.loop
      .looping (some f.stage) false e)
    (hq : ∀ z ∈ l, z.quiet = true ∨ e = some z) (he : ∀ z, e = some z → z ∈ l) :
    Hands m ({ m with receiving := Function.update m.receiving r none }.finish i (some f)) (held m pc)
      (held ({ m with receiving := Function.update m.receiving r none }.finish i (some f))
        (Function.update pc t {})) l := by
  refine .move (.receive r) (.task m.endings) i.loop .looping (some f.stage) false e ?_ (.inl ?_) ?_ hmove hq he
    rfl rfl
  · simp [held, inMem, hr]
  · exact inMem_endings hb
  · rw [← hpc, Function.update_eq_self]
    funext h
    rcases h with k | r' | e | u | u
    · rfl
    · by_cases hr' : r' = r
      · subst hr'; simp [held, inMem, Mem.finish, hand]
      · simp [held, inMem, Mem.finish, hand, hr']
    · by_cases he : e = m.endings
      · subst he; simp [held, inMem, Mem.finish, hand]
      · simp [held, inMem, Mem.finish, hand, he]
    · simp [held, hand]
    · simp [held, hand]

theorem inMem_connecting (m : Mem) (k : ℕ) :
    inMem { m with connecting := Function.update m.connecting k false } = Function.update (inMem m) (.pending k) none := by
  funext h
  rcases h with j | r | e | u | u
  · by_cases hj : j = k
    · subst hj; simp [inMem]
    · simp [inMem, hj]
  all_goals rfl

theorem inMem_receiving (m : Mem) (r : ℕ) :
    inMem { m with receiving := Function.update m.receiving r none } = Function.update (inMem m) (.receive r) none := by
  funext h
  rcases h with k | r' | e | u | u
  · rfl
  · by_cases hr' : r' = r
    · subst hr'; simp [inMem]
    · simp [inMem, hr']
  all_goals rfl

theorem inMem_ended (m : Mem) (e : ℕ) :
    inMem { m with ended := Function.update m.ended e none } = Function.update (inMem m) (.task e) none := by
  funext h
  rcases h with k | r | e' | u | u
  · rfl
  · rfl
  · by_cases he' : e' = e
    · subst he'; simp [inMem]
    · simp [inMem, he']
  all_goals rfl

/-- A response that arrives ends no loop. -/
theorem received_quiet {r : ℕ} {x : R} : ∀ z ∈ stepEvents m {} (.received r (.inl x)), z.quiet = true := by
  intro z hz
  simp only [stepEvents] at hz
  split at hz
  · rw [List.mem_singleton.mp hz]; rfl
  · simp_all
  · cases hz

/-- The first step of a continuation. -/
theorem hands_enter {i : Input R} (hb : Bounded m) (hpc : pc t = {}) (h : EnterStep m i m' p') :
    Hands m m' (held m pc) (held m' (Function.update pc t p')) (stepEvents m {} i ++ destruction m m') := by
  have hcall : (pc t).call.bind Call.hold? = none := by rw [hpc]; rfl
  have hframe : (pc t).frame.hold? = none := by rw [hpc]; rfl
  cases h with
  | drop =>
    exact hands_keep rfl (by rw [hcall]; exact release_hold) (by rw [hframe]; rfl)
      (quiet_destruction (by simp [stepEvents])) rfl (.inl rfl)
  | connected hk | connectFailed _ hk =>
    exact hands_fromMem (y := some .starting) (inMem_connecting m _) (fun u => ⟨by simp, by simp⟩) (by rw [hcall]; rfl)
      (if_pos hk) hframe rfl (.stay _) (quiet_destruction (by simp [stepEvents])) rfl rfl
  | connectUnhandled hk =>
    exact hands_fromMem (y := none) (inMem_connecting m _) (fun u => ⟨by simp, by simp⟩) (by rw [hcall]; rfl)
      (if_pos hk) hframe rfl (.refuse _) (quiet_destruction (by simp [stepEvents])) rfl rfl
  | @received r j x hr =>
    exact hands_fromMem (w := .receive r) (y := some .looping) (inMem_receiving m r) (fun u => ⟨by simp, by simp⟩)
      (by rw [hcall]; rfl) (by simp [inMem, hr]) hframe rfl (.stay _) (quiet_destruction received_quiet) rfl rfl
  | @receiveFailed g r j hr =>
    rcases g with _ | _ | _
    · exact hands_ended hb hr hpc .canceled (by simp [stepEvents, hr, destruction, Mem.finish])
        (by simp [stepEvents, hr])
    · exact hands_ended hb hr hpc .fail (by simp [stepEvents, hr, destruction, Mem.finish]) nofun
    · exact hands_ended hb hr hpc .fail (by simp [stepEvents, hr, destruction, Mem.finish]) nofun
  | @observed e j he =>
    refine hands_keep ?_ (by rw [hcall]; rfl) (by rw [hframe]; rfl) (quiet_destruction (by simp [stepEvents])) rfl
      (.inl rfl)
    rw [inMem_ended, Function.update_eq_self_iff]
    simp [inMem, he]
  | @observeCanceled e j he =>
    exact hands_fromMem (x := .silent) (y := some .silent) (inMem_ended m e) (fun u => ⟨by simp, by simp⟩)
      (by rw [hcall]; rfl) (by simp [inMem, he, Fault.stage]) hframe rfl (.stay _)
      (quiet_destruction (by simp [stepEvents])) rfl rfl
  | @observeFailed g e j hg he =>
    have hs : g.stage = .failing := by
      cases g with
      | canceled => exact absurd rfl hg
      | std | other => rfl
    exact hands_fromMem (x := .failing) (y := some .failing) (inMem_ended m e) (fun u => ⟨by simp, by simp⟩)
      (by rw [hcall]; rfl) (by simp [inMem, he, hs]) hframe rfl (.stay _)
      (quiet_destruction (by simp [stepEvents])) rfl rfl

end

/-- **What every step does to the loops.** -/
theorem next_hands {p' : Pc R} {i : Input R} (hb : Bounded m) (hu : Unique fun h => (held m pc h).map Prod.fst)
    (h : next t m (pc t) i = some (m', p')) :
    Hands m m' (held m pc) (held m' (Function.update pc t p')) (events t m (pc t) i m' p') := by
  have hev : events t m (pc t) i m' p' = stepEvents m (pc t) i ++ destruction m m' := rfl
  rw [hev]
  rcases next_cases h with ⟨c, f, c', hc, rfl, hr, rfl⟩ | ⟨hc, hf, -, rfl, hp'⟩ | ⟨f, hc, rfl, hr⟩ | ⟨hpc, he⟩
  · cases c with
    | connect p =>
      have hl : stepEvents m (pc t) (.go f) = [] := by simp [stepEvents, hc]
      rw [hl]
      exact hands_connect hu hc (runCall_step hr)
    | disconnect d p =>
      have hl : stepEvents m (pc t) (.go f) = if p = .cancel then [.disconnected m.receiveLoopCts] else [] := by
        cases p <;> simp [stepEvents, hc]
      rw [hl]
      exact hands_disconnect hc (runCall_step hr)
  · rcases hp' with ⟨rfl, rfl⟩ | ⟨rfl, rfl⟩
    · have hl : stepEvents m (pc t) .connect = [] := by simp [stepEvents, hc]
      exact hands_keep rfl (by rw [hc]; rfl) rfl (quiet_destruction (by simp [hl])) rfl (.inl rfl)
    · have hl : stepEvents m (pc t) .disconnect = [] := by simp [stepEvents, hc]
      exact hands_keep rfl (by rw [hc]; rfl) rfl (quiet_destruction (by simp [hl])) rfl (.inl rfl)
  · have hl : stepEvents m (pc t) (.go f) = frameEvents (pc t).frame f := by simp [stepEvents, hc]
    rw [hl]
    exact hands_continuation hb hc rfl (runFrame_step hr)
  · rw [hpc]
    exact hands_enter hb hpc (enter_step he)

end

/-! ## The numbers of the tasks -/

section

variable {m m' : Mem} {p : Pc R} {f : Option Fault}

theorem Bounded.of_eq (hb : Bounded m) (hr : m'.receives = m.receives) (hri : m'.receiving = m.receiving)
    (he : m'.endings = m.endings) (hei : m'.ended = m.ended) : Bounded m' :=
  ⟨fun r h => by rw [hri]; exact hb.receiving r (by omega), fun e h => by rw [hei]; exact hb.ended e (by omega)⟩

theorem Bounded.receive (hb : Bounded m) (i : Iteration) : Bounded (m.receive i) := by
  refine ⟨fun r h => ?_, hb.ended⟩
  have hr : m.receives + 1 ≤ r := h
  have hne : r ≠ m.receives := by omega
  simp only [Mem.receive, Function.update_of_ne hne]
  exact hb.receiving r (by omega)

theorem Bounded.finish (hb : Bounded m) (i : Iteration) (f : Option Fault) : Bounded (m.finish i f) := by
  refine ⟨hb.receiving, fun e h => ?_⟩
  have he : m.endings + 1 ≤ e := h
  have hne : e ≠ m.endings := by omega
  simp only [Mem.finish, Function.update_of_ne hne]
  exact hb.ended e (by omega)

theorem Bounded.call {c : Call} {q : Option Call} (hb : Bounded m) (h : CallStep m c f m' q) : Bounded m' := by
  cases h <;> exact hb.of_eq rfl rfl rfl rfl

theorem Bounded.frame {p : Frame R} {p' : Pc R} (hb : Bounded m) (h : FrameStep m p f m' p') : Bounded m' := by
  cases h with
  | receiveFirst | receive => exact hb.receive _
  | skip | expired => exact hb.finish _ _
  | @finish f g i x => exact (hb.finish i g).of_eq rfl rfl rfl rfl
  | _ => exact hb.of_eq rfl rfl rfl rfl

theorem Bounded.receiving_none (hb : Bounded m) (r : ℕ) :
    Bounded { m with receiving := Function.update m.receiving r none } := by
  refine ⟨fun r' h => ?_, hb.ended⟩
  by_cases hr : r' = r
  · simp [hr]
  · simpa [hr] using hb.receiving r' h

theorem Bounded.ended_none (hb : Bounded m) (e : ℕ) :
    Bounded { m with ended := Function.update m.ended e none } := by
  refine ⟨hb.receiving, fun e' h => ?_⟩
  by_cases he : e' = e
  · simp [he]
  · simpa [he] using hb.ended e' h

theorem Bounded.enter {i : Input R} {p' : Pc R} (hb : Bounded m) (h : EnterStep m i m' p') : Bounded m' := by
  cases h with
  | drop | connected | connectFailed | connectUnhandled => exact hb.of_eq rfl rfl rfl rfl
  | receiveFailed => exact (hb.receiving_none _).finish _ _
  | received => exact hb.receiving_none _
  | observed | observeCanceled | observeFailed => exact hb.ended_none _

/-- The tasks are numbered in order. -/
theorem bounded_holds {ok : State Mem (Pc R) → Act (Input R) → Prop} {s : State Mem (Pc R)}
    (h : prog.Reach ok s) : Bounded s.mem := by
  refine h.invariant (J := fun s => Bounded s.mem) ⟨fun _ _ => rfl, fun _ _ => rfl⟩ ?_
  intro s a m p _ _ hb hn
  rcases next_cases (t := a.thread) hn with ⟨c, f, c', -, -, hr, -⟩ | ⟨-, -, -, rfl, -⟩ | ⟨f, -, -, hr⟩ | ⟨-, he⟩
  · exact hb.call (runCall_step hr)
  · exact hb.of_eq rfl rfl rfl rfl
  · exact hb.frame (runFrame_step hr)
  · exact hb.enter (enter_step he)

end

end SignalRClient.Transport
