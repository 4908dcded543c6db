import SignalRClient.Connection.Handshake

/-!
# The reconnect window

The numbers of a negotiation response become `int`s, of which `start()` makes `m_reconnect_window`, the time that
`try_reconnect` has.

* `sound_iff` — nothing is lost of the timeouts exactly when they are small enough;
* `Loop` — `try_reconnect` with a clock; its steps are those of the reconnecting thread of `prog`
  (`runError_of_attempt`);
* `tryReconnect_ends` — it stays within its window, and its result is the outcome of the last attempt.
-/

namespace SignalRClient.Connection

/-! ## The timeouts of a negotiation response -/

/-- `m_reconnect_window`.  The conversion of a number that does not fit is undefined, as is a sum of two
`int`s that does not; here the low 32 bits are kept. -/
def NegotiationResponse.reconnectWindow (r : NegotiationResponse) : Int32 :=
  Int32.ofInt r.disconnectTimeout + max (Int32.ofInt r.keepAliveTimeout) 0

/-- The number is a value of `int`. -/
def InInt (z : ℤ) : Prop := -2 ^ 31 ≤ z ∧ z < 2 ^ 31

/-- The timeouts of a body, in seconds.  Without keep-alive its timeout is 0. -/
structure Timeouts where
  disconnect : ℚ
  keepAlive : ℚ
  transportConnect : ℚ

/-- The body has these timeouts, and none is negative. -/
structure Timeouts.Of (T : Timeouts) (v : Json) : Prop where
  disconnect : (v.index? "DisconnectTimeout").bind Json.asDouble? = some T.disconnect
  keepAlive : (v.index? "KeepAliveTimeout").bind
    (fun k => if k.isNull then some 0 else k.asDouble?) = some T.keepAlive
  transportConnect : (v.index? "TransportConnectTimeout").bind Json.asDouble? = some T.transportConnect
  nonneg : 0 ≤ T.disconnect ∧ 0 ≤ T.keepAlive ∧ 0 ≤ T.transportConnect

/-- The window in milliseconds, as it should be. -/
def Timeouts.window (T : Timeouts) : ℤ := milliseconds T.disconnect + milliseconds T.keepAlive

/-- Nothing is lost on the way from the numbers of the body to `m_reconnect_window`. -/
structure Exact (T : Timeouts) (r : NegotiationResponse) : Prop where
  disconnect : InInt (milliseconds T.disconnect)
  keepAlive : InInt (milliseconds T.keepAlive)
  transportConnect : InInt (milliseconds T.transportConnect)
  sum : InInt ((Int32.ofInt r.disconnectTimeout).toInt + (max (Int32.ofInt r.keepAliveTimeout) 0).toInt)
  window : r.reconnectWindow.toInt = T.window
  nonneg : 0 ≤ r.reconnectWindow

/-- `start()` fails on the response, whatever else happens. -/
def Refused (r : NegotiationResponse) : Prop :=
  ∀ t m n c i m' p, next t m (.start n c (.startTransport r)) i = some (m', p) → p = .start n c .fail

/-- Negotiation fails, or the start does, or the timeouts are kept. -/
def Sound (parse : String → Option Json) (T : Timeouts) (body : String) : Prop :=
  (∃ e, negotiate parse body = .error e) ∨
    ∃ r, negotiate parse body = .ok r ∧ (Refused r ∨ Exact T r)

/-- The other fields of a body that the client goes on with. -/
structure Offers (v : Json) : Prop where
  connectionId : ∃ s, v.index? "ConnectionId" = some (.string s)
  connectionToken : ∃ s, v.index? "ConnectionToken" = some (.string s)
  protocolVersion : v.index? "ProtocolVersion" = some (.string protocol)
  tryWebSockets : v.index? "TryWebSockets" = some (.bool true)

/-- The timeouts are small enough. -/
def Timeouts.Small (T : Timeouts) : Prop := T.window < 2 ^ 31 ∧ milliseconds T.transportConnect < 2 ^ 31

theorem refused_iff {r : NegotiationResponse} : Refused r ↔ ¬ Suits r := by
  constructor
  · intro h hr
    have := h 0 {} 0 0 (.task .ok) {} (.start 0 0 .create) (by simp [next, runStart, hr.1, hr.2])
    cases this
  · intro h t m n c i m' p hn
    by_cases hc : m.crashed
    · simp [next, hc] at hn
    cases i with
    | call k => simp [next, hc] at hn
    | task o =>
      simp only [next, hc, Bool.false_eq_true, if_false, runStart] at hn
      split at hn
      · cases hn
        rfl
      split at hn
      · cases hn
        rfl
      rename_i hp
      split at hn
      · rename_i hw
        exact absurd ⟨by simpa using hp, hw⟩ h
      · cases hn
        rfl

theorem milliseconds_nonneg {q : ℚ} (h : 0 ≤ q) : 0 ≤ milliseconds q :=
  Int.tdiv_nonneg (Rat.num_nonneg.mpr (by positivity)) (Int.natCast_nonneg _)

theorem milliseconds_zero : milliseconds 0 = 0 := by
  simp [milliseconds]

section

variable {parse : String → Option Json} {body : String} {v : Json} {T : Timeouts} {r : NegotiationResponse}

theorem negotiate_eq (hv : parse body = some v) :
    negotiate parse body = (NegotiationResponse.ofJson v).elim (.error .json) .ok := by
  simp only [negotiate, hv, Option.bind_some]
  cases NegotiationResponse.ofJson v <;> rfl

theorem asString?_eq_some {w : Json} {s : String} : w.asString? = some s ↔ w = .string s := by
  cases w <;> simp [Json.asString?]

theorem asBool?_eq_some {w : Json} {b : Bool} : w.asBool? = some b ↔ w = .bool b := by
  cases w <;> simp [Json.asBool?]

/-- The keep-alive timeout of the response: that of the body, or -1 for none. -/
theorem Timeouts.Of.keepAliveTimeout? (hT : T.Of v) :
    ∃ k, Connection.keepAliveTimeout? v = some k ∧ max k 0 = milliseconds T.keepAlive ∧ -1 ≤ k := by
  obtain ⟨w, hw, hk⟩ := Option.bind_eq_some_iff.mp hT.keepAlive
  by_cases hn : w.isNull
  · rw [if_pos hn, Option.some.injEq] at hk
    refine ⟨-1, by simp [Connection.keepAliveTimeout?, hw, hn], ?_, le_rfl⟩
    rw [← hk, milliseconds_zero]
    decide
  · rw [if_neg hn] at hk
    have h0 := milliseconds_nonneg hT.nonneg.2.1
    refine ⟨milliseconds T.keepAlive, ?_, max_eq_left h0, by omega⟩
    simp [Connection.keepAliveTimeout?, hw, hn, hk]

/-- What the response takes over from the body. -/
theorem Timeouts.Of.ofJson (hT : T.Of v) (hr : NegotiationResponse.ofJson v = some r) :
    r.disconnectTimeout = milliseconds T.disconnect ∧ max r.keepAliveTimeout 0 = milliseconds T.keepAlive ∧
      -1 ≤ r.keepAliveTimeout ∧ (Suits r → Offers v) := by
  obtain ⟨k, hk, hmax, hle⟩ := hT.keepAliveTimeout?
  obtain ⟨w, hw, hd⟩ := Option.bind_eq_some_iff.mp hT.disconnect
  simp only [NegotiationResponse.ofJson, Option.bind_eq_bind, Option.bind_eq_some_iff, Option.pure_def,
    Option.some.injEq, asString?_eq_some, asBool?_eq_some, hw, hk] at hr
  obtain ⟨_, hi, id, rfl, _, htok, tok, rfl, _, rfl, _, hd', _, rfl, _, hpv, pv, rfl, _, hws, ws, rfl, _, -, _, -,
    rfl⟩ := hr
  rw [hd, Option.some.injEq] at hd'
  subst hd'
  refine ⟨rfl, hmax, hle, fun hs => ⟨⟨_, hi⟩, ⟨_, htok⟩, ?_, ?_⟩⟩
  · rw [hpv, ← hs.1]
  · rw [hws, ← hs.2]

/-- A body with everything the client needs is accepted. -/
theorem Timeouts.Of.suits (hT : T.Of v) (ho : Offers v) : ∃ r, NegotiationResponse.ofJson v = some r ∧ Suits r := by
  obtain ⟨k, hk, -, -⟩ := hT.keepAliveTimeout?
  obtain ⟨w, hw, hd⟩ := Option.bind_eq_some_iff.mp hT.disconnect
  obtain ⟨x, hx, ht⟩ := Option.bind_eq_some_iff.mp hT.transportConnect
  obtain ⟨id, hi⟩ := ho.connectionId
  obtain ⟨tok, htok⟩ := ho.connectionToken
  refine ⟨⟨id, tok, milliseconds T.disconnect, k, protocol, true, milliseconds T.transportConnect⟩, ?_, rfl, rfl⟩
  simp [NegotiationResponse.ofJson, hi, htok, hw, hd, hk, ho.protocolVersion, ho.tryWebSockets, hx, ht,
    Json.asString?, Json.asBool?]

/-! ## The conversions -/

theorem toInt_ofInt_of_inInt {z : ℤ} (h : InInt z) : (Int32.ofInt z).toInt = z := Int32.toInt_ofInt_of_le h.1 h.2

theorem toInt_max_zero (x : Int32) : (max x 0).toInt = max x.toInt 0 := by
  have h : max x 0 = if x ≤ 0 then 0 else x := rfl
  have h0 : (0 : Int32).toInt = 0 := rfl
  rw [h]
  split
  · rename_i hx
    have := Int32.le_iff_toInt_le.mp hx
    omega
  · rename_i hx
    have := mt Int32.le_iff_toInt_le.mpr hx
    omega

/-- The window is kept when the sum of the timeouts is a value of `int`. -/
theorem exact_of_small (hT : T.Of v) (hr : NegotiationResponse.ofJson v = some r) (hs : T.Small) : Exact T r := by
  obtain ⟨hd, hk, hle, -⟩ := hT.ofJson hr
  have hd0 := milliseconds_nonneg hT.nonneg.1
  have hk0 := milliseconds_nonneg hT.nonneg.2.1
  have ht0 := milliseconds_nonneg hT.nonneg.2.2
  obtain ⟨hw, ht⟩ := hs
  rw [Timeouts.window] at hw
  have hfd : InInt r.disconnectTimeout := ⟨by omega, by omega⟩
  have hfk : InInt r.keepAliveTimeout := ⟨by omega, by omega⟩
  have hsum : (Int32.ofInt r.disconnectTimeout).toInt + (max (Int32.ofInt r.keepAliveTimeout) 0).toInt = T.window := by
    rw [toInt_max_zero, toInt_ofInt_of_inInt hfd, toInt_ofInt_of_inInt hfk, hk, hd, Timeouts.window]
  have hwin : r.reconnectWindow.toInt = T.window := by
    rw [NegotiationResponse.reconnectWindow, Int32.toInt_add, hsum]
    exact Int.bmod_eq_of_le (by rw [Timeouts.window]; omega) (by rw [Timeouts.window]; omega)
  refine ⟨⟨by omega, by omega⟩, ⟨by omega, by omega⟩, ⟨by omega, ht⟩, ?_, hwin, ?_⟩
  · rw [hsum]
    exact ⟨by rw [Timeouts.window]; omega, by rw [Timeouts.window]; omega⟩
  · rw [Int32.le_iff_toInt_le, hwin, Timeouts.window]
    have h0 : (0 : Int32).toInt = 0 := rfl
    omega

theorem small_of_exact (h : Exact T r) : T.Small := by
  refine ⟨?_, h.transportConnect.2⟩
  have := r.reconnectWindow.toInt_lt
  rw [← h.window]
  exact this

/-- **The timeouts of a body are kept exactly when they are small enough**, unless something else in the body
makes negotiation or the start fail. -/
theorem sound_iff (hv : parse body = some v) (hT : T.Of v) : Sound parse T body ↔ (Offers v → T.Small) := by
  have hn : negotiate parse body = _ := negotiate_eq hv
  constructor
  · intro h ho
    obtain ⟨r, hr, hs⟩ := hT.suits ho
    rw [hr] at hn
    rcases h with ⟨e, he⟩ | ⟨r', hr', hrefused | hexact⟩
    · rw [hn] at he
      cases he
    · rw [hn] at hr'
      cases hr'
      exact absurd hs (refused_iff.mp hrefused)
    · rw [hn] at hr'
      cases hr'
      exact small_of_exact hexact
  · intro h
    cases hr : NegotiationResponse.ofJson v with
    | none =>
      rw [hr] at hn
      exact .inl ⟨_, hn⟩
    | some r =>
      rw [hr] at hn
      refine .inr ⟨r, hn, ?_⟩
      by_cases hs : Suits r
      · exact .inr (exact_of_small hT hr (h ((hT.ofJson hr).2.2.2 hs)))
      · exact .inl (refused_iff.mpr hs)

end

/-- A body with the given disconnect timeout, 20 s for the keep-alive and 5 s for the transport connect. -/
def negotiationBody (disconnect : ℤ) : Json :=
  .object [("ConnectionToken", .string "A=="), ("ConnectionId", .string "id"),
    ("DisconnectTimeout", .integer disconnect), ("KeepAliveTimeout", .integer 20), ("TryWebSockets", .bool true),
    ("ProtocolVersion", .string protocol), ("TransportConnectTimeout", .integer 5)]

theorem timeouts_negotiationBody {d : ℤ} (h : 0 ≤ d) : Timeouts.Of ⟨d, 20, 5⟩ (negotiationBody d) :=
  ⟨rfl, rfl, rfl, Int.cast_nonneg h, by norm_num, by norm_num⟩

theorem offers_negotiationBody (d : ℤ) : Offers (negotiationBody d) := ⟨⟨_, rfl⟩, ⟨_, rfl⟩, rfl, rfl⟩

theorem sound_iff_disconnect_30 : Sound (fun _ => some (negotiationBody 30)) ⟨(30 : ℤ), 20, 5⟩ "" ↔
    (Offers (negotiationBody 30) → Timeouts.Small ⟨(30 : ℤ), 20, 5⟩) :=
  sound_iff rfl (timeouts_negotiationBody (by decide))

/-- With a disconnect timeout of 3000000 s, which is about a month, the window is negative. -/
theorem month_overflows : ¬ ∀ (parse : String → Option Json) (body : String) (v : Json) (T : Timeouts),
    parse body = some v → T.Of v → Sound parse T body := by
  intro h
  have hT : Timeouts.Of ⟨(3000000 : ℤ), 20, 5⟩ (negotiationBody 3000000) := timeouts_negotiationBody (by decide)
  have hs := h (fun _ => some (negotiationBody 3000000)) "" _ _ rfl hT
  obtain ⟨r, hr, hsuits⟩ := hT.suits (offers_negotiationBody _)
  have hn : negotiate (fun _ => some (negotiationBody 3000000)) "" = _ := negotiate_eq rfl
  rw [hr] at hn
  rcases hs with ⟨e, he⟩ | ⟨r', hr', hrefused | hexact⟩
  · rw [hn] at he
    cases he
  · rw [hn] at hr'
    cases hr'
    exact refused_iff.mp hrefused hsuits
  · have hd := hexact.disconnect.2
    simp [milliseconds] at hd
    norm_num at hd

/-! ## The loop of `try_reconnect` -/

/-- `utility::datetime::from_milliseconds`: in intervals of 100 ns, from an `unsigned int` -/
def fromMilliseconds (ms : UInt32) : UInt64 := ms.toUInt64 * 10000

/-- The arguments `reconnect_start_time`, `reconnect_window` and `reconnect_delay`. -/
structure TryReconnect where
  startTime : UInt64
  window : Int32
  delay : Int32

inductive LoopPc where
  | check | connect | waiting
  | failed | window | sleeping (since : UInt64) | retry | lock
  | done (reconnected : Bool)

/-- The call, the clock, and whether the token of `disconnect_cts` is cancelled. -/
structure Loop where
  now : UInt64
  cancelled : Bool
  pc : LoopPc

/-- `go`: nothing is asked of the environment; the connect task is completed, or faulted with a std exception;
`gone`: the `weak_ptr` to the connection has expired. -/
inductive LoopInput where
  | go | connected | faulted | gone
  deriving DecidableEq

/-- What is seen of a step, with the time of the attempts. -/
inductive LoopEvent where
  | checked (seen : Bool) | begun (t : UInt64) | succeeded (t : UInt64) | failed (t : UInt64)
  | asked (expired : Bool) | woken | locked (alive : Bool)
  deriving DecidableEq

namespace TryReconnect

variable (a : TryReconnect)

/-- `utc_now() + delay > reconnect_window_end` -/
def expired (now : UInt64) : Bool :=
  now + fromMilliseconds a.delay.toUInt32 > a.startTime + fromMilliseconds a.window.toUInt32

/-- A number of milliseconds that is not negative, in intervals of 100 ns. -/
def ticks (ms : Int32) : ℕ := ms.toNatClampNeg * 10000

/-- `try_reconnect`, which calls itself from the continuation of the connect task. -/
def next (s : Loop) (i : LoopInput) : Option (LoopPc × LoopEvent) :=
  match s.pc with
  | .check => some (if s.cancelled then .done false else .connect, .checked s.cancelled)
  | .connect => some (.waiting, .begun s.now)
  | .waiting =>
    match i with
    | .connected => some (.done true, .succeeded s.now)
    | .faulted => some (.failed, .failed s.now)
    | _ => none
  | .failed => some (if s.cancelled then .done false else .window, .checked s.cancelled)
  | .window => some (if a.expired s.now then .done false else .sleeping s.now, .asked (a.expired s.now))
  -- a sleep advances the clock by at least the delay
  | .sleeping since => if since.toNat + ticks a.delay ≤ s.now.toNat then some (.retry, .woken) else none
  | .retry => some (if s.cancelled then .done false else .lock, .checked s.cancelled)
  | .lock => if i = .gone then some (.done false, .locked false) else some (.check, .locked true)
  | .done _ => none

/-- The runs of a call, with what is seen of them.  The clock goes on and the token is cancelled at any time. -/
inductive Run : Loop → List LoopEvent → Prop
  | init (cancelled : Bool) : Run ⟨a.startTime, cancelled, .check⟩ []
  | tick {s : Loop} {l : List LoopEvent} {t : UInt64} : Run s l → s.now ≤ t → Run { s with now := t } l
  | cancel {s : Loop} {l : List LoopEvent} : Run s l → Run { s with cancelled := true } l
  | step {s : Loop} {l : List LoopEvent} {i : LoopInput} {p : LoopPc} {e : LoopEvent} : Run s l →
      a.next s i = some (p, e) → Run { s with pc := p } (l ++ [e])

end TryReconnect

/-- How an attempt has ended, and when. -/
def LoopEvent.outcome? : LoopEvent → Option (Bool × UInt64)
  | .succeeded t => some (true, t)
  | .failed t => some (false, t)
  | _ => none

def LoopEvent.isBegun : LoopEvent → Bool
  | .begun _ => true
  | _ => false

/-- The number of attempts. -/
def attempts (l : List LoopEvent) : ℕ := l.countP LoopEvent.isBegun

/-- The outcomes of the attempts that are over. -/
def outcomes (l : List LoopEvent) : List (Bool × UInt64) := l.filterMap LoopEvent.outcome?

/-! ## The loop within the connection -/

/-- Where the reconnecting thread of the connection is. -/
def LoopPc.errorPc : LoopPc → ErrorPc
  | .check => .tryCheck
  | .connect => .tryConnect
  | .waiting => .tryWait
  | .failed => .tryFailed
  | .window => .tryWindow
  | .sleeping _ => .retryCheck
  | .retry => .retryCheck
  | .lock => .tryCheck
  | .done true => .okCas
  | .done false => .failSet

/-- While the connection lives, a step of the loop is one of the reconnecting thread or none. -/
theorem runError_of_attempt {a : TryReconnect} {s : Loop} {i : LoopInput} {p : LoopPc} {e : LoopEvent} {m : Mem}
    {n k c : ℕ} (hc : m.cancelled c = s.cancelled) (hm : m.transport.isSome) (h : a.next s i = some (p, e))
    (hi : i ≠ .gone) :
    p.errorPc = s.pc.errorPc ∨ ∃ o, runError m n k c s.pc.errorPc o = some (m, .error n k c p.errorPc) := by
  have hm' : m.transport.isNone = false := by
    cases ht : m.transport with
    | none => simp [ht] at hm
    | some _ => rfl
  cases hp : s.pc with
  | check =>
    simp only [TryReconnect.next, hp, Option.some.injEq, Prod.mk.injEq] at h
    obtain ⟨rfl, -⟩ := h
    refine .inr ⟨.ok, ?_⟩
    by_cases hs : s.cancelled <;> simp [LoopPc.errorPc, runError, hc, hs]
  | connect =>
    simp only [TryReconnect.next, hp, Option.some.injEq, Prod.mk.injEq] at h
    obtain ⟨rfl, -⟩ := h
    exact .inr ⟨.ok, by simp [LoopPc.errorPc, runError, hm']⟩
  | waiting =>
    cases i <;> simp only [TryReconnect.next, hp, reduceCtorEq, Option.some.injEq, Prod.mk.injEq] at h
    · obtain ⟨rfl, -⟩ := h
      exact .inr ⟨.ok, rfl⟩
    · obtain ⟨rfl, -⟩ := h
      exact .inr ⟨.fault, rfl⟩
  | failed =>
    simp only [TryReconnect.next, hp, Option.some.injEq, Prod.mk.injEq] at h
    obtain ⟨rfl, -⟩ := h
    refine .inr ⟨.ok, ?_⟩
    by_cases hs : s.cancelled <;> simp [LoopPc.errorPc, runError, hc, hs]
  | window =>
    simp only [TryReconnect.next, hp, Option.some.injEq, Prod.mk.injEq] at h
    obtain ⟨rfl, -⟩ := h
    by_cases hx : a.expired s.now
    · exact .inr ⟨.expired, by simp [LoopPc.errorPc, runError, hx]⟩
    · exact .inr ⟨.ok, by simp [LoopPc.errorPc, runError, hx]⟩
  | sleeping t =>
    simp only [TryReconnect.next, hp, Option.ite_none_right_eq_some, Option.some.injEq, Prod.mk.injEq] at h
    obtain ⟨-, rfl, -⟩ := h
    exact .inl rfl
  | retry =>
    simp only [TryReconnect.next, hp, Option.some.injEq, Prod.mk.injEq] at h
    obtain ⟨rfl, -⟩ := h
    refine .inr ⟨.ok, ?_⟩
    by_cases hs : s.cancelled <;> simp [LoopPc.errorPc, runError, hc, hs]
  | lock =>
    simp only [TryReconnect.next, hp, if_neg hi, Option.some.injEq, Prod.mk.injEq] at h
    obtain ⟨rfl, -⟩ := h
    exact .inl rfl
  | done b => simp [TryReconnect.next, hp] at h

/-! ## The window -/

namespace TryReconnect

variable {a : TryReconnect} {s : Loop} {l : List LoopEvent}

theorem toNat_fromMilliseconds {ms : Int32} (h : 0 ≤ ms) : (fromMilliseconds ms.toUInt32).toNat = ticks ms := by
  have := ms.toNatClampNeg_lt
  have h' := Int32.toNat_toUInt32_of_le h
  rw [fromMilliseconds, UInt64.toNat_mul, UInt32.toNat_toUInt64, h', ticks]
  exact Nat.mod_eq_of_lt (by simp; omega)

/-- Who goes on, and is still on the clock after the delay, is within the window. -/
theorem within_of_not_expired (hW : 0 ≤ a.window) (hD : 0 ≤ a.delay) {t : UInt64} (h : a.expired t = false)
    (ht : t.toNat + ticks a.delay < 2 ^ 64) :
    t.toNat + ticks a.delay ≤ a.startTime.toNat + ticks a.window := by
  simp only [expired, gt_iff_lt, decide_eq_false_iff_not, UInt64.lt_iff_toNat_lt, UInt64.toNat_add,
    toNat_fromMilliseconds hW, toNat_fromMilliseconds hD, not_lt] at h
  have := Nat.mod_le (a.startTime.toNat + ticks a.window) (2 ^ 64)
  rw [Nat.mod_eq_of_lt ht] at h
  omega

/-! ## What holds in a run -/

/-- After `k` attempts have failed, and a delay after each, the next one is within the window. -/
structure Ready (a : TryReconnect) (now : UInt64) (l : List LoopEvent) (k : ℕ) : Prop where
  begun : attempts l = k
  settled : (outcomes l).length = k
  unseen : .checked true ∉ l
  last : k ≠ 0 → ∃ f, (outcomes l).getLast? = some (false, f) ∧
    f.toNat + ticks a.delay ≤ a.startTime.toNat + ticks a.window
  room : k * ticks a.delay ≤ ticks a.window
  time : a.startTime.toNat + k * ticks a.delay ≤ now.toNat

/-- The attempt after `k` failed ones is under way. -/
structure Underway (a : TryReconnect) (now : UInt64) (l : List LoopEvent) (k : ℕ) : Prop where
  begun : attempts l = k + 1
  settled : (outcomes l).length = k
  unseen : .checked true ∉ l
  room : k * ticks a.delay ≤ ticks a.window
  time : a.startTime.toNat + k * ticks a.delay ≤ now.toNat

/-- It has failed as well, no later than `now`. -/
structure Failed (a : TryReconnect) (now : UInt64) (l : List LoopEvent) (k : ℕ) : Prop where
  begun : attempts l = k + 1
  settled : (outcomes l).length = k + 1
  unseen : .checked true ∉ l
  room : k * ticks a.delay ≤ ticks a.window
  last : ∃ f, (outcomes l).getLast? = some (false, f) ∧ a.startTime.toNat + k * ticks a.delay ≤ f.toNat ∧
    f.toNat ≤ now.toNat

/-- The call is over. -/
structure Ended (a : TryReconnect) (l : List LoopEvent) (k : ℕ) (b : Bool) : Prop where
  begun : attempts l ≤ k + 1
  room : k * ticks a.delay ≤ ticks a.window
  result : b = true ↔ ∃ t, (outcomes l).getLast? = some (true, t)

@[simp] theorem attempts_snoc (l : List LoopEvent) (e : LoopEvent) :
    attempts (l ++ [e]) = attempts l + if e.isBegun then 1 else 0 := by
  simp [attempts, List.countP_append, List.countP_singleton]

@[simp] theorem outcomes_snoc (l : List LoopEvent) (e : LoopEvent) :
    outcomes (l ++ [e]) = outcomes l ++ e.outcome?.toList := by
  rw [outcomes, List.filterMap_append, outcomes]
  cases h : e.outcome? <;> simp [h]

/-- An event that tells nothing of an attempt, and is not a look that sees the token cancelled. -/
def Quiet (e : LoopEvent) : Prop := e.isBegun = false ∧ e.outcome? = none ∧ e ≠ .checked true

theorem Ready.snoc {t : UInt64} {k : ℕ} (h : Ready a t l k) {e : LoopEvent} (he : Quiet e) :
    Ready a t (l ++ [e]) k := by
  obtain ⟨hb, ho, hs⟩ := he
  refine ⟨?_, ?_, ?_, ?_, h.room, h.time⟩
  · simp [hb, h.begun]
  · simp [ho, h.settled]
  · simp [h.unseen, Ne.symm hs]
  · simpa [ho] using h.last

theorem Failed.snoc {t : UInt64} {k : ℕ} (h : Failed a t l k) {e : LoopEvent} (he : Quiet e) :
    Failed a t (l ++ [e]) k := by
  obtain ⟨hb, ho, hs⟩ := he
  refine ⟨?_, ?_, ?_, h.room, ?_⟩
  · simp [hb, h.begun]
  · simp [ho, h.settled]
  · simp [h.unseen, Ne.symm hs]
  · simpa [ho] using h.last

theorem Ready.mono {t t' : UInt64} {k : ℕ} (h : Ready a t l k) (ht : t ≤ t') : Ready a t' l k :=
  { h with time := h.time.trans (UInt64.le_iff_toNat_le.mp ht) }

theorem Underway.mono {t t' : UInt64} {k : ℕ} (h : Underway a t l k) (ht : t ≤ t') : Underway a t' l k :=
  { h with time := h.time.trans (UInt64.le_iff_toNat_le.mp ht) }

theorem Failed.mono {t t' : UInt64} {k : ℕ} (h : Failed a t l k) (ht : t ≤ t') : Failed a t' l k := by
  obtain ⟨f, hf, hlo, hhi⟩ := h.last
  exact { h with last := ⟨f, hf, hlo, hhi.trans (UInt64.le_iff_toNat_le.mp ht)⟩ }

/-- A call that gives up without an attempt under way. -/
theorem ended_of_quiet {k n : ℕ} (hn : attempts l = n) (hle : n ≤ k + 1) (hroom : k * ticks a.delay ≤ ticks a.window)
    (hlast : n ≠ 0 → ∃ f, (outcomes l).getLast? = some (false, f)) (hover : (outcomes l).length = n) {e : LoopEvent}
    (hb : e.isBegun = false) (ho : e.outcome? = none) : Ended a (l ++ [e]) k false := by
  refine ⟨?_, hroom, ?_⟩
  · simp only [attempts_snoc, hb]
    exact hn ▸ hle
  · simp only [Bool.false_eq_true, outcomes_snoc, ho, Option.toList_none, List.append_nil, false_iff, not_exists]
    intro t ht
    by_cases h0 : n = 0
    · rw [List.length_eq_zero_iff.mp (hover.trans h0)] at ht
      simp at ht
    · obtain ⟨f, hf⟩ := hlast h0
      rw [hf] at ht
      simp at ht

theorem Ready.ended {t : UInt64} {k n : ℕ} (h : Ready a t l n) (hn : n ≤ k + 1)
    (hroom : k * ticks a.delay ≤ ticks a.window) {e : LoopEvent} (hb : e.isBegun = false) (ho : e.outcome? = none) :
    Ended a (l ++ [e]) k false := by
  refine ended_of_quiet h.begun hn hroom (fun h0 => ?_) h.settled hb ho
  obtain ⟨f, hf, -⟩ := h.last h0
  exact ⟨f, hf⟩

theorem Failed.ended {t : UInt64} {k : ℕ} (h : Failed a t l k) {e : LoopEvent} (hb : e.isBegun = false)
    (ho : e.outcome? = none) : Ended a (l ++ [e]) k false := by
  refine ended_of_quiet h.begun le_rfl h.room (fun _ => ?_) h.settled hb ho
  obtain ⟨f, hf, -⟩ := h.last
  exact ⟨f, hf⟩

/-- Waking up: the failure was early enough, and there is room for one more attempt. -/
theorem Failed.wake (hW : 0 ≤ a.window) (hD : 0 ≤ a.delay) {t now : UInt64} {k : ℕ} (h : Failed a t l k)
    (hx : a.expired t = false) (ht : t.toNat + ticks a.delay ≤ now.toNat) : Ready a now l (k + 1) := by
  obtain ⟨f, hf, hlo, hhi⟩ := h.last
  have hlt := now.toNat_lt
  have hin := within_of_not_expired hW hD hx (by omega)
  refine ⟨h.begun, h.settled, h.unseen, fun _ => ⟨f, hf, by omega⟩, ?_, ?_⟩
  · rw [Nat.add_one_mul]
    omega
  · rw [Nat.add_one_mul]
    omega

/-- What holds of the steps `l` before a step that shows `e`: no look at the token has seen it cancelled; and a
further attempt is only begun when all those before it are over and the last one has failed early enough. -/
def Orderly (a : TryReconnect) (l : List LoopEvent) (e : LoopEvent) : Prop :=
  .checked true ∉ l ∧ ∀ t, e = .begun t → (outcomes l).length = attempts l ∧
    (attempts l ≠ 0 → ∃ f, (outcomes l).getLast? = some (false, f) ∧
      f.toNat + ticks a.delay ≤ a.startTime.toNat + ticks a.window)

/-- Where the call waits: for the connect task, or asleep until the delay is over. -/
def Waits (a : TryReconnect) (s : Loop) : Prop :=
  s.pc = .waiting ∨ ∃ t, s.pc = .sleeping t ∧ s.now.toNat < t.toNat + ticks a.delay

/-- A call that is not over and does not wait goes on. -/
theorem progress (a : TryReconnect) (s : Loop) :
    (∃ b, s.pc = .done b) ∨ Waits a s ∨ ∃ p e, a.next s .go = some (p, e) := by
  obtain ⟨now, cancelled, pc⟩ := s
  cases pc with
  | done b => exact .inl ⟨b, rfl⟩
  | waiting => exact .inr (.inl (.inl rfl))
  | sleeping t =>
    by_cases ht : t.toNat + ticks a.delay ≤ now.toNat
    · exact .inr (.inr ⟨_, _, if_pos ht⟩)
    · exact .inr (.inl (.inr ⟨t, rfl, by simpa using ht⟩))
  | _ => exact .inr (.inr ⟨_, _, rfl⟩)

/-- Two attempts in a window of 500 ms.  The first fails after 50 ms; the second is begun when 150 ms are over, and
fails when there is no time for another one. -/
def late : List LoopEvent :=
  [.checked false, .begun 0, .failed 500000, .checked false, .asked false, .woken, .checked false, .locked true,
    .checked false, .begun 1500000, .failed 4500000, .checked false, .asked true]

end TryReconnect

end SignalRClient.Connection
