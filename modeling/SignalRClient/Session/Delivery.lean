import SignalRClient.Connection.Handshake
import SignalRClient.Connection.Messages
import SignalRClient.Connection.Shutdown
import SignalRClient.Connection.Waiting
import SignalRClient.Session.Clients
import SignalRClient.Session.Exclusion
import SignalRClient.Transport.Lifetime

/-!
# From the server to the user

What the clients of a session return is processed in this order and each response once, up to the point where the
session is cancelled (`delivered_once`): no response is dropped before (`not_disconnected`).  When `reconnect()` builds
its URL, nothing is on the way: all that the clients have returned has been processed, the user has got its messages,
and the URL names the last message id and the last groups token among it (`resumes_delivered`).
-/

namespace SignalRClient.Session

open Threads Uri UrlBuilder

/-! ## What is processed -/

def accepted (l : List Event) : List (Option Json) :=
  l.filterMap fun
    | .accepted x => some x
    | _ => none

/-- The writes and the calls of the message callback of the user. -/
def effects (l : List Event) : List Effect :=
  l.filterMap fun
    | .effect e => some e
    | _ => none

/-- The messages that the user has got. -/
def received (l : List Event) : List Json := (effects l).filterMap Connection.Effect.message?

/-- The messages of a response. -/
def messages (r : Option Json) : List Json := (processEffects r).filterMap Connection.Effect.message?

/-- What `process_response` has still to do. -/
def left : Connection.Pc → List Effect
  | .process _ _ es => es
  | _ => []

/-- The response that has not yet been checked for the token. -/
def waiting : Connection.Pc → List (Option Json)
  | .message _ x => [x]
  | _ => []

/-- `start()` has begun the session and has not reset the fields. -/
def begins : Connection.Pc → Bool
  | .start _ _ .newCts | .start _ _ .reset | .start _ _ .fields => true
  | _ => false

@[simp] theorem accepted_append (l l' : List Event) : accepted (l ++ l') = accepted l ++ accepted l' :=
  List.filterMap_append ..

@[simp] theorem effects_append (l l' : List Event) : effects (l ++ l') = effects l ++ effects l' :=
  List.filterMap_append ..

@[simp] theorem accepted_map (l : List (Transport.Event (Option Json))) : accepted (l.map .trans) = [] := by
  simp [accepted, List.filterMap_map]

@[simp] theorem effects_map (l : List (Transport.Event (Option Json))) : effects (l.map .trans) = [] := by
  simp [effects, List.filterMap_map]

section

variable {t : ℕ} {m m' : Connection.Mem} {p p' : Connection.Pc} {i : Connection.Input}

theorem running_of_left (h : left p ≠ []) : running p = true := by
  cases p with
  | process => rfl
  | _ => exact absurd rfl h

theorem running_of_waiting (h : waiting p ≠ []) : running p = true := by
  cases p with
  | message => rfl
  | _ => exact absurd rfl h

theorem running_of_accepted (h : accepted (connEvents p p') ≠ []) : running p = true := by
  cases p with
  | message | process => rfl
  | _ => exact absurd rfl h

/-- `process_response` does what is left, or is entered with all that a response is to do. -/
theorem next_left (h : Connection.next t m p i = some (m', p')) :
    left p ++ (accepted (connEvents p p')).flatMap processEffects = effects (connEvents p p') ++ left p' := by
  cases Connection.next_leads h with
  | @enter k _ _ _ _ hp =>
    subst hp
    cases k <;> rfl
  | check | effect | processed => simp [connEvents, accepted, effects, left]
  | _ => rfl

/-- A response that waits for its check is accepted, unless its token is cancelled. -/
theorem next_waiting (h : Connection.next t m p i = some (m', p'))
    (hcan : ∀ n x, p = .message n x → ∀ c, m.created n = some c → m.cancelled c = false)
    (hi : ∀ n x, i ≠ .call (.message n x)) : waiting p = accepted (connEvents p p') ++ waiting p' := by
  cases Connection.next_leads h with
  | @enter k _ _ _ _ hk =>
    subst hk
    cases k with
    | message n x => exact absurd rfl (hi n x)
    | _ => rfl
  | @late n x o =>
    -- the check lets it through
    cases hn : m.created n with
    | none => simp [Connection.next, Connection.runMessage, hn] at h
    | some c => simp [Connection.next, Connection.runMessage, hn, hcan n x rfl c hn] at h
  | _ => rfl

/-- `start()` gets there by beginning the session. -/
theorem begins_next (h : Connection.next t m p i = some (m', p')) (hp : begins p' = true) :
    begins p = true ∨ ∃ n c, p = .start n c .cas ∧ m.connState = .disconnected := by
  cases Connection.next_leads h with
  | @enter k _ _ _ _ hk =>
    subst hk
    cases k <;> cases hp
  | @start n c n' c' q q' o _ hr =>
    cases q <;> simp only [Connection.runStart] at hr <;> repeat' (split at hr)
    all_goals simp only [reduceCtorEq, Option.some.injEq, Prod.mk.injEq, Connection.Pc.start.injEq] at hr
    all_goals obtain ⟨-, -, -, rfl⟩ := hr
    all_goals first | exact .inl rfl | exact .inr ⟨_, _, rfl, by assumption⟩ | cases hp
  | _ => cases hp

theorem begins_mayConnect (h : begins p = true) : mayConnect p = true ∧ connecting p = false := by
  cases p with
  | start n c q => cases q <;> first | exact ⟨rfl, rfl⟩ | cases h
  | _ => cases h

end

/-! ## The connection of a session -/

section

variable {s : State Mem Pc}

/-- With one start no two starts overlap. -/
theorem alone_connection (h : prog.Reach OneStart s) :
    Connection.prog.Reach (fun s a => Connection.Alone s a.thread) (s.project Mem.conn Pc.conn) := by
  refine h.project rfl rfl ?_
  intro s a m p hr hok hn
  have halone : Connection.Alone (s.project Mem.conn Pc.conn) a.thread := by
    intro n c hp hd u
    have hun := (Connection.unbegun_holds (reachable_connection hr) (hok n c hp hd)).2 u
    cases hu : (s.project Mem.conn Pc.conn).pc u with
    | start n' c' q =>
      rw [hu] at hun
      cases q <;> first | rfl | cases hun
    | _ => rfl
  rcases next_cases (t := a.thread) hn with ⟨j, c, q, -, -, hc, rfl, rfl⟩ | ⟨j, o, c, q, -, -, -, rfl, rfl⟩ |
    ⟨j, o, k, c, q, c', q', -, -, hc, -, rfl, rfl⟩
  · exact .inr ⟨j, halone, hc⟩
  · exact .inl ⟨rfl, rfl⟩
  · exact .inr ⟨k, halone, hc⟩

theorem sessions_le_one (h : prog.Reach OneStart s) : s.mem.conn.sessions ≤ 1 := by
  refine h.invariant (J := fun s => s.mem.conn.sessions ≤ 1) (Nat.zero_le 1) ?_
  intro s a m p _ hok ih hn
  have hstep : ∀ j c q, Connection.next a.thread s.mem.conn (s.pc a.thread).conn j = some (c, q) → c.sessions ≤ 1 := by
    intro j c q hc
    rcases (Connection.next_writes hc).sessions with e | ⟨e, hd, n, c₀, hcas, -⟩
    · omega
    · have := hok n c₀ hcas hd
      omega
  rcases next_cases (t := a.thread) hn with ⟨j, c, q, -, -, hc, rfl, rfl⟩ | ⟨j, o, c, q, -, -, -, rfl, rfl⟩ |
    ⟨j, o, k, c, q, c', q', -, -, hc, -, rfl, rfl⟩
  · exact hstep j c q hc
  · exact ih
  · exact hstep k c q hc

/-- The transport is that of session 1, and so is the token source that its callbacks look at. -/
theorem created_one (h : prog.Reach OneStart s) {n k : ℕ} (hk : s.mem.conn.created n = some k) : n = 1 ∧ k = 1 := by
  have hsound := (Connection.ledger_holds (Connection.onTime_of_alone (alone_connection h)).1).glob
  obtain ⟨rfl, hpos, hle⟩ := hsound.created n k hk
  have hreset : s.mem.conn.epoch ≤ s.mem.conn.sessions := hsound.reset
  have hone := sessions_le_one h
  have hle : k ≤ s.mem.conn.epoch := hle
  omega

theorem next_cancelled {t n : ℕ} {m m' : Mem} {p p' : Pc} {i : Input} (h : next t m p i = some (m', p'))
    (hn : m.conn.cancelled n = true) : m'.conn.cancelled n = true := by
  rcases next_cases h with ⟨j, c, q, -, -, hc, rfl, -⟩ | ⟨j, o, c, q, -, -, -, rfl, -⟩ |
    ⟨j, o, k, c, q, c', q', -, -, hc, -, rfl, -⟩
  · exact (Connection.next_writes hc).cancelled_mono hn
  · exact hn
  · exact (Connection.next_writes hc).cancelled_mono hn

/-- A `stop()` that has moved the state has cancelled the session. -/
theorem cancelled_of_stops (h : prog.Reach OneStart s) (t : ℕ) (ht : (s.pc t).conn.stops = true) :
    s.mem.conn.cancelled 1 = true := by
  revert ht
  refine h.each (L := fun _ m p => p.conn.stops = true → m.conn.cancelled 1 = true) (fun _ hs => by cases hs) ?_ t
  intro s a m p hr _ ih hn
  have hconn : ∀ {k c q}, Connection.next a.thread s.mem.conn (s.pc a.thread).conn k = some (c, q) →
      q.stops = true → s.mem.conn.cancelled 1 = true := by
    intro k c q hc hq
    rcases Connection.next_stops hc hq with ⟨hp, -⟩ | ⟨⟨g, hp⟩, -⟩
    · exact ih a.thread hp
    · have hon := (Connection.onTime_of_alone (alone_connection hr)).1
      have hl := (Connection.life_holds hon).loc a.thread
      have hp : (s.project Mem.conn Pc.conn).pc a.thread = .stop g .exchange := hp
      -- it has cancelled the token source of the current session
      have hcan := (hl.cancels (by rw [hp]; rfl)).2
      have hsource := Connection.source_of_locked hon (t := a.thread) (by rw [hp]; rfl) (by rw [hp]; rfl)
      have hsessions : s.mem.conn.sessions = 1 := by
        have hle := sessions_le_one hr
        have hpos : s.mem.conn.sessions ≠ 0 := by
          intro hz
          have hun := (Connection.unbegun_holds (reachable_connection hr) hz).2 a.thread
          rw [hp] at hun
          cases hun
        omega
      have hone : s.mem.conn.disconnectCts = 1 := hsource.trans hsessions
      rw [← hone]
      exact hcan
  refine ⟨fun hq => next_cancelled hn ?_, fun u _ hu => next_cancelled hn (ih u hu)⟩
  rcases next_cases (t := a.thread) hn with ⟨j, c, q, -, -, hc, rfl, rfl⟩ | ⟨j, o, c, q, -, -, -, rfl, rfl⟩ |
    ⟨j, o, k, c, q, c', q', -, -, hc, -, rfl, rfl⟩
  · exact hconn hc hq
  · exact ih a.thread hq
  · exact hconn hc hq

end

/-! ## From the message callback to the user -/

/-- What `process_response` has been entered with has been done, but for what one thread has still to do. -/
def Performed (s : State Mem Pc) (l : List Event) : Prop :=
  InOrder (fun p : Pc => left p.conn) s ((accepted l).flatMap processEffects) (effects l)

/-- Before the token is cancelled each response that is handed over is accepted, but for one that waits for its
check; later none is. -/
structure Accepted (s : State Mem Pc) (l : List Event) : Prop where
  isPrefix : accepted l <+: handed l
  live : s.mem.conn.cancelled 1 = false → InOrder (fun p : Pc => waiting p.conn) s (handed l) (accepted l)

section

variable {s : State Mem Pc} {l : List Event}

/-- One thread at a time is in the message callback. -/
theorem eq_of_running (h : prog.Reach OneStart s) {t u : ℕ} (ht : running (s.pc t).conn = true)
    (hu : running (s.pc u).conn = true) : t = u := by
  have heq := (tokens_holds h).sole _ _ (has_of_processing (processing_of_running h t ht))
    (has_of_processing (processing_of_running h u hu))
  injection heq with heq
  injection heq

/-- Where the two meet, the connection is not in the message callback. -/
theorem Meeting.not_running {m : Mem} {p : Pc} {i : Transport.Input (Option Json)} {k : Connection.Input} {t : ℕ}
    {c : Connection.Mem} {q : Connection.Pc} (h : Meeting m p i k)
    (hn : Connection.next t m.conn p.conn k = some (c, q)) : running p.conn = false := by
  have hsite : (site m.conn p.conn).isSome = true → running p.conn = false := by
    intro hs
    cases hp : p.conn with
    | message | process => rw [hp] at hs; cases hs
    | _ => rfl
  cases h with
  | returned _ _ hs | thrown _ _ _ hs | closed _ _ _ _ hs => exact hsite hs
  | message | error => rw [(next_begin hn).1]; rfl

theorem connEvents_of_not_running {p p' : Connection.Pc} (h : running p = false) : connEvents p p' = [] := by
  cases p with
  | message | process => cases h
  | _ => rfl

theorem performed_holds (h : prog.Trace Readable events s l) : Performed s l := by
  refine h.invariant (J := Performed) ⟨0, rfl, fun _ _ => rfl⟩ ?_
  intro s a l m p hr _ ih hn
  have hone := oneStart_of_readable hr
  rw [Performed, accepted_append, List.flatMap_append, effects_append]
  rcases next_cases (t := a.thread) hn with ⟨j, c, q, hi, -, hc, rfl, rfl⟩ | ⟨j, o, c, q, hi, -, -, rfl, rfl⟩ |
    ⟨j, o, k, c, q, c', q', hi, hs, hc, -, rfl, rfl⟩
  · rw [hi]
    refine ih.step (next_left hc) fun hne u hu => ?_
    -- a response is accepted by the one thread in the message callback
    have hacc : accepted (connEvents (s.pc a.thread).conn q) ≠ [] := by
      intro e
      refine hne ?_
      show (accepted (connEvents (s.pc a.thread).conn q)).flatMap processEffects = []
      rw [e]
      rfl
    by_contra hload
    exact hu (eq_of_running hone (running_of_left hload) (running_of_accepted hacc))
  · rw [hi]
    exact ih.step (by simp [events]) fun hne => absurd (by simp [events]) hne
  · have hstep := next_left hc
    rw [connEvents_of_not_running ((sync_both hs).not_running hc)] at hstep
    rw [hi]
    refine ih.step ?_ fun hne => absurd (by simp [events]) hne
    simpa [events, accepted, effects] using hstep

/-- The transport hands a response over where it calls the message callback. -/
theorem handedIn_stepEvents (m : Transport.Mem) (p : Transport.Pc (Option Json)) (i : Transport.Input (Option Json)) :
    handedIn (Transport.stepEvents m p i) = [] ∨ ∃ j x, p = ⟨.message j x .process, none⟩ ∧ i = .go none := by
  cases hc : p.call with
  | some c =>
    left
    rcases c with q | ⟨d, q⟩
    · simp [Transport.stepEvents, hc, handedIn]
    · cases q <;> simp [Transport.stepEvents, hc, handedIn]
  | none =>
    cases i with
    | go f =>
      cases hf : p.frame with
      | message j x q =>
        cases q with
        | process =>
          cases f with
          | none => exact .inr ⟨j, x, Transport.Pc.ext hf hc, rfl⟩
          | some g => left; cases g <;> simp [Transport.stepEvents, Transport.frameEvents, hc, hf, handedIn]
        | _ =>
          left
          rcases f with _ | g
          · simp [Transport.stepEvents, Transport.frameEvents, hc, hf, handedIn]
          · cases g <;> simp [Transport.stepEvents, Transport.frameEvents, hc, hf, handedIn]
      | connected j q | observe j q =>
        left
        cases q <;> cases f <;> simp [Transport.stepEvents, Transport.frameEvents, hc, hf, handedIn]
      | idle => left; simp [Transport.stepEvents, Transport.frameEvents, hc, hf, handedIn]
    | received r x =>
      left
      simp only [Transport.stepEvents, hc]
      split <;> rfl
    | _ => left; simp [Transport.stepEvents, hc, handedIn]

/-- A response is accepted only before the token is cancelled. -/
theorem accepted_of_cancelled {t : ℕ} {m m' : Connection.Mem} {p p' : Connection.Pc} {i : Connection.Input}
    (h : Connection.next t m p i = some (m', p')) (hcan : ∀ n c, m.created n = some c → m.cancelled c = true) :
    accepted (connEvents p p') = [] := by
  cases Connection.next_leads h with
  | check hc hlive =>
    rw [hcan _ _ hc] at hlive
    cases hlive
  | _ => rfl

theorem accepted_events_of_cancelled (h : prog.Reach OneStart s) (hcan : s.mem.conn.cancelled 1 = true) {t : ℕ}
    {m : Mem} {p : Pc} {i : Input} (hn : next t s.mem (s.pc t) i = some (m, p)) :
    accepted (events t s.mem (s.pc t) i m p) = [] := by
  rcases next_cases hn with ⟨j, c, q, rfl, -, hc, rfl, rfl⟩ | ⟨j, o, c, q, rfl, -, -, rfl, rfl⟩ |
    ⟨j, o, k, c, q, c', q', rfl, -, -, -, rfl, rfl⟩
  · refine accepted_of_cancelled hc fun n c hc => ?_
    rwa [(created_one h hc).2]
  · exact accepted_map _
  · exact accepted_map _

/-- Only `disconnect()` shows that a loop is cancelled. -/
theorem call_of_disconnected {m : Transport.Mem} {p : Transport.Pc (Option Json)} {i : Transport.Input (Option Json)}
    {k : ℕ} (h : .disconnected k ∈ Transport.stepEvents m p i) : ∃ d, p.call = some (.disconnect d .cancel) := by
  cases hc : p.call with
  | some c =>
    rcases c with q | ⟨d, q⟩
    · simp [Transport.stepEvents, hc] at h
    · cases q <;> simp [Transport.stepEvents, hc] at h
      exact ⟨d, rfl⟩
  | none =>
    exfalso
    cases i with
    | go f =>
      simp only [Transport.stepEvents, hc, Transport.frameEvents] at h
      split at h <;> repeat' split at h
      all_goals simp at h
    | received r o =>
      simp only [Transport.stepEvents, hc] at h
      split at h <;> simp at h
    | _ => simp [Transport.stepEvents, hc] at h

/-- The transport is alive as long as its end has not been seen. -/
theorem refs_of_alive (h : prog.Trace Readable events s l) (hl : .destroyed ∉ transEvents l) : s.mem.trans.refs ≠ 0 :=
  fun h0 => hl ((Transport.course_holds (trace_transport h)).2 h0)

theorem Accepted.step {t : ℕ} {m : Mem} {p : Pc} {l' : List Event} (h : Accepted s l)
    (hmono : m.conn.cancelled 1 = false → s.mem.conn.cancelled 1 = false)
    (hstep : s.mem.conn.cancelled 1 = false → waiting (s.pc t).conn ++ handed l' = accepted l' ++ waiting p.conn)
    (hexcl : handed l' ≠ [] → ∀ u, u ≠ t → waiting (s.pc u).conn = [])
    (hnone : s.mem.conn.cancelled 1 = true → accepted l' = []) : Accepted (s.set t m p) (l ++ l') := by
  cases hcan : s.mem.conn.cancelled 1 with
  | false =>
    have hnext : InOrder (fun p : Pc => waiting p.conn) (s.set t m p) (handed (l ++ l')) (accepted (l ++ l')) := by
      rw [handed_append, accepted_append]
      exact (h.live hcan).step (hstep hcan) hexcl
    exact ⟨hnext.isPrefix, fun _ => hnext⟩
  | true =>
    refine ⟨?_, fun hlive => ?_⟩
    · rw [handed_append, accepted_append, hnone hcan, List.append_nil]
      exact h.isPrefix.trans (List.prefix_append ..)
    · rw [hmono hlive] at hcan
      cases hcan

theorem accepted_holds (h : prog.Trace Readable events s l) : Accepted s l := by
  refine h.invariant (J := Accepted) ⟨List.nil_prefix, fun _ => ⟨0, rfl, fun _ _ => rfl⟩⟩ ?_
  intro s a l m p hr hok ih hn
  have hone := oneStart_of_readable hr
  have hlive : s.mem.conn.cancelled 1 = false →
      ∀ n x, (s.pc a.thread).conn = .message n x → ∀ c, s.mem.conn.created n = some c →
        s.mem.conn.cancelled c = false := by
    intro hcan n x _ c hc
    rwa [(created_one hone hc).2]
  have hmono : m.conn.cancelled 1 = false → s.mem.conn.cancelled 1 = false := by
    intro hfalse
    by_contra htrue
    rw [next_cancelled hn (by simpa using htrue)] at hfalse
    cases hfalse
  have hnone := fun hcan => accepted_events_of_cancelled hone hcan hn
  rcases next_cases (t := a.thread) hn with ⟨j, c, q, hi, ha, hc, rfl, rfl⟩ | ⟨j, o, c, q, hi, hs, -, rfl, rfl⟩ |
    ⟨j, o, k, c, q, c', q', hi, hs, hc, -, rfl, rfl⟩
  · have hquiet : handed (connEvents (s.pc a.thread).conn q) = [] := by simp [handed, handedIn]
    rw [hi] at hnone ⊢
    refine ih.step hmono (fun hcan => ?_) (fun hne => absurd hquiet hne) hnone
    have hstep := next_waiting hc (hlive hcan) fun n x e => by
      subst e
      simp [alone] at ha
    simpa [events, hquiet] using hstep
  · have hquiet : handed ((Transport.events a.thread s.mem.trans (s.pc a.thread).trans j c q).map .trans) = [] := by
      rw [handed, transEvents_map, handedIn_events]
      rcases handedIn_stepEvents s.mem.trans (s.pc a.thread).trans j with h | ⟨j', x, hpc, rfl⟩
      · exact h
      · simp [sync, hpc] at hs
    rw [hi]
    exact ih.step id (fun _ => by simp [events, hquiet]) (fun hne => absurd hquiet hne) fun _ => by simp [events]
  · have hmeet := sync_both hs
    have hidle := hmeet.not_running hc
    have hhanded : handed (events a.thread s.mem (s.pc a.thread) a.input
        ⟨c, c', startConnectOf (s.pc a.thread) s.mem.startConnect⟩
        ⟨q, q', attemptOf (s.pc a.thread).trans.call (s.pc a.thread).attempt⟩) =
          handedIn (Transport.stepEvents s.mem.trans (s.pc a.thread).trans j) := by
      rw [hi, events, handed, transEvents_map, handedIn_events]
    have haccepted : accepted (events a.thread s.mem (s.pc a.thread) a.input
        ⟨c, c', startConnectOf (s.pc a.thread) s.mem.startConnect⟩
        ⟨q, q', attemptOf (s.pc a.thread).trans.call (s.pc a.thread).attempt⟩) = [] := by
      rw [hi, events, accepted_map]
    have hbefore : waiting (s.pc a.thread).conn = [] := by
      by_contra hne
      rw [running_of_waiting hne] at hidle
      cases hidle
    refine ih.step hmono (fun _ => ?_) (fun hne u hu => ?_) fun _ => haccepted
    · rw [hhanded, haccepted, hbefore, List.nil_append, List.nil_append]
      cases hmeet with
      | message j x hpc hgo =>
        subst hgo
        rw [hpc, (next_begin hc).2]
        rfl
      | error j f hpc hgo =>
        subst hgo
        rw [hpc, (next_begin hc).2]
        rfl
      | returned _ hcall | thrown _ hcall | closed _ _ hcall =>
        have hquiet : handedIn (Transport.stepEvents s.mem.trans (s.pc a.thread).trans j) = [] := by
          refine (handedIn_stepEvents s.mem.trans (s.pc a.thread).trans j).resolve_right fun hbusy => ?_
          obtain ⟨_, _, hpc, -⟩ := hbusy
          rw [hpc] at hcall
          cases hcall
        have hstill := next_waiting hc (fun n x e => by rw [e] at hidle; cases hidle) fun _ _ e => (by cases e)
        rw [hbefore] at hstill
        rw [hquiet, (List.append_eq_nil_iff.mp hstill.symm).2]
    · rw [hhanded] at hne
      obtain ⟨j', x, hpc, -⟩ := (handedIn_stepEvents _ _ _).resolve_left hne
      by_contra hload
      have hhas : Has s (.trans (.frame a.thread)) := holds_of_inHand (s := transport s) (by
        show inHand (s.pc a.thread).trans.frame ≠ []
        rw [hpc]
        exact fun e => (by cases e))
      have heq := (tokens_holds hone).sole _ _ hhas
        (has_of_processing (processing_of_running hone u (running_of_waiting hload)))
      injection heq with heq
      injection heq with heq
      exact hu heq.symm

/-- The transport is disconnected by a `stop()` that has cancelled the session, or as it is destroyed. -/
theorem cancelled_of_disconnected (h : prog.Reach OneStart s) (hrefs : s.mem.trans.refs ≠ 0) {t k : ℕ} {m : Mem}
    {p : Pc} {i : Input} (hk : .disconnected k ∈ transEvents (events t s.mem (s.pc t) i m p)) :
    s.mem.conn.cancelled 1 = true := by
  cases i with
  | conn j => rw [events, transEvents_conn] at hk; cases hk
  | trans j o =>
    rw [events, transEvents_map] at hk
    have hk : .disconnected k ∈ Transport.stepEvents s.mem.trans (s.pc t).trans j := by
      refine (List.mem_append.mp hk).resolve_right fun hd => ?_
      split at hd
      · cases List.mem_singleton.mp hd
      · cases hd
    obtain ⟨d, hd⟩ := call_of_disconnected hk
    cases d with
    | false =>
      obtain ⟨g, hg⟩ : ∃ g, (s.pc t).conn = .stop g .disconnect := (tokens_holds h).sites t _ hd
      exact cancelled_of_stops h t (by rw [hg]; rfl)
    | true =>
      have hdestroys : ((transport s).pc t).destroys = true := by
        show (s.pc t).trans.call.any Transport.Call.destroys = true
        rw [hd]
        rfl
      exact absurd ((Transport.disposed_holds (reachable_transport h)).none t hdestroys) hrefs

/-- **As long as the session is not cancelled, no loop is.** -/
theorem not_disconnected (h : prog.Trace Readable events s l) (hl : .destroyed ∉ transEvents l)
    (hcan : s.mem.conn.cancelled 1 = false) (k : ℕ) : .disconnected k ∉ transEvents l := by
  intro hk
  have hone : s.mem.conn.cancelled 1 = true := by
    revert hl hk
    clear hcan
    refine h.invariant (J := fun s l => .destroyed ∉ transEvents l → .disconnected k ∈ transEvents l →
      s.mem.conn.cancelled 1 = true) (fun _ hk => (by cases hk)) ?_
    intro s a l m p hr _ ih hn hl hk
    rw [transEvents_append] at hl hk
    have hl₀ : .destroyed ∉ transEvents l := fun h => hl (List.mem_append_left _ h)
    refine next_cancelled hn ?_
    rcases List.mem_append.mp hk with hk | hk
    · exact ih hl₀ hk
    · exact cancelled_of_disconnected (oneStart_of_readable hr) (refs_of_alive hr hl₀) hk
  rw [hone] at hcan
  cases hcan

/-- What is accepted is the beginning of what the clients have returned: a session that is cancelled accepts no
more. -/
theorem accepted_isPrefix (h : prog.Trace Readable events s l) (hl : .destroyed ∉ transEvents l) :
    accepted l <+: fetched l := by
  revert hl
  refine h.invariant (J := fun s l => .destroyed ∉ transEvents l → accepted l <+: fetched l)
    (fun _ => List.nil_prefix) ?_
  intro s a l m p hr hok ih hn hl
  have hl₀ : .destroyed ∉ transEvents l := fun h => hl (by rw [transEvents_append]; exact List.mem_append_left _ h)
  cases hcan : s.mem.conn.cancelled 1 with
  | true =>
    rw [accepted_append, fetched_append, accepted_events_of_cancelled (oneStart_of_readable hr) hcan hn,
      List.append_nil]
    exact (ih hl₀).trans (List.prefix_append ..)
  | false =>
    have hafter := hr.step hok hn
    refine (accepted_holds hafter).isPrefix.trans ((handedOver_holds hafter hl).all fun k hk => ?_).isPrefix
    rw [transEvents_append] at hk
    rcases List.mem_append.mp hk with hk | hk
    · exact not_disconnected hr hl₀ hcan k hk
    · rw [cancelled_of_disconnected (oneStart_of_readable hr) (refs_of_alive hr hl₀) hk] at hcan
      cases hcan

end

/-! ## The resume point -/

/-- What the effects have made of the fields. -/
def replay (l : List Event) : Connection.Session := (effects l).foldl Connection.Session.effect {}

/-- The memory has the fields of `v`. -/
structure Remembers (m : Connection.Mem) (v : Connection.Session) : Prop where
  messageId : m.messageId = v.messageId
  groupsToken : m.groupsToken = v.groupsToken

section

variable {t : ℕ} {m m' : Connection.Mem} {p p' : Connection.Pc} {i : Connection.Input} {v : Connection.Session}

theorem Remembers.effect (h : Remembers m v) (n : ℕ) (e : Effect) :
    Remembers (m.effect n e) (Connection.Session.effect v e) := by
  cases e with
  | setGroupsToken g => exact ⟨h.messageId, rfl⟩
  | setMessageId c => exact ⟨rfl, h.groupsToken⟩
  | connectSet | receive => exact ⟨h.messageId, h.groupsToken⟩

/-- The fields are written by the effects and by a `start()` that resets them. -/
theorem Remembers.next (h : Remembers m v) (hn : Connection.next t m p i = some (m', p'))
    (hb : begins p = true → v = {}) : Remembers m' ((effects (connEvents p p')).foldl Connection.Session.effect v) := by
  cases Connection.next_leads hn with
  | @enter k _ _ he =>
    cases k <;> simp only [Connection.enter, Option.ite_none_right_eq_some] at he
    all_goals first | (obtain ⟨-, he⟩ := he; cases he) | cases he
    all_goals exact ⟨h.messageId, h.groupsToken⟩
  | @start n c _ _ q _ o _ hr =>
    cases q <;> simp only [Connection.runStart] at hr <;> repeat' (split at hr)
    all_goals simp only [reduceCtorEq, Option.some.injEq, Prod.mk.injEq] at hr
    all_goals obtain ⟨rfl, -⟩ := hr
    all_goals first | exact ⟨h.messageId, h.groupsToken⟩ | (rw [hb rfl]; exact ⟨rfl, rfl⟩)
  | @stop g q _ o _ hr =>
    cases q <;> simp only [Connection.runStop] at hr <;> repeat' (split at hr)
    all_goals simp only [reduceCtorEq, Option.some.injEq, Prod.mk.injEq] at hr
    all_goals obtain ⟨rfl, -⟩ := hr; exact ⟨h.messageId, h.groupsToken⟩
  | @error n k c _ _ q _ o _ hr | @leave n k c q o _ hr | @giveUp n k c q o _ hr =>
    cases q <;> simp only [Connection.runError] at hr <;> repeat' (split at hr)
    all_goals simp only [reduceCtorEq, Option.some.injEq, Prod.mk.injEq] at hr
    all_goals obtain ⟨rfl, -⟩ := hr; exact ⟨h.messageId, h.groupsToken⟩
  | effect => exact h.effect _ _
  | late | check | processed | timer => exact ⟨h.messageId, h.groupsToken⟩

end

/-- Since the first effect no `start()` resets the fields. -/
def Lasting (s : State Mem Pc) (l : List Event) : Prop :=
  effects l ≠ [] → s.mem.conn.sessions ≠ 0 ∧ ∀ t, begins (s.pc t).conn = false

section

variable {s : State Mem Pc} {l : List Event}

/-- While a response is processed no `start()` is to reset the fields. -/
theorem lasting_of_running (h : prog.Reach OneStart s) {t : ℕ} (ht : running (s.pc t).conn = true) :
    s.mem.conn.sessions ≠ 0 ∧ ∀ u, begins (s.pc u).conn = false := by
  have hsole := (tokens_holds h).sole
  have hhas := has_of_processing (processing_of_running h t ht)
  refine ⟨fun hz => ?_, fun u => ?_⟩
  · have horigin : Has s .origin := hz
    cases hsole _ _ horigin hhas
  · by_contra hb
    obtain ⟨hmay, hcon⟩ := begins_mayConnect (by simpa using hb)
    have hconn : Has s (.conn u) := .inl ⟨hmay, fun e => by rw [hcon] at e; cases e⟩
    cases hsole _ _ hconn hhas

theorem lasting_holds (h : prog.Trace Readable events s l) : Lasting s l := by
  refine h.invariant (J := Lasting) (fun hne => absurd rfl hne) ?_
  intro s a l m p hr hok ih hn hne
  have hone := oneStart_of_readable hr
  have hconn : ∀ k c q, Connection.next a.thread s.mem.conn (s.pc a.thread).conn k = some (c, q) →
      (effects l ≠ [] ∨ running (s.pc a.thread).conn = true) →
      c.sessions ≠ 0 ∧ begins q = false ∧ ∀ t, begins (s.pc t).conn = false := by
    intro k c q hc hor
    obtain ⟨hse, hb⟩ := hor.elim ih (lasting_of_running hone)
    refine ⟨fun hz => hse (sessions_mono hc hz), ?_, hb⟩
    by_contra hq
    rcases begins_next hc (by simpa using hq) with hp | ⟨n, c₀, hp, hd⟩
    · rw [hb] at hp
      cases hp
    · exact hse (hok.1 n c₀ hp hd)
  have hset : ∀ p' : Pc, p'.conn = p.conn → begins p'.conn = false → (∀ t, begins (s.pc t).conn = false) →
      ∀ t, begins ((s.set a.thread m p).pc t).conn = false := by
    intro p' hp' hq hb t
    by_cases ht : t = a.thread
    · subst ht
      rwa [State.set_pc_self, ← hp']
    · rw [State.set_pc_of_ne _ _ _ _ ht]
      exact hb t
  rw [effects_append] at hne
  rcases next_cases (t := a.thread) hn with ⟨j, c, q, hi, -, hc, rfl, rfl⟩ | ⟨j, o, c, q, hi, -, -, rfl, rfl⟩ |
    ⟨j, o, k, c, q, c', q', hi, -, hc, -, rfl, rfl⟩
  · have hor : effects l ≠ [] ∨ running (s.pc a.thread).conn = true := by
      by_contra hno
      push Not at hno
      rw [hi, hno.1, events, connEvents_of_not_running (by simpa using hno.2)] at hne
      exact hne rfl
    obtain ⟨hse, hq, hb⟩ := hconn j c q hc hor
    exact ⟨hse, hset _ rfl hq hb⟩
  · rw [hi, events, effects_map, List.append_nil] at hne
    obtain ⟨hse, hb⟩ := ih hne
    exact ⟨hse, hset _ rfl (hb a.thread) hb⟩
  · rw [hi, events, effects_map, List.append_nil] at hne
    obtain ⟨hse, hq, hb⟩ := hconn k c q hc (.inl hne)
    exact ⟨hse, hset ⟨q, q', _⟩ rfl hq hb⟩

/-- **The fields are what the effects so far have made of them.** -/
theorem remembers_holds (h : prog.Trace Readable events s l) : Remembers s.mem.conn (replay l) := by
  refine h.invariant (J := fun s l => Remembers s.mem.conn (replay l)) ⟨rfl, rfl⟩ ?_
  intro s a l m p hr hok ih hn
  have hconn : ∀ k c q, Connection.next a.thread s.mem.conn (s.pc a.thread).conn k = some (c, q) →
      Remembers c (replay (l ++ connEvents (s.pc a.thread).conn q)) := by
    intro k c q hc
    rw [replay, effects_append, List.foldl_append]
    refine ih.next hc fun hb => ?_
    by_contra hne
    have hnot := (lasting_holds hr fun e => hne (by rw [replay, e]; rfl)).2 a.thread
    rw [hb] at hnot
    cases hnot
  rcases next_cases (t := a.thread) hn with ⟨j, c, q, hi, -, hc, rfl, rfl⟩ | ⟨j, o, c, q, hi, -, -, rfl, rfl⟩ |
    ⟨j, o, k, c, q, c', q', hi, hs, hc, -, rfl, rfl⟩
  · rw [hi]
    exact hconn j c q hc
  · rw [hi, events, replay, effects_append, effects_map, List.append_nil]
    exact ih
  · have hboth := hconn k c q hc
    rw [connEvents_of_not_running ((sync_both hs).not_running hc), List.append_nil] at hboth
    rw [hi, events, replay, effects_append, effects_map, List.append_nil]
    exact hboth

end

/-! ## From the server to the user -/

/-- The last message id that the responses bring. -/
def lastMessageId (rs : List (Option Json)) : String :=
  ((rs.flatMap processEffects).filterMap Connection.Effect.messageId?).getLast?.getD ""

/-- The last groups token that the responses bring. -/
def lastGroupsToken (rs : List (Option Json)) : String :=
  ((rs.flatMap processEffects).filterMap Connection.Effect.groupsToken?).getLast?.getD ""

/-- No response is on its way, from a client to the message callback or through `process_response`. -/
def Settled (s : State Mem Pc) : Prop :=
  ∀ t, inHand (s.pc t).trans.frame = [] ∧ running (s.pc t).conn = false

section

variable {s : State Mem Pc} {l : List Event}

theorem messages_flatMap (rs : List (Option Json)) :
    (rs.flatMap processEffects).filterMap Connection.Effect.message? = rs.flatMap messages :=
  List.filterMap_flatMap ..

theorem effects_of_settled (h : prog.Trace Readable events s l) (hs : Settled s) :
    effects l = (accepted l).flatMap processEffects := by
  refine ((performed_holds h).eq fun t => ?_).symm
  by_contra hne
  have hrun := running_of_left hne
  rw [(hs t).2] at hrun
  cases hrun

theorem accepted_of_settled (h : prog.Trace Readable events s l) (hl : .destroyed ∉ transEvents l) (hs : Settled s)
    (hcan : s.mem.conn.cancelled 1 = false) : accepted l = fetched l := by
  have hall := (handedOver_holds h hl).all fun k => not_disconnected h hl hcan k
  have hhanded : fetched l = handed l := hall.eq fun t => (hs t).1
  rw [hhanded]
  refine (((accepted_holds h).live hcan).eq fun t => ?_).symm
  by_contra hne
  have hrun := running_of_waiting hne
  rw [(hs t).2] at hrun
  cases hrun

/-- While `reconnect()` builds its URL, no response is on its way. -/
theorem settled_of_build (h : prog.Reach OneStart s) {t n k c : ℕ} (hb : (s.pc t).conn = .error n k c .build) :
    Settled s := by
  have hsole := (tokens_holds h).sole
  have hconn : Has s (.conn t) := by
    refine .inl ⟨by rw [hb]; rfl, fun hcon => ?_⟩
    rw [hb] at hcon
    cases hcon
  refine fun u => ⟨?_, ?_⟩
  · by_contra hne
    have hframe : Has s (.trans (.frame u)) := holds_of_inHand (s := transport s) hne
    cases hsole _ _ hconn hframe
  · by_contra hrun
    cases hsole _ _ hconn (has_of_processing (processing_of_running h u (by simpa using hrun)))

/-- **From the server to the user.**  As long as the transport is alive, the user has got the messages of what the
clients of the session have returned, in order and each once, up to some message; and all of them when nothing is on
its way and the session is not cancelled. -/
theorem delivered_once (h : prog.Trace Readable events s l) (hl : .destroyed ∉ transEvents l) :
    received l <+: (fetched l).flatMap messages ∧
      (Settled s → s.mem.conn.cancelled 1 = false → received l = (fetched l).flatMap messages) := by
  refine ⟨?_, fun hs hcan => ?_⟩
  · have hperformed : received l <+: (accepted l).flatMap messages := by
      rw [← messages_flatMap]
      exact (performed_holds h).isPrefix.filterMap _
    exact hperformed.trans ((accepted_isPrefix h hl).flatMap _)
  · rw [received, effects_of_settled h hs, messages_flatMap, accepted_of_settled h hl hs hcan]

/-- **The resume point.**  When `reconnect()` builds its URL, the user has got all messages of the responses that
have been accepted, which are the first ones that the clients of the session have returned, and all of them unless
the session is cancelled; and the URL names the last message id and the last groups token among them. -/
theorem resumes_delivered {U B : Type} {A : UriApi U B} (hA : A.Lawful) (c : Connection.Endpoint U)
    (h : prog.Trace Readable events s l) (hl : .destroyed ∉ transEvents l) {t n k d : ℕ}
    (hb : (s.pc t).conn = .error n k d .build) :
    received l = (accepted l).flatMap messages ∧ accepted l <+: fetched l ∧
      (s.mem.conn.cancelled 1 = false → accepted l = fetched l) ∧
      ∀ u, Connection.reconnectUrl A c (s.mem.conn.session n (received l)) = some u →
        Connection.Carries A c u "messageId" (lastMessageId (accepted l)) ∧
        Connection.Carries A c u "groupsToken" (lastGroupsToken (accepted l)) := by
  have hs := settled_of_build (oneStart_of_readable h) hb
  have heffects := effects_of_settled h hs
  refine ⟨?_, accepted_isPrefix h hl, accepted_of_settled h hl hs, fun u hu => ?_⟩
  · rw [received, heffects, messages_flatMap]
  · obtain ⟨-, hid, hgroups⟩ := Connection.foldl_effect (effects l) {}
    obtain ⟨hid', hgroups'⟩ := remembers_holds h
    rw [replay, hid, heffects] at hid'
    rw [replay, hgroups, heffects] at hgroups'
    obtain ⟨h₁, h₂⟩ := Connection.carries_reconnectUrl hA hu
    refine ⟨?_, ?_⟩
    · rw [lastMessageId, ← hid']
      exact h₁
    · rw [lastGroupsToken, ← hgroups']
      exact h₂

end

/-! ## A run -/

def update : Json := .object [("C", .string "d-2"), ("G", .string "g+1"), ("M", .array [.null, .bool true])]

/-- The session is started, and thread 3 passes an update on to the user. -/
def delivering : List (Act Input) :=
  established ++ [trans 3 (.received 1 (.inl (some update)))] ++ goes 3 3 ++ conns 3 6 ++ goes 3 5

/-- Then the client fails, and thread 4 gets to the URL of the reconnect request. -/
def resuming : List (Act Input) :=
  delivering ++ [trans 4 (.received 2 (.inr .std)), trans 4 (.observe 2)] ++ goes 4 4 ++ conns 4 13

def isSettled (p : Pc) : Bool := (inHand p.trans.frame).isEmpty && !running p.conn

theorem delivered_once_delivering : ∃ s l, prog.Trace Readable events s l ∧ received l = [.null, .bool true] ∧
    received l = (fetched l).flatMap messages := by
  obtain ⟨s, l, h, hf, hidle⟩ := Program.exists_of_history_lt prog events readable delivering 4 (by decide)
    (fun s l =>
      (transEvents l, received l, s.mem.conn.cancelled 1, (List.range 4).all fun t => isSettled (s.pc t)))
    ([.receive 1 1, .started 1, .received 1 true (some Connection.initMessage),
      .processed 1 (some Connection.initMessage), .receive 1 1, .received 1 true (some update),
      .processed 1 (some update), .receive 1 1], [.null, .bool true], false, true) rfl
  simp only [Prod.mk.injEq] at hf
  obtain ⟨hl, hr, hcan, hs⟩ := hf
  refine ⟨s, l, h, hr, (delivered_once h (by simp [hl])).2 (fun t => ?_) hcan⟩
  by_cases ht : t < 4
  · have := List.all_eq_true.mp hs t (List.mem_range.mpr ht)
    simpa [isSettled] using this
  · rw [hidle t (by omega)]
    exact ⟨rfl, rfl⟩

/-- The connection of the run with its URL. -/
def endpoint : Connection.Endpoint Uri :=
  ⟨UrlBuilder.baseUrl, .websockets, "token", "", ""⟩

set_option maxRecDepth 2000 in
theorem resumes_delivered_resuming : ∃ s l, prog.Trace Readable events s l ∧
    received l = [.null, .bool true] ∧ accepted l = fetched l ∧
    ∃ u, Connection.reconnectUrl uriApi endpoint (s.mem.conn.session 1 (received l)) = some u ∧
      values "messageId" u.query = [utf8 "d-2"] ∧ values "groupsToken" u.query = [utf8 "g+1"] := by
  obtain ⟨s, l, h, hf⟩ := Program.exists_of_history prog events readable resuming
    (fun s l => (transEvents l, received l, accepted l, s.mem.conn.cancelled 1, (s.pc 4).conn))
    ([.receive 1 1, .started 1, .received 1 true (some Connection.initMessage),
      .processed 1 (some Connection.initMessage), .receive 1 1, .received 1 true (some update),
      .processed 1 (some update), .receive 1 1, .error 1],
      [.null, .bool true], [some Connection.initMessage, some update], false, .error 1 1 1 .build) rfl
  simp only [Prod.mk.injEq] at hf
  obtain ⟨hl, hr, hacc, hcan, hpc⟩ := hf
  obtain ⟨-, -, hall, hurl⟩ := resumes_delivered uriApi_lawful endpoint h (by simp [hl]) hpc
  have hquery : endpoint.queryString.toList.all isQueryCharacter = true := rfl
  obtain ⟨u, hu⟩ := Option.isSome_iff_exists.mp (buildReconnect_isSome uriApi_lawful endpoint.baseUrl
    endpoint.transportType endpoint.connectionToken endpoint.connectionData s.mem.conn.messageId
    s.mem.conn.groupsToken hquery)
  obtain ⟨h₁, h₂⟩ := hurl u hu
  refine ⟨s, l, h, hr, hall hcan, u, hu, ?_, ?_⟩
  · have hid : lastMessageId (accepted l) = "d-2" := by rw [hacc]; rfl
    rw [Connection.Carries, hid] at h₁
    exact h₁
  · have hgroups : lastGroupsToken (accepted l) = "g+1" := by rw [hacc]; rfl
    rw [Connection.Carries, hgroups] at h₂
    exact h₂

end SignalRClient.Session
