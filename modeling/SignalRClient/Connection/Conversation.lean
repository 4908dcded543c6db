import SignalRClient.Connection.Shutdown
import SignalRClient.Threads.Project

/-!
# What the server sees of a connection

The requests of a connection with the strings they carry.  `m_connection_id` and `m_connection_token` are reset by
each `start()` and set from the answer to its negotiate request; `reconnect()` keeps the URL it has built for all its
attempts.

* `Stage` is the protocol of a session as the server sees it: negotiate, connect, start, any number of reconnects,
  abort;
* `conversation` — the requests of each session follow that protocol, session after session, and all of a session carry
  the connection token that its own negotiate request was answered with;
* `identity_current` — the connection id that the user is shown is that of the current session.
-/

namespace SignalRClient.Conversation

open Threads UrlBuilder Uri
open Connection (NegotiationResponse StartPc StopPc ErrorPc)

/-! ## The protocol of a session -/

inductive Kind where
  | negotiate | connect | start | reconnect | abort
  deriving DecidableEq

/-- How far the server has come with a session. -/
inductive Stage where
  | fresh | asked | linked | opened | closed
  deriving DecidableEq

/-- The next request of the session. -/
def Stage.take : Stage → Kind → Option Stage
  | .fresh, .negotiate => some .asked
  | .asked, .connect => some .linked
  | .linked, .start => some .opened
  | .opened, .reconnect => some .opened
  | .opened, .abort => some .closed
  | _, _ => none

/-- The requests of a session, one after the other. -/
def Stage.follow (x : Stage) (ks : List Kind) : Option Stage := ks.foldlM Stage.take x

theorem Stage.follow_snoc (x : Stage) (ks : List Kind) (k : Kind) :
    x.follow (ks ++ [k]) = (x.follow ks).bind fun y => y.take k := by
  unfold Stage.follow
  rw [List.foldlM_append]
  refine bind_congr fun y => ?_
  rw [List.foldlM_cons]
  simp

/-- What a session that has come this far has asked. -/
def Stage.asks (j : ℕ) : Stage → List Kind
  | .fresh => []
  | .asked => [.negotiate]
  | .linked => [.negotiate, .connect]
  | .opened => [.negotiate, .connect, .start] ++ List.replicate j .reconnect
  | .closed => [.negotiate, .connect, .start] ++ List.replicate j .reconnect ++ [.abort]

theorem Stage.asks_of_follow {ks : List Kind} {x : Stage} (h : Stage.follow .fresh ks = some x) :
    ∃ j, ks = x.asks j := by
  induction ks using List.reverseRecOn generalizing x with
  | nil =>
    cases h
    exact ⟨0, rfl⟩
  | append_singleton ks k ih =>
    rw [follow_snoc] at h
    obtain ⟨y, hy, hk⟩ := Option.bind_eq_some_iff.mp h
    obtain ⟨j, rfl⟩ := ih hy
    unfold Stage.take at hk
    split at hk <;> cases hk
    · exact ⟨0, rfl⟩
    · exact ⟨0, rfl⟩
    · exact ⟨0, rfl⟩
    · refine ⟨j + 1, ?_⟩
      unfold Stage.asks
      rw [List.replicate_succ', List.append_assoc]
    · exact ⟨j, rfl⟩

theorem Stage.asks_prefix (x : Stage) (j : ℕ) : x.asks j <+: Stage.asks j .closed := by
  cases x with
  | fresh => exact List.nil_prefix
  | asked => exact ⟨[.connect, .start] ++ List.replicate j .reconnect ++ [.abort], rfl⟩
  | linked => exact ⟨[.start] ++ List.replicate j .reconnect ++ [.abort], rfl⟩
  | opened => exact List.prefix_append ..
  | closed => exact List.prefix_rfl

/-! ## The members and the closures -/

/-- `m_connection_id` and `m_connection_token`. -/
structure Identity where
  connectionId : String := ""
  connectionToken : String := ""
  deriving DecidableEq

def identityOf (r : NegotiationResponse) : Identity := ⟨r.connectionId, r.connectionToken⟩

/-- The strings that go into a URL. -/
structure Target where
  connectionToken : String := ""
  messageId : String := ""
  groupsToken : String := ""
  deriving DecidableEq

/-- `response` is bookkeeping: how the negotiate request of a session was answered. -/
structure Mem where
  conn : Connection.Mem := {}
  identity : Identity := {}
  response : ℕ → Option NegotiationResponse := fun _ => none

/-- `negotiated` is the `negotiation_response` of a `start()`, `target` what the `reconnect_url` of a `reconnect()` was
built from. -/
structure Pc where
  conn : Connection.Pc := .idle
  negotiated : Option NegotiationResponse := none
  target : Target := {}

/-- The negotiate request of a session is answered. -/
def answer : Connection.Pc → Connection.Input → Option (ℕ × NegotiationResponse)
  | .start n _ .negotiating, .task (.negotiated r) => some (n, r)
  | _, _ => none

def identityAfter (m : Mem) : Connection.Pc → Identity
  | .start _ _ .fields => {}
  | .start _ c (.startTransport r) =>
    if m.conn.cancelled c then m.identity
    else if r.protocolVersion ≠ protocol then m.identity
    else identityOf r
  | _ => m.identity

def targetAfter (m : Mem) (p : Pc) : Target :=
  match p.conn with
  | .error _ _ _ .build => ⟨m.identity.connectionToken, m.conn.messageId, m.conn.groupsToken⟩
  | _ => p.target

def next (t : ℕ) (m : Mem) (p : Pc) (i : Connection.Input) : Option (Mem × Pc) :=
  (Connection.next t m.conn p.conn i).map fun r =>
    match answer p.conn i with
    | some (n, x) =>
      ({ m with conn := r.1, response := Function.update m.response n (some x) },
        { p with conn := r.2, negotiated := some x })
    | none =>
      ({ m with conn := r.1, identity := identityAfter m p.conn }, { p with conn := r.2, target := targetAfter m p })

/-- **The program of `connection_impl` with the strings of its requests.** -/
def prog : Program Mem Pc Connection.Input := ⟨{}, {}, next⟩

/-! ## The requests -/

structure Request where
  session : ℕ
  kind : Kind
  target : Target := {}
  deriving DecidableEq

/-- Seen: the requests, each at the step that makes it. -/
def sent (_ : ℕ) (m : Mem) (p : Pc) (_ : Connection.Input) (_ : Mem) (p' : Pc) : List Request :=
  match p.conn, p'.conn with
  | .start n _ .negotiate, .start _ _ .negotiating => [⟨n, .negotiate, {}⟩]
  | .start n _ .connect, .start _ _ .connecting =>
    [⟨n, .connect, { connectionToken := (p.negotiated.map (·.connectionToken)).getD "" }⟩]
  | .start n _ .startRequest, .start _ _ .startRequesting =>
    [⟨n, .start, { connectionToken := m.identity.connectionToken }⟩]
  | .error _ _ _ .tryConnect, .error _ _ _ .tryWait => [⟨m.conn.sessions, .reconnect, p.target⟩]
  | .stop _ .abort, .stop _ .disconnect =>
    [⟨m.conn.sessions, .abort, { connectionToken := m.identity.connectionToken }⟩]
  | _, _ => []

/-- The requests of session `n`. -/
def kinds (n : ℕ) (l : List Request) : List Kind := (l.filter (·.session = n)).map (·.kind)

def stage (n : ℕ) (l : List Request) : Option Stage := Stage.follow .fresh (kinds n l)

/-- Where the requests go to. -/
structure Server (U : Type) where
  baseUrl : U
  transportType : TransportType
  connectionData : String
  queryString : String

def Request.url {U B : Type} (A : UriApi U B) (c : Server U) (q : Request) : Option U :=
  match q.kind with
  | .negotiate => buildNegotiate A c.baseUrl c.connectionData c.queryString
  | .connect => buildConnect A c.baseUrl c.transportType q.target.connectionToken c.connectionData c.queryString
  | .start => buildStart A c.baseUrl c.transportType q.target.connectionToken c.connectionData c.queryString
  | .reconnect =>
    buildReconnect A c.baseUrl c.transportType q.target.connectionToken c.connectionData q.target.messageId
      q.target.groupsToken c.queryString
  | .abort => buildAbort A c.baseUrl c.transportType q.target.connectionToken c.connectionData c.queryString

/-! ## The connection in it -/

/-- The connection without the strings. -/
abbrev connection (s : State Mem Pc) : State Connection.Mem Connection.Pc := s.project Mem.conn Pc.conn

/-- A condition on the steps of the connection. -/
def Lifts (ok : State Connection.Mem Connection.Pc → Act Connection.Input → Prop) (s : State Mem Pc)
    (a : Act Connection.Input) : Prop :=
  ok (connection s) a

/-- What a step is: the negotiate request is answered, or the strings are moved. -/
theorem next_cases {t : ℕ} {m m' : Mem} {p p' : Pc} {i : Connection.Input} (h : next t m p i = some (m', p')) :
    ∃ c q, Connection.next t m.conn p.conn i = some (c, q) ∧
      ((∃ n k r, p.conn = .start n k .negotiating ∧ i = .task (.negotiated r) ∧
          m' = { m with conn := c, response := Function.update m.response n (some r) } ∧
          p' = { p with conn := q, negotiated := some r }) ∨
        (m' = { m with conn := c, identity := identityAfter m p.conn } ∧
          p' = { p with conn := q, target := targetAfter m p } ∧ answer p.conn i = none)) := by
  unfold next at h
  obtain ⟨⟨c, q⟩, hn, h⟩ := Option.map_eq_some_iff.mp h
  refine ⟨c, q, hn, ?_⟩
  cases hx : answer p.conn i with
  | none =>
    rw [hx] at h
    cases h
    exact .inr ⟨rfl, rfl, rfl⟩
  | some x =>
    obtain ⟨n, r⟩ := x
    rw [hx] at h
    cases h
    unfold answer at hx
    split at hx <;> cases hx
    exact .inl ⟨_, _, _, by assumption, rfl, rfl, rfl⟩

theorem next_connection {t : ℕ} {m m' : Mem} {p p' : Pc} {i : Connection.Input} (h : next t m p i = some (m', p')) :
    Connection.next t m.conn p.conn i = some (m'.conn, p'.conn) := by
  obtain ⟨c, q, hn, ⟨_, _, _, _, _, rfl, rfl⟩ | ⟨rfl, rfl, -⟩⟩ := next_cases h
  · exact hn
  · exact hn

theorem reach_connection {ok : State Connection.Mem Connection.Pc → Act Connection.Input → Prop} {s : State Mem Pc}
    (h : prog.Reach (Lifts ok) s) : Connection.prog.Reach ok (connection s) :=
  h.project rfl rfl fun _ a _ _ _ ha hn => .inr ⟨a.input, ha, next_connection hn⟩

/-! ## The strings of the current session -/

/-- The strings are those that session `n` was answered with. -/
def Own (m : Mem) (n : ℕ) : Prop := ∃ r, m.response n = some r ∧ m.identity = identityOf r

/-- What a `start()` of session `n` knows of its answer. -/
def startKnows (m : Mem) (p : Pc) (n : ℕ) : StartPc → Prop
  | .newCts | .reset | .fields => m.response n = none
  | .unlock | .attach | .negotiate | .negotiating => m.response n = none ∧ m.identity = {}
  | .startTransport r => m.response n = some r ∧ p.negotiated = some r ∧ m.identity = {}
  | .create | .connect | .connecting | .setTransport | .startRequest | .startRequesting | .succeed =>
    ∃ r, m.response n = some r ∧ p.negotiated = some r ∧ m.identity = identityOf r
  | .fail | .failState => m.identity = {} ∨ Own m n
  | _ => True

/-- What a thread knows of the strings. -/
def Knows (m : Mem) (p : Pc) : Prop :=
  match p.conn with
  | .start n _ q => startKnows m p n q
  | .error _ _ _ .tryCheck | .error _ _ _ .tryConnect | .error _ _ _ .tryWait | .error _ _ _ .tryFailed
  | .error _ _ _ .tryWindow | .error _ _ _ .retryCheck => p.target.connectionToken = m.identity.connectionToken
  | _ => True

/-- The session is under way: it has got past its start, and is not over. -/
def Running (x : Connection.ConnectionState) : Prop := x ≠ .connecting ∧ x ≠ .disconnected

/-- The strings and the answers. -/
structure Recorded (m : Mem) : Prop where
  own : Running m.conn.connState → Own m m.conn.sessions
  ended : m.conn.connState = .disconnected → m.identity = {} ∨ Own m m.conn.sessions
  unborn : ∀ n, m.conn.sessions < n → m.response n = none

section

variable {t : ℕ} {m m' : Mem} {p p' q : Pc} {i : Connection.Input}

/-- Who is in no start and no attempt knows nothing. -/
theorem knows_of_free (h : p.conn.role.phase = none) : Knows m p := by
  unfold Knows
  split
  · rename_i n c x hp
    rw [hp] at h
    cases x <;> first | exact True.intro | cases h
  all_goals first
    | trivial
    | (rename_i hp; rw [hp] at h; cases h)

theorem Knows.congr (h : Knows m p) (hr : m'.response = m.response) (hi : m'.identity = m.identity) : Knows m' p := by
  unfold Knows startKnows Own at h ⊢
  rw [hr, hi]
  exact h

/-- The strings are written in a start. -/
theorem next_strings (h : next t m p i = some (m', p')) :
    (m'.response = m.response ∧ m'.identity = m.identity) ∨
      (p.conn.role.phase = some .connecting ∧ m'.conn.connState = m.conn.connState) := by
  obtain ⟨c, q, hn, ⟨n, k, r, hp, rfl, rfl, rfl⟩ | ⟨rfl, rfl, -⟩⟩ := next_cases h
  · rw [hp] at hn ⊢
    obtain ⟨o, ho, hr⟩ := Connection.next_start hn
    cases ho
    cases hr
    exact .inr ⟨rfl, rfl⟩
  · unfold identityAfter
    split
    · rename_i n k hp
      rw [hp] at hn ⊢
      obtain ⟨o, -, hr⟩ := Connection.next_start hn
      cases hr
      exact .inr ⟨rfl, rfl⟩
    · rename_i n k r hp
      rw [hp] at hn ⊢
      obtain ⟨o, -, hr⟩ := Connection.next_start hn
      simp only [Connection.runStart] at hr
      repeat' (split at hr)
      all_goals
        cases hr
        exact .inr ⟨rfl, rfl⟩
    · exact .inl ⟨rfl, rfl⟩

/-- A negotiate request is answered once. -/
theorem next_response (h : next t m p i = some (m', p')) (n : ℕ) :
    m'.response n = m.response n ∨ ∃ k, p.conn = .start n k .negotiating := by
  obtain ⟨c, q, -, ⟨n₀, k, r, hp, -, rfl, -⟩ | ⟨rfl, -, -⟩⟩ := next_cases h
  · by_cases hn : n = n₀
    · exact .inr ⟨k, hn ▸ hp⟩
    · exact .inl (Function.update_of_ne hn ..)
  · exact .inl rfl

/-- A step of a `start()`. -/
theorem next_startKnows {n k n' k' : ℕ} {x x' : StartPc} (h : next t m p i = some (m', p'))
    (hp : p.conn = .start n k x) (hp' : p'.conn = .start n' k' x') (hm : Recorded m) (hk : startKnows m p n x) :
    startKnows m' p' n' x' := by
  obtain ⟨c, q, hn, ⟨n₀, k₀, r, hp₀, rfl, rfl, rfl⟩ | ⟨rfl, rfl, ha⟩⟩ := next_cases h
  · rw [hp₀] at hp hn
    cases hp
    obtain ⟨o, ho, hr⟩ := Connection.next_start hn
    cases ho
    cases hr
    cases hp'
    exact ⟨Function.update_self .., rfl, hk.2⟩
  · rw [hp] at hn ha
    obtain ⟨o, rfl, hr⟩ := Connection.next_start hn
    obtain rfl : q = .start n' k' x' := hp'
    cases x <;> simp only [Connection.runStart] at hr <;> repeat' (split at hr)
    all_goals simp only [reduceCtorEq, Option.some.injEq, Prod.mk.injEq, Connection.Pc.start.injEq] at hr
    all_goals obtain ⟨rfl, rfl, rfl, rfl⟩ := hr
    case cas.isTrue => exact hm.unborn _ (Nat.lt_succ_self _)
    case fields =>
      refine ⟨hk, ?_⟩
      simp only [identityAfter, hp]
    case startTransport.isFalse.isFalse.isTrue r hcan hver _ =>
      refine ⟨r, hk.1, hk.2.1, ?_⟩
      simp only [identityAfter, hp]
      rw [if_neg hcan, if_neg hver]
    case startTransport.isFalse.isFalse.isFalse r hcan hver _ =>
      refine .inr ⟨r, hk.1, ?_⟩
      simp only [identityAfter, hp]
      rw [if_neg hcan, if_neg hver]
    case startTransport.isFalse.isTrue r hcan hver =>
      refine .inl ?_
      simp only [identityAfter, hp]
      rw [if_neg hcan, if_pos hver]
      exact hk.2.2
    case startTransport.isTrue r hcan =>
      refine .inl ?_
      simp only [identityAfter, hp]
      rw [if_pos hcan]
      exact hk.2.2
    all_goals simp only [startKnows, identityAfter, hp] at hk ⊢
    all_goals first
      | exact hk
      | exact .inl hk.2
      | (obtain ⟨r, hresp, -, hid⟩ := hk; exact .inr ⟨r, hresp, hid⟩)
      | cases ha

/-- A step of a `reconnect()`: the URL is built from the strings of the session, and kept. -/
theorem next_errorKnows {n k c n' k' c' : ℕ} {x x' : ErrorPc} (h : next t m p i = some (m', p'))
    (hp : p.conn = .error n k c x) (hp' : p'.conn = .error n' k' c' x') (hk : Knows m p) : Knows m' p' := by
  obtain ⟨d, q, hn, ⟨_, _, _, hp₀, -⟩ | ⟨rfl, rfl, -⟩⟩ := next_cases h
  · rw [hp₀] at hp
    cases hp
  · rw [hp] at hn
    obtain ⟨o, rfl, hr⟩ := Connection.next_error hn
    obtain rfl : q = .error n' k' c' x' := hp'
    cases x <;> simp only [Connection.runError] at hr <;> repeat' (split at hr)
    all_goals simp only [reduceCtorEq, Option.some.injEq, Prod.mk.injEq, Connection.Pc.error.injEq] at hr
    all_goals obtain ⟨rfl, rfl, rfl, rfl, rfl⟩ := hr
    all_goals simp only [Knows, identityAfter, targetAfter, hp] at hk ⊢
    all_goals exact hk

theorem next_knows (h : next t m p i = some (m', p')) (hm : Recorded m) (hk : Knows m p) : Knows m' p' := by
  have hn := next_connection h
  generalize hp : p.conn = x, hp' : p'.conn = x', m.conn = c, m'.conn = c' at hn
  cases Connection.next_leads hn with
  | @enter k _ _ _ _ he =>
    apply knows_of_free
    rw [hp', he]
    cases k <;> rfl
  | @start n c n' c' q q' =>
    unfold Knows at hk ⊢
    rw [hp] at hk
    rw [hp']
    exact next_startKnows h hp hp' hm hk
  | error => exact next_errorKnows h hp hp' hk
  | @stop g q q' =>
    apply knows_of_free
    rw [hp']
    cases q' <;> rfl
  | _ =>
    apply knows_of_free
    rw [hp']
    rfl

end

section

variable {s : State Mem Pc}

/-- A step keeps the strings in step with the sessions. -/
theorem Recorded.step {a : Act Connection.Input} {m : Mem} {p : Pc} (h : Recorded s.mem)
    (hr : prog.Reach (Lifts Connection.OnTime) s) (hn : next a.thread s.mem (s.pc a.thread) a.input = some (m, p))
    (hk : Knows s.mem (s.pc a.thread))
    (hsession : ∀ n c x, (s.pc a.thread).conn = .start n c x → StartPc.busy x = true → n = s.mem.conn.sessions) :
    Recorded m := by
  have hl := Connection.life_holds (reach_connection hr)
  have hw := Connection.next_writes (next_connection hn)
  -- the strings are written while the state is connecting
  have hsame : m.conn.connState ≠ .connecting → m.response = s.mem.response ∧ m.identity = s.mem.identity := by
    intro hc
    refine (next_strings hn).resolve_right fun hwrite => ?_
    rw [hwrite.2] at hc
    exact hc ((hl.loc a.thread).phase _ hwrite.1)
  have hsessions : m.conn.connState ≠ .connecting → m.conn.sessions = s.mem.conn.sessions := by
    intro hc
    rcases hw.sessions with e | ⟨-, hd, n, c, hp, -⟩
    · exact e
    · exfalso
      have hnext := next_connection hn
      rw [hp] at hnext
      obtain ⟨o, -, hrun⟩ := Connection.next_start hnext
      rw [Connection.runStart, if_pos hd] at hrun
      generalize m.conn = c', p.conn = q at hrun hc
      cases hrun
      exact hc rfl
  have hown : m.conn.connState ≠ .connecting →
      (Own s.mem s.mem.conn.sessions → Own m m.conn.sessions) ∧
        (s.mem.identity = {} → m.identity = {}) := by
    intro hc
    obtain ⟨hresp, hid⟩ := hsame hc
    unfold Own
    rw [hresp, hid, hsessions hc]
    exact ⟨id, id⟩
  unfold Knows at hk
  refine ⟨fun hrun => (hown hrun.1).1 ?_, fun hover => ?_, fun n hlt => ?_⟩
  · rcases hw.state with e | hch
    · rw [e] at hrun
      exact h.own hrun
    · have hclosing := (hl.loc a.thread).closing
      change (s.pc a.thread).conn.role.closing = true → _ at hclosing
      generalize hp : (s.pc a.thread).conn = x, m.conn.connState = y at hch hrun hclosing
      cases hch with
      | start => exact absurd rfl hrun.1
      | notStarted | stopped => exact absurd rfl hrun.2
      | lost hc | regained hc =>
        apply h.own
        rw [Running, hc]
        decide
      | stop =>
        apply h.own
        rcases (hclosing rfl).2.2.2 with hc | hc
        all_goals
          rw [Running, show s.mem.conn.connState = _ from hc]
          decide
      | @started n c =>
        rw [hp] at hk
        obtain ⟨r, hresp, -, hid⟩ := hk
        obtain rfl := hsession n c _ hp rfl
        exact ⟨r, hresp, hid⟩
  · have hne : m.conn.connState ≠ .connecting := by
      rw [hover]
      decide
    obtain ⟨h₁, h₂⟩ := hown hne
    refine Or.imp h₂ h₁ ?_
    rcases hw.state with e | hch
    · exact h.ended (e.symm.trans hover)
    · generalize hp : (s.pc a.thread).conn = x, m.conn.connState = y at hch hover
      subst hover
      cases hch with
      | @notStarted n c =>
        rw [hp] at hk
        obtain rfl := hsession n c _ hp rfl
        exact hk
      | stopped hc =>
        refine .inr (h.own ?_)
        rw [Running, hc]
        decide
  · have hle : s.mem.conn.sessions ≤ m.conn.sessions := by
      rcases hw.sessions with e | ⟨e, -⟩ <;> omega
    rcases next_response hn n with e | ⟨k, hp⟩
    · rw [e]
      exact h.unborn n (by omega)
    · obtain rfl := hsession n k _ hp rfl
      omega

/-- The strings are those of the current session. -/
def outline : Outline Mem Pc where
  glob := Recorded
  loc _ := Knows
  pair _ _ _ := True

theorem strings_hold (h : prog.Reach (Lifts Connection.OnTime) s) : outline.Holds s := by
  refine Outline.holds_of_reach ?_ ?_ h
  · refine ⟨⟨fun hr => absurd rfl hr.2, fun _ => .inl rfl, fun _ _ => rfl⟩, fun _ => trivial, fun _ _ _ => trivial⟩
  intro s a m p hr _ hi hn
  have hn : next a.thread s.mem (s.pc a.thread) a.input = some (m, p) := hn
  have hconn := reach_connection hr
  have hl := Connection.life_holds hconn
  have hb := Connection.ledger_holds hconn
  have hstrings := next_strings hn
  have hsession : ∀ n c x, (s.pc a.thread).conn = .start n c x → StartPc.busy x = true →
      n = s.mem.conn.sessions := by
    intro n c x hp hx
    refine ((hb.loc a.thread).session n ?_).2.2
    show (s.pc a.thread).conn.share.session = some n
    rw [hp]
    exact if_pos hx
  refine ⟨hi.glob.step hr hn (hi.loc a.thread) hsession, next_knows hn hi.glob (hi.loc _), fun u hu => ?_,
    fun _ _ => trivial, fun _ _ => trivial, fun _ _ _ => trivial⟩
  -- a thread in a start is alone in that
  rcases hstrings with ⟨hresp, hid⟩ | ⟨hphase, -⟩
  · exact (hi.loc u).congr hresp hid
  · apply knows_of_free
    refine (hl.pair a.thread u hu.symm).phase ?_
    show (s.pc a.thread).conn.role.phase ≠ none
    rw [hphase]
    simp

/-- An answer stays. -/
theorem response_mono {a : Act Connection.Input} {m : Mem} {p : Pc} {n : ℕ} {r : NegotiationResponse}
    (h : prog.Reach (Lifts Connection.OnTime) s) (hn : next a.thread s.mem (s.pc a.thread) a.input = some (m, p))
    (hr : s.mem.response n = some r) : m.response n = some r := by
  rcases next_response hn n with e | ⟨k, hp⟩
  · rw [e]
    exact hr
  · -- the session is still waiting for its answer
    have hknows : Knows s.mem (s.pc a.thread) := (strings_hold h).loc a.thread
    unfold Knows at hknows
    rw [hp] at hknows
    rw [show s.mem.response n = none from hknows.1] at hr
    cases hr

end

/-! ## Who makes a request -/

/-- How far the session has come of a thread that is to go on with it. -/
def expects : Connection.Pc → Option Stage
  | .start _ _ .newCts | .start _ _ .reset | .start _ _ .fields | .start _ _ .unlock | .start _ _ .attach
  | .start _ _ .negotiate => some .fresh
  | .start _ _ .negotiating | .start _ _ (.startTransport _) | .start _ _ .create | .start _ _ .connect => some .asked
  | .start _ _ .connecting | .start _ _ .setTransport | .start _ _ .startRequest => some .linked
  | .start _ _ .startRequesting | .start _ _ .succeed => some .opened
  | .stop _ .unlock | .stop _ .abort => some .opened
  | _ => none

/-- The steps that make a request. -/
inductive Speaks (m : Mem) (p : Pc) : Connection.Pc → Request → Prop
  | negotiate {n c n' c' : ℕ} : p.conn = .start n c .negotiate →
      Speaks m p (.start n' c' .negotiating) ⟨n, .negotiate, {}⟩
  | connect {n c n' c' : ℕ} : p.conn = .start n c .connect → Speaks m p (.start n' c' .connecting)
      ⟨n, .connect, { connectionToken := (p.negotiated.map (·.connectionToken)).getD "" }⟩
  | start {n c n' c' : ℕ} : p.conn = .start n c .startRequest → Speaks m p (.start n' c' .startRequesting)
      ⟨n, .start, { connectionToken := m.identity.connectionToken }⟩
  | reconnect {n k c n' k' c' : ℕ} : p.conn = .error n k c .tryConnect →
      Speaks m p (.error n' k' c' .tryWait) ⟨m.conn.sessions, .reconnect, p.target⟩
  | abort {g g' : Connection.Origin} : p.conn = .stop g .abort → Speaks m p (.stop g' .disconnect)
      ⟨m.conn.sessions, .abort, { connectionToken := m.identity.connectionToken }⟩

/-- It is in a start, in an attempt, or in a shutdown that has moved the state. -/
def Busy (p : Connection.Pc) : Prop := p.role.phase ≠ none ∨ p.uses = true

section

variable {t : ℕ} {m m' : Mem} {p p' : Pc} {i : Connection.Input} {x : Stage} {q : Request}

theorem sent_cases (t : ℕ) (m : Mem) (p : Pc) (i : Connection.Input) (m' : Mem) (p' : Pc) :
    sent t m p i m' p' = [] ∨ ∃ q, sent t m p i m' p' = [q] ∧ Speaks m p p'.conn q := by
  unfold sent
  split
  · rename_i hp hp'
    exact .inr ⟨_, rfl, hp' ▸ .negotiate hp⟩
  · rename_i hp hp'
    exact .inr ⟨_, rfl, hp' ▸ .connect hp⟩
  · rename_i hp hp'
    exact .inr ⟨_, rfl, hp' ▸ .start hp⟩
  · rename_i hp hp'
    exact .inr ⟨_, rfl, hp' ▸ .reconnect hp⟩
  · rename_i hp hp'
    exact .inr ⟨_, rfl, hp' ▸ .abort hp⟩
  · exact .inl rfl

theorem busy_of_expects {p : Connection.Pc} (h : expects p = some x) : Busy p := by
  unfold expects at h
  split at h
  all_goals first
    | (cases h; done)
    | exact .inr rfl
    | exact .inl (by simp [Connection.Pc.role, StartPc.role])

theorem Speaks.busy {p' : Connection.Pc} (h : Speaks m p p' q) : Busy p.conn := by
  cases h with
  | abort hp =>
    rw [hp]
    exact .inr rfl
  | negotiate hp | connect hp | start hp | reconnect hp =>
    rw [hp]
    exact .inl (by simp [Connection.Pc.role, StartPc.role, ErrorPc.role])

/-- A request is the next one of the session, and the session is open behind it, or it is on its way there, or it is
being stopped. -/
theorem Speaks.take {p' : Connection.Pc} (h : Speaks m p p' q) :
    ∃ y z, (expects p.conn = some y ∨ (y = .opened ∧ p.conn.role.phase = some .reconnecting)) ∧
      y.take q.kind = some z ∧ (∀ x, expects p' = some x → z = x) ∧
      (z = .opened ∨ p.conn.role.phase = some .connecting ∨ p.conn.uses = true) := by
  cases h with
  | negotiate hp | connect hp | start hp =>
    rw [hp]
    exact ⟨_, _, .inl rfl, rfl, fun x hx => (by cases hx; rfl), .inr (.inl rfl)⟩
  | reconnect hp =>
    rw [hp]
    exact ⟨_, _, .inr ⟨rfl, rfl⟩, rfl, fun x hx => (by cases hx), .inl rfl⟩
  | abort hp =>
    rw [hp]
    exact ⟨_, _, .inl rfl, rfl, fun x hx => (by cases hx), .inr (.inr rfl)⟩

/-- A request leaves the state and the number of the sessions as they are. -/
theorem Speaks.still (h : Speaks m p p'.conn q) (hn : next t m p i = some (m', p')) :
    m'.conn.connState = m.conn.connState ∧ m'.conn.sessions = m.conn.sessions := by
  have hw := Connection.next_writes (next_connection hn)
  generalize p'.conn = x at h hw
  cases h
  all_goals
    rename_i hp
    rw [hp] at hw
    refine ⟨?_, ?_⟩
    · rcases hw.state with e | hch
      · exact e
      · generalize m'.conn.connState = y at hch
        cases hch
    · rcases hw.sessions with e | ⟨-, -, _, _, e, -⟩
      · exact e
      · cases e

/-- Without a request a thread keeps its place in the session, begins a new one, or has just moved the state to
disconnecting. -/
theorem expects_of_quiet (hn : next t m p i = some (m', p')) (hq : sent t m p i m' p' = [])
    (hx : expects p'.conn = some x) :
    (expects p.conn = some x ∧ m'.conn.sessions = m.conn.sessions) ∨
      (x = .fresh ∧ m'.conn.sessions = m.conn.sessions + 1) ∨
      (x = .opened ∧ m'.conn.sessions = m.conn.sessions ∧ ∃ g, p.conn = .stop g .exchange) := by
  have hc := next_connection hn
  unfold sent at hq
  generalize p.conn = y, p'.conn = y', m'.conn = c' at hc hq hx ⊢
  cases Connection.next_leads hc with
  | @start n k n' k' z z' o _ hr =>
    cases z <;> simp only [Connection.runStart] at hr <;> repeat' (split at hr)
    all_goals simp only [reduceCtorEq, Option.some.injEq, Prod.mk.injEq, Connection.Pc.start.injEq] at hr
    all_goals obtain ⟨rfl, rfl, rfl, rfl⟩ := hr
    all_goals simp only [expects, reduceCtorEq, Option.some.injEq] at hx
    all_goals first
      | (subst hx; exact .inl ⟨rfl, rfl⟩)
      | (subst hx; exact .inr (.inl ⟨rfl, rfl⟩))
      | cases hq
  | @stop g z z' o _ hr =>
    cases z <;> simp only [Connection.runStop] at hr <;> repeat' (split at hr)
    all_goals simp only [reduceCtorEq, Option.some.injEq, Prod.mk.injEq, Connection.Pc.stop.injEq] at hr
    all_goals obtain ⟨rfl, -, rfl⟩ := hr
    all_goals simp only [expects, reduceCtorEq, Option.some.injEq] at hx
    all_goals first
      | (subst hx; exact .inl ⟨rfl, rfl⟩)
      | (subst hx; exact .inr (.inr ⟨rfl, rfl, _, rfl⟩))
  | @enter k _ _ _ _ he =>
    rw [he] at hx
    cases k <;> cases hx
  | _ => cases hx

end

/-- No start signals late, and no continuation of a `stop()` ends a session in the shutdown of another one. -/
abbrev Sound (s : State Connection.Mem Connection.Pc) (a : Act Connection.Input) : Prop :=
  Connection.OnTime s a ∧ Connection.NotInterrupted s a

section

variable {s : State Connection.Mem Connection.Pc}

/-- One shutdown at a time has moved the state. -/
theorem uses_sole (h : Connection.prog.Reach Sound s) {t u : ℕ} (ht : (s.pc t).uses = true)
    (hu : (s.pc u).uses = true) : t = u := by
  revert t u
  refine h.invariant (J := fun s => ∀ {t u : ℕ}, (s.pc t).uses = true → (s.pc u).uses = true → t = u)
    (fun e => (by cases e)) ?_
  intro s a m p hr _ ih hn
  -- who comes to it has just moved the state, and so nobody was there before
  have hnew : p.uses = true → ∀ u, u ≠ a.thread → (s.pc u).uses = false := by
    intro hp u hu
    by_contra huse
    have huse : (s.pc u).uses = true := by simpa using huse
    have hstate := (Connection.uses_holds hr u huse).1
    rcases Connection.next_stops hn (Connection.Pc.stops_of_uses hp) with ⟨-, hold, -⟩ | ⟨⟨g, hg⟩, -⟩
    · exact hu (ih huse (hold hp))
    · have hclosing := ((Connection.life_holds (hr.mono fun _ _ hs => hs.1)).loc a.thread).closing (by rw [hg]; rfl)
      rw [hstate] at hclosing
      rcases hclosing.2.2.2 with hc | hc <;> cases hc
  intro t u ht hu
  by_cases hta : t = a.thread
  · by_contra hne
    have hua : u ≠ a.thread := fun e => hne (hta.trans e.symm)
    rw [hta, State.set_pc_self] at ht
    rw [State.set_pc_of_ne _ _ _ _ hua, hnew ht u hua] at hu
    cases hu
  · rw [State.set_pc_of_ne _ _ _ _ hta] at ht
    by_cases hua : u = a.thread
    · rw [hua, State.set_pc_self] at hu
      rw [hnew hu t hta] at ht
      cases ht
    · rw [State.set_pc_of_ne _ _ _ _ hua] at hu
      exact ih ht hu

/-- Who goes on with the session is alone in that. -/
theorem busy_sole (h : Connection.prog.Reach Sound s) {t u : ℕ} (ht : Busy (s.pc t)) (hu : Busy (s.pc u)) : t = u := by
  have hl := Connection.life_holds (h.mono fun _ _ hs => hs.1)
  have hmixed : ∀ t u, (s.pc t).role.phase ≠ none → (s.pc u).uses = true → False := by
    intro t u hphase huse
    obtain ⟨x, hx⟩ := Option.ne_none_iff_exists'.mp hphase
    have hstate := (hl.loc t).phase x hx
    rw [(Connection.uses_holds h u huse).1] at hstate
    cases x <;> cases hstate
  rcases ht with ht | ht
  · rcases hu with hu | hu
    · by_contra hne
      exact hu ((hl.pair t u hne).phase ht)
    · exact (hmixed t u ht hu).elim
  · rcases hu with hu | hu
    · exact (hmixed u t hu ht).elim
    · exact uses_sole h ht hu

end

/-! ## The requests of a run -/

section

variable {n : ℕ} {l : List Request} {q : Request}

theorem stage_snoc (n : ℕ) (l : List Request) (q : Request) :
    stage n (l ++ [q]) = if q.session = n then (stage n l).bind fun y => y.take q.kind else stage n l := by
  unfold stage kinds
  rw [List.filter_append, List.filter_singleton]
  by_cases h : q.session = n
  · rw [if_pos h, decide_eq_true h, cond_true, List.map_append, List.map_singleton, Stage.follow_snoc]
  · rw [if_neg h, decide_eq_false h, cond_false, List.append_nil]

theorem stage_fresh (h : ∀ q ∈ l, q.session ≠ n) : stage n l = some .fresh := by
  unfold stage kinds
  rw [List.filter_eq_nil_iff.mpr fun q hq => (by simpa using h q hq)]
  rfl

end

/-- The requests so far. -/
structure Told (s : State Mem Pc) (l : List Request) : Prop where
  past : ∀ q ∈ l, q.session ≤ s.mem.conn.sessions
  ordered : (l.map (·.session)).Pairwise (· ≤ ·)
  follows : ∀ n, (stage n l).isSome = true
  due : ∀ t x, expects (s.pc t).conn = some x → stage s.mem.conn.sessions l = some x
  opened : s.mem.conn.connState = .connected ∨ s.mem.conn.connState = .reconnecting →
    stage s.mem.conn.sessions l = some .opened
  tokens : ∀ q ∈ l, q.kind ≠ .negotiate →
    ∃ r, s.mem.response q.session = some r ∧ q.target.connectionToken = r.connectionToken

section

variable {s : State Mem Pc} {l : List Request} {a : Act Connection.Input} {m : Mem} {p : Pc} {q : Request}

/-- A request of the current session, the next one of it. -/
theorem Told.snoc {x y : Stage} (h : Told s l) (hq : q.session = s.mem.conn.sessions)
    (hx : stage s.mem.conn.sessions l = some x) (hy : x.take q.kind = some y) :
    (∀ r ∈ l ++ [q], r.session ≤ s.mem.conn.sessions) ∧ ((l ++ [q]).map (·.session)).Pairwise (· ≤ ·) ∧
      (∀ n, (stage n (l ++ [q])).isSome = true) ∧ stage s.mem.conn.sessions (l ++ [q]) = some y := by
  have hnext : stage s.mem.conn.sessions (l ++ [q]) = some y := by
    rw [stage_snoc, if_pos hq, hx]
    exact hy
  refine ⟨fun r hr => ?_, ?_, fun n => ?_, hnext⟩
  · rcases List.mem_append.mp hr with hr | hr
    · exact h.past r hr
    · rw [List.mem_singleton.mp hr, hq]
  · rw [List.map_append, List.pairwise_append]
    refine ⟨h.ordered, List.pairwise_singleton .., fun i hi j hj => ?_⟩
    obtain ⟨r, hr, rfl⟩ := List.mem_map.mp hi
    obtain rfl := List.mem_singleton.mp hj
    exact (h.past r hr).trans hq.ge
  · by_cases hn : s.mem.conn.sessions = n
    · subst hn
      rw [hnext]
      rfl
    · rw [stage_snoc, if_neg (fun e => hn (hq.symm.trans e))]
      exact h.follows n

section Speaks

variable {t : ℕ} {y : Connection.Pc}

theorem reach_sound (h : prog.Reach (Lifts Sound) s) : prog.Reach (Lifts Connection.OnTime) s :=
  h.mono fun _ _ hs => hs.1

/-- A request belongs to the current session. -/
theorem Speaks.session (h : Speaks s.mem (s.pc t) y q) (hr : prog.Reach (Lifts Sound) s) :
    q.session = s.mem.conn.sessions := by
  have hstart : ∀ n c z, (s.pc t).conn = .start n c z → StartPc.busy z = true → n = s.mem.conn.sessions := by
    intro n c z hp hz
    have hloc := (Connection.ledger_holds (reach_connection (reach_sound hr))).loc t
    refine (hloc.session n ?_).2.2
    show (s.pc t).conn.share.session = some n
    rw [hp]
    exact if_pos hz
  cases h with
  | negotiate hp | connect hp | start hp => exact hstart _ _ _ hp rfl
  | reconnect | abort => rfl

/-- … and carries its connection token. -/
theorem Speaks.token (h : Speaks s.mem (s.pc t) y q) (hr : prog.Reach (Lifts Sound) s) (hk : q.kind ≠ .negotiate) :
    ∃ r, s.mem.response q.session = some r ∧ q.target.connectionToken = r.connectionToken := by
  have hstrings := strings_hold (reach_sound hr)
  have hloc : Knows s.mem (s.pc t) := hstrings.loc t
  unfold Knows at hloc
  cases h with
  | negotiate => exact absurd rfl hk
  | connect hp =>
    rw [hp] at hloc
    obtain ⟨r, hresp, hneg, -⟩ := hloc
    exact ⟨r, hresp, by rw [hneg]; rfl⟩
  | start hp =>
    rw [hp] at hloc
    obtain ⟨r, hresp, -, hid⟩ := hloc
    exact ⟨r, hresp, by rw [hid]; rfl⟩
  | @reconnect n k c _ _ _ hp =>
    rw [hp] at hloc
    have hstate : s.mem.conn.connState = .reconnecting := by
      refine ((Connection.life_holds (reach_connection (reach_sound hr))).loc t).phase .reconnecting ?_
      show (s.pc t).conn.role.phase = _
      rw [hp]
      rfl
    obtain ⟨r, hresp, hid⟩ := hstrings.glob.own (by rw [Running, hstate]; decide)
    refine ⟨r, hresp, ?_⟩
    rw [show (s.pc t).target.connectionToken = s.mem.identity.connectionToken from hloc, hid]
    rfl
  | @abort g _ hp =>
    have hstate := (Connection.uses_holds (reach_connection hr) t
      (by show (s.pc t).conn.uses = true; rw [hp]; rfl)).1
    have hstate : s.mem.conn.connState = .disconnecting := hstate
    obtain ⟨r, hresp, hid⟩ := hstrings.glob.own (by rw [Running, hstate]; decide)
    exact ⟨r, hresp, by rw [hid]; rfl⟩

end Speaks

/-- A step without a request. -/
theorem Told.quiet (h : Told s l) (hr : prog.Reach (Lifts Sound) s)
    (hn : next a.thread s.mem (s.pc a.thread) a.input = some (m, p))
    (hq : sent a.thread s.mem (s.pc a.thread) a.input m p = []) : Told (s.set a.thread m p) l := by
  have hconn := reach_connection hr
  have hw := Connection.next_writes (next_connection hn)
  have hlife := Connection.life_holds (reach_connection (reach_sound hr))
  have hle : s.mem.conn.sessions ≤ m.conn.sessions := by
    rcases hw.sessions with e | ⟨e, -⟩ <;> omega
  have hfresh : m.conn.sessions = s.mem.conn.sessions + 1 → stage m.conn.sessions l = some .fresh := by
    intro e
    apply stage_fresh
    intro q hq
    have := h.past q hq
    omega
  refine ⟨fun q hq => (h.past q hq).trans hle, h.ordered, h.follows, ?_, ?_, fun q hq hk => ?_⟩
  · intro u x hx
    rw [State.set_mem]
    by_cases hu : u = a.thread
    · subst hu
      rw [State.set_pc_self] at hx
      rcases expects_of_quiet hn hq hx with ⟨hold, e⟩ | ⟨rfl, e⟩ | ⟨rfl, e, g, hp⟩
      · rw [e]
        exact h.due a.thread x hold
      · exact hfresh e
      · rw [e]
        apply h.opened
        have hclosing := (hlife.loc a.thread).closing (congrArg (fun q => q.role.closing) hp)
        exact hclosing.2.2.2
    · rw [State.set_pc_of_ne _ _ _ _ hu] at hx
      rcases hw.sessions with e | ⟨-, hd, n, c, hp, -⟩
      · rw [e]
        exact h.due u x hx
      · -- a session begins when nobody goes on with the one before
        exfalso
        rcases busy_of_expects hx with hphase | huse
        · obtain ⟨y, hy⟩ := Option.ne_none_iff_exists'.mp hphase
          have hstate := (hlife.loc u).phase y hy
          rw [show (connection s).mem.connState = _ from hd] at hstate
          cases y <;> cases hstate
        · have hstate := (Connection.uses_holds hconn u huse).1
          rw [show (connection s).mem.connState = _ from hd] at hstate
          cases hstate
  · intro hopen
    rw [State.set_mem] at hopen ⊢
    have hsame : m.conn.sessions = s.mem.conn.sessions := by
      rcases hw.sessions with e | ⟨-, hd, n, c, hp, -⟩
      · exact e
      · exfalso
        rcases hw.state with e | hch
        · rw [e, hd] at hopen
          rcases hopen with e | e <;> cases e
        · rw [hp] at hch
          generalize m.conn.connState = y at hch hopen
          cases hch
          rcases hopen with e | e <;> cases e
    rw [hsame]
    rcases hw.state with e | hch
    · rw [e] at hopen
      exact h.opened hopen
    · have hexpects := h.due a.thread
      generalize (s.pc a.thread).conn = x, m.conn.connState = y at hch hopen hexpects
      cases hch with
      | started => exact hexpects _ rfl
      | lost hc => exact h.opened (.inl hc)
      | regained hc => exact h.opened (.inr hc)
      | _ => rcases hopen with e | e <;> cases e
  · obtain ⟨r, hresp, htoken⟩ := h.tokens q hq hk
    exact ⟨r, response_mono (reach_sound hr) hn hresp, htoken⟩

/-- A step with a request. -/
theorem Told.speak (h : Told s l) (hr : prog.Reach (Lifts Sound) s)
    (hn : next a.thread s.mem (s.pc a.thread) a.input = some (m, p)) (hq : Speaks s.mem (s.pc a.thread) p.conn q) :
    Told (s.set a.thread m p) (l ++ [q]) := by
  have hconn := reach_connection hr
  have hlife := Connection.life_holds (reach_connection (reach_sound hr))
  have hsession := hq.session hr
  obtain ⟨hstate, hsessions⟩ := hq.still hn
  -- the stage before and after
  obtain ⟨x, y, hbefore, hy, hafter, hstage⟩ := hq.take
  have hphase : ∀ z, (s.pc a.thread).conn.role.phase = some z → s.mem.conn.connState = z.state :=
    (hlife.loc a.thread).phase
  have hx : stage s.mem.conn.sessions l = some x := by
    rcases hbefore with hx | ⟨rfl, hp⟩
    · exact h.due a.thread x hx
    · exact h.opened (.inr (hphase _ hp))
  have hopened : s.mem.conn.connState = .connected ∨ s.mem.conn.connState = .reconnecting → y = .opened := by
    intro hopen
    rcases hstage with e | hp | huse
    · exact e
    · rw [hphase _ hp] at hopen
      rcases hopen with e | e <;> cases e
    · have hstop : s.mem.conn.connState = .disconnecting := (Connection.uses_holds hconn a.thread huse).1
      rw [hstop] at hopen
      rcases hopen with e | e <;> cases e
  obtain ⟨hpast, hordered, hfollows, hnext⟩ := h.snoc hsession hx hy
  refine ⟨?_, hordered, hfollows, ?_, ?_, fun r hmem hk => ?_⟩
  · rw [State.set_mem, hsessions]
    exact hpast
  · intro u z hz
    rw [State.set_mem, hsessions]
    by_cases hu : u = a.thread
    · subst hu
      rw [State.set_pc_self] at hz
      rw [hnext, hafter z hz]
    · rw [State.set_pc_of_ne _ _ _ _ hu] at hz
      exact absurd (busy_sole hconn (busy_of_expects hz) hq.busy) hu
  · intro hopen
    rw [State.set_mem] at hopen ⊢
    rw [hstate] at hopen
    rw [hsessions, hnext, hopened hopen]
  · obtain ⟨x, hresp, htoken⟩ : ∃ x, s.mem.response r.session = some x ∧
        r.target.connectionToken = x.connectionToken := by
      rcases List.mem_append.mp hmem with hmem | hmem
      · exact h.tokens r hmem hk
      · rw [List.mem_singleton.mp hmem] at hk ⊢
        exact hq.token hr hk
    exact ⟨x, response_mono (reach_sound hr) hn hresp, htoken⟩

theorem told_holds (h : prog.Trace (Lifts Sound) sent s l) : Told s l := by
  refine h.invariant (J := Told) ?_ ?_
  · refine ⟨fun _ hq => (by cases hq), List.Pairwise.nil, fun _ => rfl, fun _ _ hx => (by cases hx), ?_,
      fun _ hq => (by cases hq)⟩
    rintro (e | e) <;> cases e
  · intro s a l m p hr _ ih hn
    rcases sent_cases a.thread s.mem (s.pc a.thread) a.input m p with hq | ⟨q, hq, hspeaks⟩
    · rw [hq, List.append_nil]
      exact ih.quiet hr.reach hn hq
    · rw [hq]
      exact ih.speak hr.reach hn hspeaks

end

/-! ## The URLs -/

section

variable {U B : Type} {A : UriApi U B}

/-- What the URL of a request says about the connection token, between the base URL and the query string of the
user. -/
def Names (A : UriApi U B) (c : Server U) (u : U) (token : String) : Prop :=
  values "connectionToken" (A.uriQuery u) =
    values "connectionToken" (A.uriQuery c.baseUrl) ++ (if token = "" then [] else [utf8 token]) ++
      values "connectionToken" c.queryString

theorem names_url (hA : A.Lawful) {c : Server U} {q : Request} {u : U} (h : q.url A c = some u)
    (hk : q.kind ≠ .negotiate) : Names A c u q.target.connectionToken := by
  have hparameters : ∀ t : TransportType, ∀ token data messageId groupsToken : String,
      ((parameters t token data messageId groupsToken).filter (·.1 = "connectionToken")).map (fun p => utf8 p.2) =
        if token = "" then [] else [utf8 token] := by
    intro t token data messageId groupsToken
    unfold parameters
    rw [List.filter_append, List.filter_cons_of_neg (by decide), List.filter_filter]
    by_cases htoken : token = "" <;> simp [htoken]
  unfold Request.url at h
  unfold Names
  split at h
  · rename_i hkind
    exact absurd hkind hk
  · rw [hA.values_toUri h, query_convertToWebsocketUrl hA, values_buildUri hA c.baseUrl (by decide), hparameters]
  · rw [hA.values_toUri h, values_buildUri hA c.baseUrl (by decide), hparameters]
  · rw [values_buildReconnect hA h, hparameters]
  · rw [hA.values_toUri h, values_buildUri hA c.baseUrl (by decide), hparameters]

variable {s : State Mem Pc} {l : List Request}

/-- **The conversation.**  The requests come session after session, those of each session in the order of the protocol,
and the URLs of all but the first name the connection token that its negotiate request was answered with. -/
theorem conversation (hA : A.Lawful) (h : prog.Trace (Lifts Sound) sent s l) :
    (l.map (·.session)).Pairwise (· ≤ ·) ∧
      (∀ n, ∃ j, kinds n l <+: [.negotiate, .connect, .start] ++ List.replicate j .reconnect ++ [.abort]) ∧
      ∀ q ∈ l, q.kind ≠ .negotiate → ∃ r, s.mem.response q.session = some r ∧
        ∀ c u, q.url A c = some u → Names A c u r.connectionToken := by
  have htold := told_holds h
  refine ⟨htold.ordered, fun n => ?_, fun q hq hk => ?_⟩
  · obtain ⟨x, hx⟩ := Option.isSome_iff_exists.mp (htold.follows n)
    obtain ⟨j, hj⟩ := Stage.asks_of_follow hx
    exact ⟨j, hj ▸ x.asks_prefix j⟩
  · obtain ⟨r, hresp, htoken⟩ := htold.tokens q hq hk
    refine ⟨r, hresp, fun c u hu => ?_⟩
    rw [← htoken]
    exact names_url hA hu hk

end

def sound : Test (Lifts Sound) where
  test s a := (Connection.onTime.and Connection.notInterrupted).test (connection s) a
  sound h := (Connection.onTime.and Connection.notInterrupted).sound h

def secondResponse : NegotiationResponse := { Connection.negotiationResponse with connectionToken := "token-2" }

/-- The start request of session 1 fails; session 2 loses its connection, gets it back at the second attempt, and is
stopped. -/
def talking : List (Act Connection.Input) :=
  [Connection.call 0 .start] ++ Connection.tasks 0 8 ++
  [Connection.task 0 (.negotiated Connection.negotiationResponse)] ++ Connection.tasks 0 3 ++
  [Connection.call 1 (.message 1 (some Connection.initMessage))] ++ Connection.tasks 1 4 ++ Connection.tasks 0 3 ++
  [Connection.task 0 .fault] ++ Connection.tasks 0 2 ++
  [Connection.call 2 .start] ++ Connection.tasks 2 8 ++ [Connection.task 2 (.negotiated secondResponse)] ++
  Connection.tasks 2 3 ++ [Connection.call 3 (.message 2 (some Connection.initMessage))] ++ Connection.tasks 3 4 ++
  Connection.tasks 2 6 ++ [Connection.call 4 (.error 2)] ++ Connection.tasks 4 16 ++ [Connection.task 4 .fault] ++
  Connection.tasks 4 9 ++ [Connection.call 5 .stop] ++ Connection.tasks 5 8

/-- The requests of the run. -/
def talk : List Request :=
  [⟨1, .negotiate, {}⟩, ⟨1, .connect, ⟨"token", "", ""⟩⟩, ⟨1, .start, ⟨"token", "", ""⟩⟩,
    ⟨2, .negotiate, {}⟩, ⟨2, .connect, ⟨"token-2", "", ""⟩⟩, ⟨2, .start, ⟨"token-2", "", ""⟩⟩,
    ⟨2, .reconnect, ⟨"token-2", "d-1", ""⟩⟩, ⟨2, .reconnect, ⟨"token-2", "d-1", ""⟩⟩,
    ⟨2, .abort, ⟨"token-2", "", ""⟩⟩]

def server : Server Uri := ⟨UrlBuilder.baseUrl, .websockets, "", ""⟩

set_option maxRecDepth 4000 in
theorem trace_talking : ∃ s, prog.Trace (Lifts Sound) sent s talk ∧ s.mem.conn.connState = .disconnecting ∧
    s.mem.conn.sessions = 2 ∧ s.mem.response 2 = some secondResponse := by
  obtain ⟨s, l, h, hf⟩ := prog.exists_of_history sent sound talking
    (fun s l => (l, s.mem.conn.connState, s.mem.conn.sessions, s.mem.response 2))
    (talk, .disconnecting, 2, some secondResponse) rfl
  simp only [Prod.mk.injEq] at hf
  obtain ⟨rfl, hf⟩ := hf
  exact ⟨s, h, hf⟩

theorem conversation_talking : ∃ s, prog.Trace (Lifts Sound) sent s talk ∧
    ∀ u, Request.url uriApi server ⟨2, .reconnect, ⟨"token-2", "d-1", ""⟩⟩ = some u →
      Names uriApi server u "token-2" := by
  obtain ⟨s, h, -, -, hresp⟩ := trace_talking
  obtain ⟨-, -, htokens⟩ := conversation uriApi_lawful h
  obtain ⟨r, hr, hnames⟩ := htokens ⟨2, .reconnect, ⟨"token-2", "d-1", ""⟩⟩ (by decide) (by decide)
  refine ⟨s, h, fun u hu => ?_⟩
  cases hresp.symm.trans hr
  exact hnames server u hu

/-! ## The id of the connection -/

/-- `get_connection_id()` -/
def getConnectionId (m : Mem) : String := if m.conn.connState = .connecting then "" else m.identity.connectionId

/-- `get_connection_token()` -/
def getConnectionToken (m : Mem) : String := if m.conn.connState = .connecting then "" else m.identity.connectionToken

/-- **The id that the user is shown.**  Past its start a session shows the id and the token that it was answered with;
before, and behind a start that has failed early, they are empty.  Those of an earlier session are never shown. -/
theorem identity_current {s : State Mem Pc} (h : prog.Reach (Lifts Connection.OnTime) s) :
    (Running s.mem.conn.connState → ∃ r, s.mem.response s.mem.conn.sessions = some r ∧
      getConnectionId s.mem = r.connectionId ∧ getConnectionToken s.mem = r.connectionToken) ∧
    ((getConnectionId s.mem = "" ∧ getConnectionToken s.mem = "") ∨
      ∃ r, s.mem.response s.mem.conn.sessions = some r ∧
        getConnectionId s.mem = r.connectionId ∧ getConnectionToken s.mem = r.connectionToken) := by
  have hglob := (strings_hold h).glob
  have hown : s.mem.conn.connState ≠ .connecting → Own s.mem s.mem.conn.sessions →
      ∃ r, s.mem.response s.mem.conn.sessions = some r ∧
        getConnectionId s.mem = r.connectionId ∧ getConnectionToken s.mem = r.connectionToken := by
    intro hc ⟨r, hresp, hid⟩
    unfold getConnectionId getConnectionToken
    rw [if_neg hc, if_neg hc, hid]
    exact ⟨r, hresp, rfl, rfl⟩
  refine ⟨fun hrun => hown hrun.1 (hglob.own hrun), ?_⟩
  by_cases hc : s.mem.conn.connState = .connecting
  · left
    unfold getConnectionId getConnectionToken
    rw [if_pos hc, if_pos hc]
    exact ⟨rfl, rfl⟩
  by_cases hd : s.mem.conn.connState = .disconnected
  · rcases hglob.ended hd with hid | hid
    · left
      unfold getConnectionId getConnectionToken
      rw [if_neg hc, if_neg hc, hid]
      exact ⟨rfl, rfl⟩
    · exact .inr (hown hc hid)
  · exact .inr (hown hc (hglob.own ⟨hc, hd⟩))

theorem identity_current_talking : ∃ s, prog.Reach (Lifts Connection.OnTime) s ∧
    s.mem.conn.connState = .disconnecting ∧ getConnectionId s.mem = "id" ∧ getConnectionToken s.mem = "token-2" := by
  obtain ⟨s, h, hstate, hsessions, hresp⟩ := trace_talking
  have hr := reach_sound h.reach
  obtain ⟨r, hown, hid, htoken⟩ := (identity_current hr).1 (by rw [Running, hstate]; decide)
  rw [hsessions, hresp] at hown
  cases hown
  exact ⟨s, hr, hstate, hid, htoken⟩

end SignalRClient.Conversation
