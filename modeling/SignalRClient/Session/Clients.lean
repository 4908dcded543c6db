import SignalRClient.Session.Exclusion
import SignalRClient.Transport.Clients

/-!
# The clients of a session

The transport on its own does not make sure that a receive loop asks its own client.  In a session it does: a
client is put in place by the one who has the token, when no loop is under way (`Placed`).  So the runs of a
session are runs of the transport in which every loop is fresh, and what the clients return comes to
`process_response` in the order in which it was returned, over all the clients of the session (`handed_over`).  A
response can be dropped only once `disconnect()` has cancelled a loop.
-/

namespace SignalRClient.Session

open Threads

/-! ## What is seen of a session -/

inductive Event where
  | trans (e : Transport.Event (Option Json))
  /-- the message callback goes on to `process_response` with a response -/
  | accepted (x : Option Json)
  /-- a write or a call of `process_response` -/
  | effect (e : Effect)

def connEvents (p p' : Connection.Pc) : List Event :=
  match p, p' with
  | .message _ x, .process _ _ _ => [.accepted x]
  | .process _ _ (e :: _), _ => [.effect e]
  | _, _ => []

def events (t : ℕ) (m : Mem) (p : Pc) (i : Input) (m' : Mem) (p' : Pc) : List Event :=
  match i with
  | .conn _ => connEvents p.conn p'.conn
  | .trans j _ => (Transport.events t m.trans p.trans j m'.trans p'.trans).map .trans

def Event.trans? : Event → Option (Transport.Event (Option Json))
  | .trans e => some e
  | _ => none

/-- What is seen of the transport. -/
def transEvents (l : List Event) : List (Transport.Event (Option Json)) := l.filterMap Event.trans?

@[simp] theorem transEvents_append (l l' : List Event) : transEvents (l ++ l') = transEvents l ++ transEvents l' :=
  List.filterMap_append ..

@[simp] theorem transEvents_map (l : List (Transport.Event (Option Json))) : transEvents (l.map .trans) = l := by
  simp [transEvents, List.filterMap_map, Function.comp_def, Event.trans?]

@[simp] theorem transEvents_conn (p p' : Connection.Pc) : transEvents (connEvents p p') = [] := by
  unfold connEvents
  split <;> rfl

/-! ## The client in place -/

/-- The client in place is that of every loop that is under way. -/
def Placed (s : State Mem Pc) : Prop :=
  ∀ w k x, w.runs → Transport.held (transport s).mem (transport s).pc w = some (k, x) →
    s.mem.trans.websocketClient = k

/-- A step of the transport. -/
theorem Placed.step {ok : State Mem Pc → Act Input → Prop} {s : State Mem Pc} {t : ℕ} {m : Mem} {p : Pc}
    {i : Transport.Input (Option Json)} (h : Placed s) (hr : prog.Reach ok s) (hsole : Sole (Has s))
    (hn : Transport.next t s.mem.trans (s.pc t).trans i = some (m.trans, p.trans)) : Placed (s.set t m p) := by
  have htrans := reachable_transport hr
  intro w k x hw hheld
  rw [transport_set] at hheld
  show m.trans.websocketClient = k
  have horigin := Transport.held_origin (Transport.bounded_holds htrans) (Transport.unique_holds htrans) hn hw hheld
  rcases horigin with ⟨v, y, hv, hold⟩ | ⟨hcall, -⟩
  · rcases Transport.next_client hn with hclient | ⟨j, hj, -⟩
    · rw [hclient]
      exact h v k y hv hold
    · -- who sets a client has the token, and no loop is under way
      have hhas : Has s (.trans (.call t)) := by
        have hown : Transport.held s.mem.trans (transport s).pc (.call t) = some (j, .starting) := by
          simp [Transport.held, State.project, hj, Transport.Call.hold?]
        intro hnone
        have hnone : Transport.held s.mem.trans (transport s).pc (.call t) = none := hnone
        rw [hown] at hnone
        cases hnone
      have hloop : Has s (.trans v) := by
        intro hnone
        have hnone : Transport.held (transport s).mem (transport s).pc v = none := hnone
        rw [hold] at hnone
        cases hnone
      have heq := hsole _ _ hhas hloop
      injection heq with heq
      rw [← heq] at hv
      exact hv.elim
  · have hguard := (Transport.current_holds htrans).guard t _ hcall
    have hk : s.mem.trans.websocketClient = k := hguard.2
    rcases Transport.next_client hn with hclient | ⟨j, hj, -⟩
    · rw [hclient, hk]
    · have hj' : ((transport s).pc t).call = some (.connect (.setClient j)) := hj
      rw [hcall] at hj'
      cases hj'

theorem placed_holds {s : State Mem Pc} (h : prog.Reach OneStart s) : Placed s := by
  refine h.invariant (J := Placed) ?_ ?_
  · intro w k x _ hw
    cases w <;> cases hw
  intro s a m p hr _ hpl hn
  rcases next_cases (t := a.thread) hn with ⟨j, c, q, -, -, -, rfl, rfl⟩ | ⟨j, o, c, q, -, -, hc, rfl, rfl⟩ |
    ⟨j, o, k, c, q, c', q', -, -, -, hc', rfl, rfl⟩
  · have hstill : transport (s.set a.thread { s.mem with conn := c } { s.pc a.thread with conn := q }) =
        transport s := transport_still rfl rfl
    intro w k x hw hheld
    rw [hstill] at hheld
    exact hpl w k x hw hheld
  · exact hpl.step hr (tokens_holds hr).sole hc
  · exact hpl.step hr (tokens_holds hr).sole hc'

/-! ## A session as a run of the transport -/

/-- The connection is started once, and no response fails to be converted. -/
def Readable (s : State Mem Pc) (a : Act Input) : Prop :=
  OneStart s a ∧
    ∀ j x f o, (s.pc a.thread).trans.frame = .message j x .process → a.input = .trans (.go f) o → f = none

section

variable {s : State Mem Pc} {l : List Event}

theorem oneStart_of_readable (h : prog.Trace Readable events s l) : prog.Reach OneStart s :=
  h.reach.mono fun _ _ hok => hok.1

/-- **In a session no loop goes on when another client is in place.** -/
theorem trace_transport (h : prog.Trace Readable events s l) :
    Transport.prog.Trace Transport.Fresh Transport.events (transport s) (transEvents l) := by
  refine h.project Event.trans? rfl rfl ?_
  intro s a m p hr hok hn
  have hpl := placed_holds (hr.mono fun _ _ hok => hok.1)
  have hfetch : ∀ k, ((transport s).pc a.thread).frame.fetches = some k → s.mem.trans.websocketClient = k := by
    intro k hk
    obtain ⟨x, hx⟩ := Transport.hold_of_fetches hk
    exact hpl (.frame a.thread) k x trivial hx
  rcases next_cases (t := a.thread) hn with ⟨j, c, q, hi, -, -, rfl, rfl⟩ | ⟨j, o, c, q, hi, -, hc, rfl, rfl⟩ |
    ⟨j, o, k, c, q, c', q', hi, -, -, hc', rfl, rfl⟩
  · refine .inl ⟨rfl, rfl, ?_⟩
    rw [hi]
    exact transEvents_conn ..
  · refine .inr ⟨j, ⟨fun k hk _ => hfetch k hk, fun j' x f hf hj => ?_⟩, hc, ?_⟩
    · exact hok.2 j' x f o hf (by rw [hi, ← hj])
    · rw [hi]
      exact transEvents_map _
  · refine .inr ⟨j, ⟨fun k hk _ => hfetch k hk, fun j' x f hf hj => ?_⟩, hc', ?_⟩
    · exact hok.2 j' x f o hf (by rw [hi, ← hj])
    · rw [hi]
      exact transEvents_map _

end

/-! ## From the clients to `process_response` -/

/-- The responses that the clients have returned. -/
def fetchedIn (l : List (Transport.Event (Option Json))) : List (Option Json) :=
  l.filterMap fun
    | .received _ _ x => some x
    | _ => none

/-- The responses that have been passed to the message callback. -/
def handedIn (l : List (Transport.Event (Option Json))) : List (Option Json) :=
  l.filterMap fun
    | .processed _ x => some x
    | _ => none

def fetched (l : List Event) : List (Option Json) := fetchedIn (transEvents l)

def handed (l : List Event) : List (Option Json) := handedIn (transEvents l)

/-- The response that a value continuation is about to pass on. -/
def inHand : Transport.Frame (Option Json) → List (Option Json)
  | .message _ x .scheduled | .message _ x .acquire | .message _ x .process => [x]
  | _ => []

/-- A value continuation that is about to be skipped. -/
def Drops (m : Transport.Mem) (p : Transport.Pc (Option Json)) : Prop :=
  ∃ j x, p = ⟨.message j x .scheduled, none⟩ ∧ m.cancelled j.loop = true

@[simp] theorem fetchedIn_append (l l' : List (Transport.Event (Option Json))) :
    fetchedIn (l ++ l') = fetchedIn l ++ fetchedIn l' :=
  List.filterMap_append ..

@[simp] theorem handedIn_append (l l' : List (Transport.Event (Option Json))) :
    handedIn (l ++ l') = handedIn l ++ handedIn l' :=
  List.filterMap_append ..

@[simp] theorem fetched_append (l l' : List Event) : fetched (l ++ l') = fetched l ++ fetched l' := by
  simp [fetched]

@[simp] theorem handed_append (l l' : List Event) : handed (l ++ l') = handed l ++ handed l' := by
  simp [handed]

section

variable {m m' : Transport.Mem} {p p' : Transport.Pc (Option Json)} {i : Transport.Input (Option Json)}
  {f : Option Transport.Fault} {t : ℕ}

theorem fetchedIn_events :
    fetchedIn (Transport.events t m p i m' p') = fetchedIn (Transport.stepEvents m p i) := by
  simp only [Transport.events]
  split <;> simp [fetchedIn]

theorem handedIn_events : handedIn (Transport.events t m p i m' p') = handedIn (Transport.stepEvents m p i) := by
  simp only [Transport.events]
  split <;> simp [handedIn]

theorem runFrame_inHand {q : Transport.Frame (Option Json)} (hrefs : m.refs ≠ 0)
    (hproc : ∀ j x, q = .message j x .process → f = none) (h : Transport.runFrame m q f = some (m', p')) :
    inHand q ++ fetchedIn (Transport.frameEvents q f) = handedIn (Transport.frameEvents q f) ++ inHand p'.frame ∨
      (Drops m ⟨q, none⟩ ∧ handedIn (Transport.frameEvents q f) ++ inHand p'.frame = []) := by
  cases Transport.runFrame_step h with
  | skip hcan => exact .inr ⟨⟨_, _, rfl, hcan⟩, rfl⟩
  | expired hr => exact absurd hr hrefs
  | @throw g j x p hp =>
    left
    rcases hp with rfl | rfl | ⟨client, rfl⟩
    · cases hproc j x rfl
    · cases g <;> rfl
    · cases g <;> rfl
  | _ => exact .inl rfl

theorem enter_inHand (h : Transport.enter m i = some (m', p')) :
    fetchedIn (Transport.stepEvents m {} i) = handedIn (Transport.stepEvents m {} i) ++ inHand p'.frame := by
  cases Transport.enter_step h with
  | @received r j _ hj => simp [Transport.stepEvents, hj, fetchedIn, handedIn, inHand]
  | @receiveFailed g r j hj => cases g <;> simp [Transport.stepEvents, hj, fetchedIn, handedIn, inHand]
  | _ => rfl

/-- A step passes a response on, from a client to a continuation and from there to the message callback, or drops
it. -/
theorem next_inHand (hrefs : m.refs ≠ 0)
    (hproc : ∀ j x f, p.frame = .message j x .process → i = .go f → f = none)
    (h : Transport.next t m p i = some (m', p')) :
    inHand p.frame ++ fetchedIn (Transport.stepEvents m p i) =
        handedIn (Transport.stepEvents m p i) ++ inHand p'.frame ∨
      (Drops m p ∧ handedIn (Transport.stepEvents m p i) ++ inHand p'.frame = []) := by
  rcases Transport.next_cases h with ⟨c, f, q, hc, rfl, -, rfl⟩ | ⟨hc, -, -, -, hp'⟩ | ⟨f, hc, rfl, hf⟩ | ⟨rfl, he⟩
  · left
    have hl : Transport.stepEvents m p (.go f) = [] ∨
        Transport.stepEvents m p (.go f) = [.disconnected m.receiveLoopCts] := by
      rcases c with q | ⟨d, q⟩
      · exact .inl (by simp [Transport.stepEvents, hc])
      · cases q <;> simp [Transport.stepEvents, hc]
    rcases hl with hl | hl <;> rw [hl] <;> simp [fetchedIn, handedIn]
  · left
    rcases hp' with ⟨rfl, rfl⟩ | ⟨rfl, rfl⟩ <;> simp [Transport.stepEvents, hc, fetchedIn, handedIn]
  · have hl : Transport.stepEvents m p (.go f) = Transport.frameEvents p.frame f := by
      simp [Transport.stepEvents, hc]
    have hpc : p = ⟨p.frame, none⟩ := Transport.Pc.ext rfl hc
    rw [hl]
    rw [hpc]
    exact runFrame_inHand hrefs (fun j x hq => hproc j x f hq rfl) hf
  · exact .inl (enter_inHand he)

/-- A response is returned to a loop that is under way. -/
theorem holds_of_fetched {s : State Transport.Mem (Transport.Pc (Option Json))}
    (h : fetchedIn (Transport.stepEvents s.mem p i) ≠ []) : ∃ r, Transport.Holds s (.receive r) := by
  have hframe : ∀ q f, fetchedIn (Transport.frameEvents q f) = [] := by
    intro q f
    unfold Transport.frameEvents
    split <;> repeat' split
    all_goals rfl
  cases hc : p.call with
  | some c =>
    refine absurd ?_ h
    rcases c with q | ⟨d, q⟩
    · simp [Transport.stepEvents, hc, fetchedIn]
    · cases q <;> simp [Transport.stepEvents, hc, fetchedIn]
  | none =>
    cases i with
    | go f => exact absurd (by simp only [Transport.stepEvents, hc, hframe]) h
    | received r o =>
      cases hj : s.mem.receiving r with
      | some j => exact ⟨r, by simp [Transport.Holds, Transport.held, Transport.inMem, hj]⟩
      | none => exact absurd (by simp [Transport.stepEvents, hc, hj, fetchedIn]) h
    | _ => exact absurd (by simp [Transport.stepEvents, hc, fetchedIn]) h

theorem holds_of_inHand {s : State Transport.Mem (Transport.Pc (Option Json))} {u : ℕ}
    (h : inHand (s.pc u).frame ≠ []) : Transport.Holds s (.frame u) := by
  unfold inHand at h
  split at h
  · simp [Transport.Holds, Transport.held, Transport.Frame.hold?, *]
  · simp [Transport.Holds, Transport.held, Transport.Frame.hold?, *]
  · simp [Transport.Holds, Transport.held, Transport.Frame.hold?, *]
  · exact absurd rfl h

end

/-- What the clients have returned is passed to the message callback, but for the response that a value continuation
is about to pass on. -/
structure HandedOver (s : State Mem Pc) (l : List Event) : Prop where
  /-- in order, and none twice -/
  once : Carried List.Sublist (fun p : Pc => inHand p.trans.frame) s (fetched l) (handed l)
  /-- and all of it, before `disconnect()` has cancelled a loop -/
  all : (∀ k, .disconnected k ∉ transEvents l) →
    InOrder (fun p : Pc => inHand p.trans.frame) s (fetched l) (handed l)

section

variable {s : State Mem Pc} {l : List Event}

/-- A step of the transport. -/
theorem HandedOver.step {t : ℕ} {m : Mem} {p : Pc} {j : Transport.Input (Option Json)} (h : HandedOver s l)
    (hsole : Sole (Has s)) (hrefs : s.mem.trans.refs ≠ 0)
    (hdrops : Drops s.mem.trans (s.pc t).trans → ∃ k, .disconnected k ∈ transEvents l)
    (hproc : ∀ j' x f, (s.pc t).trans.frame = .message j' x .process → j = .go f → f = none)
    (hn : Transport.next t s.mem.trans (s.pc t).trans j = some (m.trans, p.trans)) :
    HandedOver (s.set t m p)
      (l ++ (Transport.events t s.mem.trans (s.pc t).trans j m.trans p.trans).map .trans) := by
  have hinto : fetched (l ++ (Transport.events t s.mem.trans (s.pc t).trans j m.trans p.trans).map .trans) =
      fetched l ++ fetchedIn (Transport.stepEvents s.mem.trans (s.pc t).trans j) := by
    simp [fetched, fetchedIn_events]
  have hout : handed (l ++ (Transport.events t s.mem.trans (s.pc t).trans j m.trans p.trans).map .trans) =
      handed l ++ handedIn (Transport.stepEvents s.mem.trans (s.pc t).trans j) := by
    simp [handed, handedIn_events]
  -- a client returns a response to the loop under way, which no other thread has in hand
  have hexcl : fetchedIn (Transport.stepEvents s.mem.trans (s.pc t).trans j) ≠ [] →
      ∀ u, u ≠ t → inHand (s.pc u).trans.frame = [] := by
    intro hne u _
    by_contra hload
    obtain ⟨r, hr⟩ := holds_of_fetched (s := transport s) hne
    have hr : Has s (.trans (.receive r)) := hr
    have hframe : Has s (.trans (.frame u)) := holds_of_inHand (s := transport s) hload
    cases hsole _ _ hframe hr
  have hflow := next_inHand hrefs hproc hn
  refine ⟨?_, fun hno => ?_⟩
  · rw [hinto, hout]
    refine h.once.step composes_sublist ?_ hexcl
    rcases hflow with heq | ⟨-, hnil⟩
    · rw [heq]
    · rw [hnil]
      exact List.nil_sublist _
  · have hno₀ : ∀ k, .disconnected k ∉ transEvents l := fun k hk => hno k (by
      rw [transEvents_append]
      exact List.mem_append_left _ hk)
    rw [hinto, hout]
    refine (h.all hno₀).step (hflow.resolve_right fun hdrop => ?_) hexcl
    obtain ⟨k, hk⟩ := hdrops hdrop.1
    exact hno₀ k hk

theorem handedOver_holds (h : prog.Trace Readable events s l) (hl : .destroyed ∉ transEvents l) :
    HandedOver s l := by
  revert hl
  refine h.invariant (J := fun s l => .destroyed ∉ transEvents l → HandedOver s l) ?_ ?_
  · exact fun _ => ⟨⟨0, .slnil, fun _ _ => rfl⟩, fun _ => ⟨0, rfl, fun _ _ => rfl⟩⟩
  intro s a l m p hr hok ih hn hl
  rw [transEvents_append] at hl
  have hl₀ : .destroyed ∉ transEvents l := fun h => hl (List.mem_append_left _ h)
  have htrans := trace_transport hr
  have hrefs : s.mem.trans.refs ≠ 0 := fun h => hl₀ ((Transport.course_holds htrans).2 h)
  have hsole := (tokens_holds (oneStart_of_readable hr)).sole
  have hdrops : Drops s.mem.trans (s.pc a.thread).trans → ∃ k, .disconnected k ∈ transEvents l := by
    rintro ⟨j, x, hpc, hcan⟩
    refine ⟨j.loop, (Transport.course_holds htrans).1.told (.frame a.thread) j.loop .looping ?_ hcan⟩
    simp [Transport.held, State.project, hpc, Transport.Frame.hold?]
  have hproc : ∀ j o, a.input = .trans j o → ∀ j' x f, (s.pc a.thread).trans.frame = .message j' x .process →
      j = .go f → f = none := by
    rintro j o hi j' x f hf rfl
    exact hok.2 j' x f o hf hi
  rcases next_cases (t := a.thread) hn with ⟨j, c, q, hi, -, -, rfl, rfl⟩ | ⟨j, o, c, q, hi, -, hc, rfl, rfl⟩ |
    ⟨j, o, k, c, q, c', q', hi, -, -, hc', rfl, rfl⟩
  · have hnone : transEvents (connEvents (s.pc a.thread).conn q) = [] := transEvents_conn ..
    have hfetched : fetched (connEvents (s.pc a.thread).conn q) = [] := by rw [fetched, hnone]; rfl
    have hhanded : handed (connEvents (s.pc a.thread).conn q) = [] := by rw [handed, hnone]; rfl
    rw [hi]
    refine ⟨?_, fun hno => ?_⟩
    · rw [events, fetched_append, handed_append]
      exact (ih hl₀).once.step composes_sublist (by simp [hfetched, hhanded]) fun hne => absurd hfetched hne
    · rw [events, transEvents_append, hnone, List.append_nil] at hno
      rw [events, fetched_append, handed_append]
      exact ((ih hl₀).all hno).step (by simp [hfetched, hhanded]) fun hne => absurd hfetched hne
  · rw [hi]
    exact (ih hl₀).step hsole hrefs hdrops (hproc j o hi) hc
  · rw [hi]
    exact (ih hl₀).step hsole hrefs hdrops (hproc j o hi) hc'

/-- **From the clients to the message callback.**  In a session every `receive()` is issued on the client of its
own loop, and as long as the transport is alive, what the clients of the session return, one after another, is
passed to the message callback in this order and none twice; all of it, as long as no `disconnect()` has cancelled a
loop. -/
theorem handed_over (h : prog.Trace Readable events s l) :
    (∀ k client, .receive k client ∈ transEvents l → client = k) ∧
      (.destroyed ∉ transEvents l → HandedOver s l) := by
  refine ⟨fun k client hk => ?_, handedOver_holds h⟩
  have htrans := trace_transport h
  obtain ⟨l₁, l₂, hl⟩ := List.append_of_mem hk
  obtain ⟨s₀, a, m, p, o₁, o₂, l₀, h₀, -, -, hobs, -⟩ := htrans.exists_step hl
  have hmem : .receive k client ∈ Transport.events a.thread s₀.mem (s₀.pc a.thread) a.input m p := by
    rw [hobs]
    exact List.mem_append_right _ List.mem_cons_self
  exact Transport.step_receive ((Transport.owning_holds h₀.reach).frame a.thread) hmem

end

def readable : Test Readable := oneStart.and
  { test := fun s a =>
      match (s.pc a.thread).trans.frame, a.input with
      | .message _ _ .process, .trans (.go f) _ => f == none
      | _, _ => true
    sound := fun h j x f o hf hi => by simpa [hf, hi] using h }

/-- The init message has been handed over. -/
theorem handed_over_receiving : ∃ s l, prog.Trace Readable events s l ∧ HandedOver s l ∧
    handed l = [some Connection.initMessage] ∧ ∀ k client, .receive k client ∈ transEvents l → client = k := by
  obtain ⟨s, l, h, hl⟩ := Program.exists_of_history prog events readable receiving
    (fun _ l => transEvents l)
    [.receive 1 1, .started 1, .received 1 true (some Connection.initMessage),
      .processed 1 (some Connection.initMessage)] rfl
  obtain ⟨hclient, hhanded⟩ := handed_over h
  refine ⟨s, l, h, hhanded (by simp [hl]), ?_, hclient⟩
  rw [handed, hl]
  rfl

end SignalRClient.Session
