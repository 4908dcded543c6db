import SignalRClient.Connection.Requests
import SignalRClient.Connection.Sessions
import SignalRClient.Threads.Project
import SignalRClient.Threads.Trace

/-!
# The handshake of `start()`

`wire` is the program of `connection_impl` with the replies to its negotiate and start requests as they come
from the network.  `stages` are what is seen of a handshake: the answers, the message that is processed, what becomes
of the members, and the completion of the task of `start()`.

`handshake`: no start gets to connected but by all the stages in their order, and the task of a start that does
not overlap with another one tells whether it has got there.  `handshake_wrapped`: the init message need not have the
`S` that it should have.
-/

namespace SignalRClient.Connection

open Threads

/-! ## Starts that do not overlap -/

/-- The thread has moved the state to connecting, and the task of its `start()` is still to be completed. -/
def Pc.underway : Pc → Bool
  | .start _ _ q => match q with
    | .lock | .cas | .reject | .rejected | .started | .failed => false
    | _ => true
  | _ => false

/-- No `start()` moves the state to connecting before the task of another one is completed. -/
def Alone (s : State Mem Pc) (t : ℕ) : Prop :=
  ∀ n c, s.pc t = .start n c .cas → s.mem.connState = .disconnected → ∀ u, (s.pc u).underway = false

section

variable {t : ℕ} {m m' : Mem} {p p' : Pc} {i : Input}

theorem failed_mono (h : next t m p i = some (m', p')) {n : ℕ} (hn : m.failed n = true) : m'.failed n = true := by
  rcases (next_records h).failed with e | ⟨k, c, -, e⟩
  · rwa [e]
  · rw [e]
    by_cases hk : n = k
    · simp [hk]
    · rwa [Function.update_of_ne hk]

end

/-- **Starts that do not overlap signal in time.** -/
theorem onTime_of_alone {s : State Mem Pc} (h : prog.Reach (fun s a => Alone s a.thread) s) :
    prog.Reach OnTime s ∧
      ∀ t n c, s.pc t = .start n c .failSet → s.mem.failed n = true ∧ n = s.mem.sessions := by
  refine h.invariant (J := fun s => prog.Reach OnTime s ∧
    ∀ t n c, s.pc t = .start n c .failSet → s.mem.failed n = true ∧ n = s.mem.sessions) ?_ ?_
  · exact ⟨.init, fun t n c hp => (by cases hp)⟩
  · intro s a m p hr ha ⟨hon, hfail⟩ hn
    have hlife := life_holds hon
    have hledger := ledger_holds hon
    have hok : OnTime s a := by
      intro n c hp u
      obtain ⟨hf, rfl⟩ := hfail _ n c hp
      have hdis : s.mem.connState = .disconnected := (hledger.glob.failed _ hf).2 rfl
      by_contra hun
      obtain ⟨-, hph⟩ := (hlife.loc u).unset (by simpa using hun)
      cases hphase : (s.pc u).role.phase with
      | none => exact hph hphase
      | some ph =>
        have hst := (hlife.loc u).phase ph hphase
        rw [hdis] at hst
        cases ph <;> cases hst
    refine ⟨hon.step hok (Program.step_eq_some.mpr ⟨m, p, hn, rfl⟩), fun t n c hp => ?_⟩
    by_cases ht : t = a.thread
    · subst ht
      rw [State.set_pc_self] at hp
      subst hp
      rcases start_of_next hn with ⟨-, -, e, -⟩ | ⟨n₀, c₀, q₀, o, hp, -, hrun⟩
      · cases e
      · cases q₀ <;> simp only [runStart] at hrun <;> repeat' (split at hrun)
        all_goals simp only [reduceCtorEq, Option.some.injEq, Prod.mk.injEq, Pc.start.injEq, and_false] at hrun
        obtain ⟨rfl, rfl, rfl, -⟩ := hrun
        refine ⟨by simp, ?_⟩
        have hse := (hledger.loc a.thread).session n₀ (by rw [hp]; rfl)
        exact hse.2.2
    · rw [State.set_pc_of_ne _ _ _ _ ht] at hp
      obtain ⟨hf, hse⟩ := hfail t n c hp
      refine ⟨failed_mono hn hf, ?_⟩
      rcases (next_writes hn).sessions with e | ⟨-, hd, n', c', hcas, -⟩
      · rw [State.set_mem, e, hse]
      · have hall := ha n' c' hcas hd t
        rw [hp] at hall
        cases hall

/-- The task of a start that fails is completed when there is no transport and the connection is disconnected. -/
theorem bare_of_failSet {s : State Mem Pc} (h : prog.Reach (fun s a => Alone s a.thread) s) (t n c : ℕ)
    (hp : s.pc t = .start n c .failSet) : s.mem.transport = none ∧ s.mem.connState = .disconnected := by
  refine h.each (L := fun _ m p => ∀ n c, p = .start n c .failSet → m.transport = none ∧ m.connState = .disconnected)
    (fun _ _ _ hp => (by cases hp)) ?_ t n c hp
  intro s a m p hr ha ih hn
  have hon := (onTime_of_alone hr).1
  have hlife := (life_holds hon).loc a.thread
  refine ⟨fun n c hp => ?_, fun u hu n c hp => ?_⟩
  · subst hp
    rcases start_of_next hn with ⟨-, -, e, -⟩ | ⟨n₀, c₀, q₀, o, hp, -, hrun⟩
    · cases e
    · cases q₀ <;> simp only [runStart] at hrun <;> repeat' (split at hrun)
      all_goals simp only [reduceCtorEq, Option.some.injEq, Prod.mk.injEq, Pc.start.injEq, and_false] at hrun
      obtain ⟨rfl, -⟩ := hrun
      exact ⟨(((ledger_holds hon).loc a.thread).bare (by rw [hp]; rfl)).2, rfl⟩
  · obtain ⟨htr, hc⟩ := ih u n c hp
    constructor
    · rcases (next_writes hn).transport with e | ⟨n', c', hp'⟩ | ⟨g, hp'⟩
      · exact e.trans htr
      · -- a start in progress would keep the state connecting
        have hph : (s.pc a.thread).role.phase = some .connecting := by
          rcases hp' with hp' | hp' <;> rw [hp'] <;> rfl
        have hst : s.mem.connState = .connecting := hlife.phase _ hph
        rw [hc] at hst
        cases hst
      · obtain ⟨o, -, hrun⟩ := next_stop (hp' ▸ hn)
        cases hrun
        rfl
    · rcases (next_writes hn).state with e | hch
      · exact e.trans hc
      · -- only a `start()` takes the state from disconnected
        have hlegal := hch.legal hlife
        rw [hc] at hlegal
        generalize hx : m.connState = x at hch hlegal
        cases hlegal
        generalize hq : s.pc a.thread = q at hch
        cases hch
        have hun := ha _ _ hq hc u
        rw [hp] at hun
        cases hun

/-- The continuations are attached, with a token of the source of the session. -/
def StartPc.attached : StartPc → Bool
  | .lock | .cas | .reject | .newCts | .reset | .fields | .unlock | .attach | .rejected => false
  | _ => true

theorem attached_holds {s : State Mem Pc} (h : prog.Reach OnTime s) (t n c : ℕ) (q : StartPc)
    (hp : s.pc t = .start n c q) (hq : q.attached = true) : c = n := by
  refine h.each (L := fun _ _ p => ∀ n c q, p = .start n c q → q.attached = true → c = n)
    (fun _ _ _ _ hp => (by cases hp)) ?_ t n c q hp hq
  intro s a m p hr _ ih hn
  refine ⟨fun n c q hp hq => ?_, fun u _ => ih u⟩
  subst hp
  rcases start_of_next hn with ⟨-, -, rfl, -⟩ | ⟨n₀, c₀, q₀, o, hp, -, hrun⟩
  · cases hq
  · have hown := ih a.thread n₀ c₀ q₀ hp
    by_cases hatt : q₀ = .attach
    · subst hatt
      have hsource := ((ledger_holds hr).loc a.thread).sourced (by rw [hp]; rfl)
      rw [hp] at hsource
      cases hrun
      exact (Option.some.inj hsource).symm
    · -- before that step a thread is not attached, behind it the token stays
      cases q₀ <;> simp only [runStart] at hrun <;> repeat' (split at hrun)
      all_goals simp only [reduceCtorEq, Option.some.injEq, Prod.mk.injEq, Pc.start.injEq] at hrun
      all_goals obtain ⟨-, rfl, rfl, rfl⟩ := hrun
      all_goals first | exact absurd rfl hatt | exact hown rfl | cases hq

/-! ## The replies -/

/-- What happens to a thread; the replies to the two requests are read by `request_sender`. -/
inductive Wire where
  | call (k : Call)
  | task (o : Outcome)
  | negotiated (reply : Reply)
  | started (reply : Reply)

section

variable (parse : String → Option Json)

def Wire.decode (p : Pc) : Wire → Option Input
  | .call k => some (.call k)
  | .task o => match p with
    | .start _ _ .negotiating | .start _ _ .startRequesting => none
    | _ => some (.task o)
  | .negotiated reply => match p with
    | .start _ _ .negotiating => some (.task (reply.outcome (negotiate parse) .negotiated))
    | _ => none
  | .started reply => match p with
    | .start _ _ .startRequesting => some (.task (reply.outcome (start parse) fun _ => .ok))
    | _ => none

/-- **The program of `connection_impl`, with the replies to its requests.** -/
def wire : Program Mem Pc Wire := ⟨{}, .idle, fun t m p i => (i.decode parse p).bind (next t m p)⟩

end

section

variable {parse : String → Option Json} {ok : State Mem Pc → ℕ → Prop} {s : State Mem Pc}

theorem reach_of_wire (h : (wire parse).Reach (fun s a => ok s a.thread) s) :
    prog.Reach (fun s a => ok s a.thread) s := by
  have hproject : prog.Reach (fun s a => ok s a.thread) (s.project id id) := by
    refine h.project rfl rfl ?_
    intro s a m p _ ha hn
    obtain ⟨j, -, hj⟩ := Option.bind_eq_some_iff.mp hn
    exact .inr ⟨j, ha, hj⟩
  exact hproject

theorem onTime_of_wire (h : (wire parse).Reach (fun s a => Alone s a.thread) s) :
    prog.Reach OnTime s ∧
      ∀ t n c, s.pc t = .start n c .failSet → s.mem.failed n = true ∧ n = s.mem.sessions :=
  onTime_of_alone (reach_of_wire h)

/-- An answer to the start request that lets the handshake go on. -/
theorem started_of_decode {n c : ℕ} {i : Wire} (h : i.decode parse (.start n c .startRequesting) = some (.task .ok)) :
    ∃ r, i = .started (.response r) ∧ Started parse r.body := by
  cases i with
  | started reply =>
    have h : reply.outcome (start parse) (fun _ => .ok) = .ok := by simpa [Wire.decode] using h
    obtain ⟨r, u, rfl, -, hstart, -⟩ := Reply.outcome_eq h (by simp) (by simp)
    exact ⟨r, rfl, start_ok_iff.mp hstart⟩
  | _ => cases h

end

/-! ## The stages of a handshake -/

inductive Stage where
  | negotiated (n : ℕ) (r : NegotiationResponse)     -- negotiate has returned
  | processing (n : ℕ) (x : Option Json)             -- the transport hands a message to process_response
  | answered (n : ℕ) (body : String)                 -- the start request has returned
  | initialized (n : ℕ)                              -- the message being processed sets the connect_request_tce
  | transportSet (n : ℕ)                             -- m_transport becomes the transport of session n
  | connected (n : ℕ)                                -- the state goes from connecting to connected
  | disconnected (n : ℕ)                             -- … or to disconnected
  /-- the task of start() is completed, with `m_transport` and the state at that moment -/
  | completed (n : ℕ) (success : Bool) (transport : Option ℕ) (state : ConnectionState)

/-- What a thread goes on with: a reply, or a message. -/
def replyStages (p : Pc) (i : Wire) (p' : Pc) : List Stage :=
  match p, p' with
  | .start n _ .negotiating, .start _ _ (.startTransport r) => [.negotiated n r]
  | .message n x, .process _ _ _ => [.processing n x]
  | .start n _ .startRequesting, .start _ _ .succeed =>
    match i with
    | .started (.response r) => [.answered n r.body]
    | _ => []
  | _, _ => []

/-- What becomes of the `connect_request_tce` of the session whose message is processed … -/
def tceStages (m : Mem) (p : Pc) (m' : Mem) : List Stage :=
  match p with
  | .process n _ _ => if m.connectTce n = .unset ∧ m'.connectTce n = .set then [.initialized n] else []
  | _ => []

/-- … of `m_transport` … -/
def transportStages (m m' : Mem) : List Stage :=
  match m'.transport with
  | some n => if m.transport = some n then [] else [.transportSet n]
  | none => []

/-- … and of the state. -/
def stateStages (m m' : Mem) : List Stage :=
  match m.connState, m'.connState with
  | .connecting, .connected => [.connected m.sessions]
  | .connecting, .disconnected => [.disconnected m.sessions]
  | _, _ => []

/-- The task of a start is completed as the thread gets to its end. -/
def taskStages (p : Pc) (m' : Mem) (p' : Pc) : List Stage :=
  match p, p' with
  | .start _ _ _, .start n _ .started => [.completed n true m'.transport m'.connState]
  | .start _ _ _, .start n _ .failed => [.completed n false m'.transport m'.connState]
  | _, _ => []

/-- What a step shows. -/
def stages (_ : ℕ) (m : Mem) (p : Pc) (i : Wire) (m' : Mem) (p' : Pc) : List Stage :=
  replyStages p i p' ++ (tceStages m p m' ++ (transportStages m m' ++ (stateStages m m' ++ taskStages p m' p')))

section

variable {t n : ℕ} {m m' : Mem} {p p' : Pc} {i : Wire}

theorem reply_mem {e : Stage} (h : e ∈ replyStages p i p') : e ∈ stages t m p i m' p' := List.mem_append_left _ h

theorem initialized_mem {k : ℕ} {es : List Effect} (hm : m.connectTce n = .unset) (hm' : m'.connectTce n = .set) :
    .initialized n ∈ stages t m (.process n k es) i m' p' := by
  simp [stages, tceStages, hm, hm']

theorem transportSet_mem (hm : m.transport ≠ some n) (hm' : m'.transport = some n) :
    .transportSet n ∈ stages t m p i m' p' := by
  simp [stages, transportStages, hm, hm']

theorem connected_mem (hm : m.connState = .connecting) (hm' : m'.connState = .connected) :
    .connected m.sessions ∈ stages t m p i m' p' := by
  simp [stages, stateStages, hm, hm']

theorem disconnected_mem (hm : m.connState = .connecting) (hm' : m'.connState = .disconnected) :
    .disconnected m.sessions ∈ stages t m p i m' p' := by
  simp [stages, stateStages, hm, hm']

/-- Where a stage of the state, or of the task, comes from. -/
theorem mem_stages {e : Stage} (h : e ∈ stages t m p i m' p') : match e with
    | .connected _ => e ∈ stateStages m m'
    | .completed _ _ _ _ => e ∈ taskStages p m' p'
    | _ => True := by
  simp only [stages, List.mem_append] at h
  rcases h with h | h | h | h | h
  · unfold replyStages at h
    split at h <;> try split at h
    all_goals simp only [List.not_mem_nil, List.mem_singleton] at h
    all_goals subst h; trivial
  · unfold tceStages at h
    split at h <;> try split at h
    all_goals simp only [List.not_mem_nil, List.mem_singleton] at h
    subst h
    trivial
  · unfold transportStages at h
    split at h <;> try split at h
    all_goals simp only [List.not_mem_nil, List.mem_singleton] at h
    subst h
    trivial
  · cases e with
    | connected => exact h
    | completed =>
      unfold stateStages at h
      split at h <;> simp at h
    | _ => trivial
  · cases e with
    | completed => exact h
    | connected =>
      unfold taskStages at h
      split at h <;> simp at h
    | _ => trivial

theorem connected_of_mem (h : .connected n ∈ stages t m p i m' p') :
    n = m.sessions ∧ m.connState = .connecting ∧ m'.connState = .connected := by
  have hstate : .connected n ∈ stateStages m m' := mem_stages h
  unfold stateStages at hstate
  split at hstate <;> simp at hstate
  exact ⟨hstate, by assumption, by assumption⟩

/-- The task is completed by the last step of the start. -/
theorem completed_of_mem {j : Input} {b : Bool} {x : Option ℕ} {c : ConnectionState} (hn : next t m p j = some (m', p'))
    (h : .completed n b x c ∈ stages t m p i m' p') : x = m'.transport ∧ c = m'.connState ∧
      ((b = true ∧ ∃ c, p = .start n c .succeedSet) ∨ (b = false ∧ ∃ c, p = .start n c .failSet)) := by
  have hlast : ∀ n c q, (q = .started ∨ q = .failed) → p' = .start n c q →
      (q = .started ∧ ∃ c, p = .start n c .succeedSet) ∨ (q = .failed ∧ ∃ c, p = .start n c .failSet) := by
    intro n c q hq hp'
    subst hp'
    rcases start_of_next hn with ⟨-, -, rfl, -⟩ | ⟨n₀, c₀, q₀, o, rfl, -, hr⟩
    · rcases hq with e | e <;> cases e
    · cases q₀ <;> simp only [runStart] at hr <;> repeat' (split at hr)
      all_goals simp only [reduceCtorEq, Option.some.injEq, Prod.mk.injEq, Pc.start.injEq] at hr
      all_goals obtain ⟨-, rfl, -, rfl⟩ := hr
      all_goals first
        | exact .inl ⟨rfl, _, rfl⟩
        | exact .inr ⟨rfl, _, rfl⟩
        | (rcases hq with e | e <;> cases e)
  have htask : .completed n b x c ∈ taskStages p m' p' := mem_stages h
  unfold taskStages at htask
  split at htask <;> simp at htask
  · obtain ⟨rfl, rfl, rfl, rfl⟩ := htask
    rcases hlast _ _ _ (.inl rfl) rfl with ⟨-, hp⟩ | ⟨e, -⟩
    · exact ⟨rfl, rfl, .inl ⟨rfl, hp⟩⟩
    · cases e
  · obtain ⟨rfl, rfl, rfl, rfl⟩ := htask
    rcases hlast _ _ _ (.inr rfl) rfl with ⟨e, -⟩ | ⟨-, hp⟩
    · cases e
    · exact ⟨rfl, rfl, .inr ⟨rfl, hp⟩⟩

end

/-- The object that opens a session, with an `S` that `as_integer()` reads as 1. -/
structure Opens (v : Json) : Prop where
  object : v.isObject = true
  noI : v.hasField "I" = false
  M : ∃ ms, v.at? "M" = some (.array ms)
  C : ∃ c, v.at? "C" = some (.string c)
  S : (v.at? "S").bind Json.asInteger? = some 1

theorem opens_of_effects {x : Option Json} (h : .connectSet ∈ processEffects x) : ∃ v, x = some v ∧ Opens v := by
  cases x with
  | none => cases h
  | some v =>
    refine ⟨v, rfl, ?_⟩
    simp only [processEffects] at h
    split at h
    swap
    · cases h
    rename_i hobj
    split at h
    · simp at h
    rename_i hI
    rcases List.mem_append.mp h with h | h
    · simp at h
    cases hM : (v.at? "M").bind Json.asArray? with
    | none => simp [hM] at h
    | some ms =>
      simp only [hM, Option.elim_some, messagesEffects] at h
      split at h
      swap
      · cases h
      rename_i c hC
      have hS : isInit v = true := by
        by_contra hS
        simp [hS] at h
      obtain ⟨w, hw, hwa⟩ := Option.bind_eq_some_iff.mp hM
      obtain ⟨u, hu, hus⟩ := Option.bind_eq_some_iff.mp hC
      refine ⟨hobj, by simpa using hI, ⟨ms, ?_⟩, ⟨c, ?_⟩, by simpa [isInit] using hS⟩
      · cases w <;> cases hwa
        exact hw
      · cases u <;> cases hus
        exact hu

/-! ## What a thread knows of its handshake -/

/-- A negotiation response the client goes on with. -/
def Suits (r : NegotiationResponse) : Prop := r.protocolVersion = protocol ∧ r.tryWebSockets = true

section

variable (parse : String → Option Json) (n : ℕ) (l : List Stage)

def Begun : Prop := ∃ r, Suits r ∧ .negotiated n r ∈ l

def Received (x : Option Json) : Prop := ∃ r, Suits r ∧ [.negotiated n r, .processing n x].Sublist l

def Opened : Prop :=
  ∃ r v, Suits r ∧ Opens v ∧ [.negotiated n r, .processing n (some v), .initialized n].Sublist l

def Equipped : Prop :=
  ∃ r v, Suits r ∧ Opens v ∧ [.negotiated n r, .processing n (some v), .initialized n, .transportSet n].Sublist l

/-- All stages up to the answer to the start request. -/
def Answered : Prop :=
  ∃ r v b, Suits r ∧ Opens v ∧ Started parse b ∧
    [.negotiated n r, .processing n (some v), .initialized n, .transportSet n, .answered n b].Sublist l

end

section

variable {parse : String → Option Json} {n : ℕ} {l : List Stage}

theorem Begun.mono (l' : List Stage) (h : Begun n l) : Begun n (l ++ l') := by
  obtain ⟨r, hr, hl⟩ := h
  exact ⟨r, hr, List.mem_append_left l' hl⟩

theorem Received.mono (l' : List Stage) {x : Option Json} (h : Received n l x) : Received n (l ++ l') x := by
  obtain ⟨r, hr, hl⟩ := h
  exact ⟨r, hr, hl.trans (List.sublist_append_left l l')⟩

theorem Opened.mono (l' : List Stage) (h : Opened n l) : Opened n (l ++ l') := by
  obtain ⟨r, v, hr, hv, hl⟩ := h
  exact ⟨r, v, hr, hv, hl.trans (List.sublist_append_left l l')⟩

theorem Equipped.mono (l' : List Stage) (h : Equipped n l) : Equipped n (l ++ l') := by
  obtain ⟨r, v, hr, hv, hl⟩ := h
  exact ⟨r, v, hr, hv, hl.trans (List.sublist_append_left l l')⟩

theorem Answered.mono (l' : List Stage) (h : Answered parse n l) : Answered parse n (l ++ l') := by
  obtain ⟨r, v, b, hr, hv, hb, hl⟩ := h
  exact ⟨r, v, b, hr, hv, hb, hl.trans (List.sublist_append_left l l')⟩

theorem Begun.receive (h : Begun n l) {l' : List Stage} {x : Option Json} (hx : .processing n x ∈ l') :
    Received n (l ++ l') x := by
  obtain ⟨r, hr, hl⟩ := h
  exact ⟨r, hr, (List.singleton_sublist.mpr hl).append (List.singleton_sublist.mpr hx)⟩

theorem Received.opened {v : Json} (h : Received n l (some v)) (hv : Opens v) {l' : List Stage}
    (hi : .initialized n ∈ l') : Opened n (l ++ l') := by
  obtain ⟨r, hr, hl⟩ := h
  exact ⟨r, v, hr, hv, hl.append (List.singleton_sublist.mpr hi)⟩

theorem Opened.equip (h : Opened n l) {l' : List Stage} (ht : .transportSet n ∈ l') : Equipped n (l ++ l') := by
  obtain ⟨r, v, hr, hv, hl⟩ := h
  exact ⟨r, v, hr, hv, hl.append (List.singleton_sublist.mpr ht)⟩

theorem Equipped.answer (h : Equipped n l) {l' : List Stage} {b : String} (hb : Started parse b)
    (ha : .answered n b ∈ l') : Answered parse n (l ++ l') := by
  obtain ⟨r, v, hr, hv, hl⟩ := h
  exact ⟨r, v, b, hr, hv, hb, hl.append (List.singleton_sublist.mpr ha)⟩

end

/-- What a thread can rely on of the stages so far.  Who goes on after the connect although the token source is
cancelled (the connect timer completes the `connect_request_tce` then) is stopped at the start request. -/
def Knows (parse : String → Option Json) (m : Mem) (l : List Stage) : Pc → Prop
  | .start n _ q => match q with
    | .startTransport r => .negotiated n r ∈ l
    | .create => Begun n l
    | .setTransport => m.cancelled n = true ∨ Opened n l
    | .startRequest => m.cancelled n = true ∨ Equipped n l
    | .startRequesting => Equipped n l
    | .succeed => Answered parse n l
    | .succeedSet => .connected n ∈ l
    | .failSet => .disconnected n ∈ l
    | _ => True
  | .process n _ es => ∃ x, Received n l x ∧ ∀ e ∈ es, e ∈ processEffects x
  | _ => True

/-- A start that is still to get to connected has not got there. -/
def Silent (l : List Stage) (p : Pc) : Prop :=
  p.connects → ∀ n c q, p = .start n c q → .connected n ∉ l

/-- What the members tell of the stages so far. -/
structure Staged (m : Mem) (l : List Stage) : Prop where
  begun : ∀ n c, m.created n = some c → Begun n l
  opened : ∀ n, m.connectTce n = .set → m.cancelled n = true ∨ Opened n l
  connected : ∀ n, .connected n ∈ l → n ≤ m.sessions ∧ m.failed n = false
  completed : ∀ n x c, .completed n false x c ∈ l → m.failed n = true

theorem Knows.mono {parse : String → Option Json} {m m' : Mem} {l : List Stage} {p : Pc} (l' : List Stage)
    (hc : ∀ k, m.cancelled k = true → m'.cancelled k = true) (h : Knows parse m l p) :
    Knows parse m' (l ++ l') p := by
  cases p with
  | start n c q =>
    cases q with
    | startTransport r => exact List.mem_append_left l' h
    | create => exact Begun.mono l' h
    | setTransport => exact h.imp (hc n) (Opened.mono l')
    | startRequest => exact h.imp (hc n) (Equipped.mono l')
    | startRequesting => exact Equipped.mono l' h
    | succeed => exact Answered.mono l' h
    | succeedSet => exact List.mem_append_left l' h
    | failSet => exact List.mem_append_left l' h
    | _ => trivial
  | process n k es =>
    obtain ⟨x, hx, hes⟩ := h
    exact ⟨x, hx.mono l', hes⟩
  | _ => trivial

/-! ## What a step adds -/

section

variable {t : ℕ} {m m' : Mem} {p p' : Pc} {i : Input}

theorem next_created (h : next t m p i = some (m', p')) {n c : ℕ} (hc : m'.created n = some c) :
    m.created n = some c ∨ ∃ c₀, p = .start n c₀ .create := by
  rcases (next_records h).created with e | ⟨n₀, c₀, rfl, e⟩
  · exact .inl (by rw [← hc, e])
  · by_cases hn : n = n₀
    · exact .inr ⟨c₀, by rw [hn]⟩
    · rw [e, Function.update_of_ne hn] at hc
      exact .inl hc

theorem completeConnect_set {k n : ℕ} {v : Tce} (h : (m.completeConnect k v).connectTce n = .set) :
    m.connectTce n = .set ∨ (k = n ∧ v = .set ∧ m.connectTce n = .unset) := by
  by_cases hn : n = k
  · subst hn
    simp only [Mem.completeConnect, Function.update_self, Tce.complete] at h
    split at h
    · rename_i hunset
      exact .inr ⟨rfl, h, hunset⟩
    · exact .inl h
  · exact .inl (by simpa [Mem.completeConnect, hn] using h)

/-- Who sets the `connect_request_tce`: an init message, or the timer of a session that is being stopped. -/
theorem next_opened (h : next t m p i = some (m', p')) {n : ℕ} (hn : m'.connectTce n = .set) :
    m.connectTce n = .set ∨ (m.connectTce n = .unset ∧ ∃ k es, p = .process n k (.connectSet :: es)) ∨
      ∃ c, m.created n = some c ∧ m.cancelled c = true := by
  rcases (next_records h).connectTce with e | ⟨n₀, v, hv, e⟩
  · exact .inl (by rw [← hn, e])
  · rw [e] at hn
    rcases completeConnect_set hn with hset | ⟨rfl, hset, hunset⟩
    · exact .inl hset
    · cases hv with
      | connectFailed | error => cases hset
      | init => exact .inr (.inl ⟨hunset, _, _, rfl⟩)
      | @timer _ c hc =>
        refine .inr (.inr ⟨c, hc, ?_⟩)
        by_contra hcan
        simp [hcan] at hset

end

section

variable {parse : String → Option Json} {t : ℕ} {m m' : Mem} {p p' : Pc} {i : Wire} {j : Input} {l : List Stage}

/-- The steps of `start()`. -/
theorem knows_start {n c : ℕ} {q : StartPc} {o : Outcome} (h : runStart m n c q o = some (m', p'))
    (hi : i.decode parse (.start n c q) = some (.task o)) (hstaged : Staged m l)
    (hk : Knows parse m l (.start n c q)) (hatt : q.attached = true → c = n)
    (hse : q = .succeed ∨ q = .failState → n = m.sessions ∧ m.connState = .connecting)
    (hbare : q = .setTransport → m.transport = none) :
    Knows parse m' (l ++ stages t m (.start n c q) i m' p') p' := by
  cases q with
  | negotiating =>
    simp only [runStart] at h
    split at h <;> cases h
    · exact List.mem_append_right _ (reply_mem List.mem_cons_self)
    · trivial
    · trivial
  | startTransport r =>
    simp only [runStart] at h
    repeat' (split at h)
    all_goals cases h
    case startTransport.isFalse.isFalse.isTrue.refl hv hw => exact Begun.mono _ ⟨r, ⟨by simpa using hv, hw⟩, hk⟩
    all_goals trivial
  | connecting =>
    simp only [runStart] at h
    split at h <;> cases h
    · rename_i htce
      exact (hstaged.opened n htce).imp_right (Opened.mono _)
    · trivial
  | setTransport =>
    cases h
    exact Or.imp_right (fun ho => Opened.equip ho (transportSet_mem (by rw [hbare rfl]; simp) rfl)) hk
  | startRequest =>
    simp only [runStart] at h
    split at h
    · cases h
      trivial
    · rename_i hcan
      have hc : c = n := hatt rfl
      have heq : Equipped n l := Or.resolve_left hk (hc ▸ hcan)
      split at h
      · cases h
        exact .inr (heq.mono _)
      · split at h <;> cases h
        · trivial
        · trivial
        · exact heq.mono _
  | startRequesting =>
    simp only [runStart] at h
    split at h <;> cases h
    · obtain ⟨r, rfl, hr⟩ := started_of_decode hi
      exact Equipped.answer hk hr (reply_mem List.mem_cons_self)
    · trivial
    · trivial
  | succeed =>
    obtain ⟨rfl, hst⟩ := hse (.inl rfl)
    rw [runStart, if_pos hst] at h
    cases h
    exact List.mem_append_right _ (connected_mem hst rfl)
  | failState =>
    obtain ⟨rfl, hst⟩ := hse (.inr rfl)
    cases h
    exact List.mem_append_right _ (disconnected_mem hst rfl)
  | _ =>
    simp only [runStart] at h
    repeat' (split at h)
    all_goals simp only [reduceCtorEq, Option.some.injEq, Prod.mk.injEq] at h
    all_goals obtain ⟨-, rfl⟩ := h
    all_goals trivial

/-- The own step of a thread. -/
theorem knows_next (h : next t m p j = some (m', p')) (hi : i.decode parse p = some j) (hstaged : Staged m l)
    (hk : Knows parse m l p) (hatt : ∀ n c q, p = .start n c q → q.attached = true → c = n)
    (hse : ∀ n c q, p = .start n c q → q = .succeed ∨ q = .failState → n = m.sessions ∧ m.connState = .connecting)
    (hbare : ∀ n c, p = .start n c .setTransport → m.transport = none) :
    Knows parse m' (l ++ stages t m p i m' p') p' := by
  cases next_leads h with
  | @enter k _ _ _ _ hp =>
    subst hp
    cases k <;> trivial
  | start h' =>
    exact knows_start h' hi hstaged hk (hatt _ _ _ rfl) (hse _ _ _ rfl) fun hq => hbare _ _ (by rw [hq])
  | @check n c r o hc =>
    exact ⟨r, (hstaged.begun n c hc).receive (reply_mem List.mem_cons_self), fun e he => he⟩
  | @effect n k e es =>
    obtain ⟨x, hx, hes⟩ := hk
    exact ⟨x, hx.mono _, fun e' he' => hes e' (List.mem_cons_of_mem e he')⟩
  | _ => trivial

/-- What a step leaves of the course. -/
theorem Staged.next (h : Staged m l) (hn : next t m p j = some (m', p')) (hk : Knows parse m l p)
    (hs : Silent l p) (hl : m.toLedger.Sound) (hsource : ∀ n c, m.created n = some c → c = n)
    (hfail : ∀ n c, p = .start n c .failSet → m.failed n = true) :
    Staged m' (l ++ stages t m p i m' p') := by
  have hcan : ∀ k, m.cancelled k = true → m'.cancelled k = true := fun k => (next_writes hn).cancelled_mono
  refine ⟨fun n c hc => ?_, fun n hset => ?_, fun n hmem => ?_, fun n x c hmem => ?_⟩
  · rcases next_created hn hc with hc | ⟨c₀, rfl⟩
    · exact (h.begun n c hc).mono _
    · exact Begun.mono _ hk
  · rcases next_opened hn hset with hold | ⟨hunset, k, es, rfl⟩ | ⟨c, hc, hcc⟩
    · exact (h.opened n hold).imp (hcan n) (Opened.mono _)
    · obtain ⟨x, hx, hes⟩ := hk
      obtain ⟨v, rfl, hv⟩ := opens_of_effects (hes _ List.mem_cons_self)
      exact .inr (hx.opened hv (initialized_mem hunset hset))
    · exact .inl (hcan n (hsource n c hc ▸ hcc))
  · have hmono : m.sessions ≤ m'.sessions := by
      rcases (next_writes hn).sessions with e | ⟨e, -⟩ <;> omega
    rcases List.mem_append.mp hmem with hold | hnew
    · obtain ⟨hle, hf⟩ := h.connected n hold
      refine ⟨by omega, ?_⟩
      rcases (next_records hn).failed with e | ⟨k, c, rfl, e⟩
      · rwa [e]
      · have hne : n ≠ k := by
          rintro rfl
          exact hs rfl n c _ rfl hold
        rwa [e, Function.update_of_ne hne]
    · obtain ⟨rfl, hst, hst'⟩ := connected_of_mem hnew
      refine ⟨hmono, ?_⟩
      have hf : m.failed m.sessions = false := by
        by_contra hf
        have hdis := (hl.failed _ (by simpa using hf)).2 rfl
        rw [hst] at hdis
        cases hdis
      rcases (next_records hn).failed with e | ⟨k, c, rfl, -⟩
      · rwa [e]
      · have hdis : m'.connState = .disconnected := by
          rcases next_start hn with ⟨o, -, hr⟩
          cases hr
          rfl
        rw [hst'] at hdis
        cases hdis
  · rcases List.mem_append.mp hmem with hold | hnew
    · exact failed_mono hn (h.completed n x c hold)
    · obtain ⟨-, -, ⟨e, -⟩ | ⟨-, c, rfl⟩⟩ := completed_of_mem hn hnew
      · cases e
      · exact failed_mono hn (hfail n c rfl)

end

/-- A thread that gets to a start in progress was in it before, or begins a new session. -/
theorem connects_of_next {t : ℕ} {m m' : Mem} {p : Pc} {i : Input} {n c : ℕ} {q : StartPc}
    (h : next t m p i = some (m', .start n c q)) (hc : (Pc.start n c q).connects) :
    (p.connects ∧ ∃ c₀ q₀, p = .start n c₀ q₀) ∨ n = m.sessions + 1 := by
  rcases start_of_next h with ⟨-, -, rfl, -⟩ | ⟨n₀, c₀, q₀, o, rfl, -, hr⟩
  · cases hc
  · cases q₀ <;> simp only [runStart] at hr <;> repeat' (split at hr)
    all_goals simp only [reduceCtorEq, Option.some.injEq, Prod.mk.injEq, Pc.start.injEq] at hr
    all_goals obtain ⟨-, rfl, rfl, rfl⟩ := hr
    all_goals first | exact .inl ⟨rfl, _, _, rfl⟩ | exact .inr rfl | cases hc

/-- **What is known of the handshakes in every run of starts that do not overlap.** -/
theorem stages_holds {parse : String → Option Json} {s : State Mem Pc} {l : List Stage}
    (h : (wire parse).Trace (fun s a => Alone s a.thread) stages s l) :
    Staged s.mem l ∧ ∀ t, Knows parse s.mem l (s.pc t) ∧ Silent l (s.pc t) := by
  refine h.invariant (J := fun s l => Staged s.mem l ∧ ∀ t, Knows parse s.mem l (s.pc t) ∧ Silent l (s.pc t)) ?_ ?_
  · refine ⟨⟨fun _ _ hc => (by cases hc), fun _ hc => (by cases hc), fun _ hm => (by cases hm),
      fun _ _ _ hm => (by cases hm)⟩, fun t => ⟨trivial, fun _ _ _ _ hp => (by cases hp)⟩⟩
  intro s a l m p hr ha ⟨hstaged, hk⟩ hn
  obtain ⟨hon, hfail⟩ := onTime_of_wire hr.reach
  have hlife := life_holds hon
  have hledger := ledger_holds hon
  have hlife' := life_holds (onTime_of_wire (hr.step ha hn).reach).1
  obtain ⟨j, hj, hnext⟩ := Option.bind_eq_some_iff.mp hn
  obtain ⟨hknows, hsilent⟩ := hk a.thread
  -- a start in progress keeps the state connecting
  have hquiet : ∀ u, ((s.set a.thread m p).pc u).connects → ∀ n,
      .connected n ∉ stages a.thread s.mem (s.pc a.thread) a.input m p := by
    intro u hu n hmem
    have hst : m.connState = .connecting := (hlife'.loc u).phase .connecting hu
    rw [(connected_of_mem hmem).2.2] at hst
    cases hst
  refine ⟨hstaged.next hnext hknows hsilent hledger.glob (fun n c hc => (hledger.glob.created n c hc).1)
    (fun n c hp => (hfail _ n c hp).1), fun u => ?_⟩
  by_cases hu : u = a.thread
  · subst hu
    rw [State.set_pc_self]
    refine ⟨knows_next hnext hj hstaged hknows (fun n c q hp => attached_holds hon _ n c q hp) (fun n c q hp hq => ?_)
      fun n c hp => ?_, fun hc n c q hp hmem => ?_⟩
    · rcases hq with rfl | rfl
      · exact ⟨((hledger.loc a.thread).session n (by rw [hp]; rfl)).2.2,
          (hlife.loc a.thread).phase .connecting (by rw [hp]; rfl)⟩
      · exact ⟨((hledger.loc a.thread).session n (by rw [hp]; rfl)).2.2,
          (hlife.loc a.thread).phase .connecting (by rw [hp]; rfl)⟩
    · exact ((hledger.loc a.thread).bare (by rw [hp]; rfl)).2
    · rcases List.mem_append.mp hmem with hold | hnew
      · subst hp
        rcases connects_of_next hnext hc with ⟨hc₀, c₀, q₀, hp₀⟩ | rfl
        · exact hsilent hc₀ n c₀ q₀ hp₀ hold
        · have := (hstaged.connected _ hold).1
          omega
      · exact hquiet a.thread (by rwa [State.set_pc_self]) n hnew
  · rw [State.set_pc_of_ne _ _ _ _ hu]
    obtain ⟨hku, hsu⟩ := hk u
    refine ⟨hku.mono _ fun k => (next_writes hnext).cancelled_mono, fun hc n c q hp hmem => ?_⟩
    rcases List.mem_append.mp hmem with hold | hnew
    · exact hsu hc n c q hp hold
    · exact hquiet u (by rwa [State.set_pc_of_ne _ _ _ _ hu]) n hnew

/-- **The handshake of `start()`.**  The state goes from connecting to connected only behind all the stages of
the start in their order; the task of the start succeeds exactly when the state has done so, and fails only after the
state was set to disconnected, when `m_transport` is null and the state disconnected. -/
theorem handshake {parse : String → Option Json} {s : State Mem Pc} {l : List Stage}
    (h : (wire parse).Trace (fun s a => Alone s a.thread) stages s l) (n : ℕ) :
    (∀ l₁ l₂, l = l₁ ++ .connected n :: l₂ → Answered parse n l₁) ∧
    ∀ l₁ l₂ success transport state, l = l₁ ++ .completed n success transport state :: l₂ →
      (success = true → .connected n ∈ l₁) ∧
      (success = false → .connected n ∉ l ∧ .disconnected n ∈ l₁ ∧ transport = none ∧ state = .disconnected) := by
  refine ⟨fun l₁ l₂ hl => ?_, fun l₁ l₂ success transport state hl => ?_⟩
  · obtain ⟨s₀, a, m, p, o₁, o₂, l₀, h₀, ha, hn, hobs, rfl⟩ := h.exists_step hl
    have hon := (onTime_of_wire h₀.reach).1
    obtain ⟨j, -, hnext⟩ := Option.bind_eq_some_iff.mp hn
    obtain ⟨rfl, hst, hst'⟩ := connected_of_mem (t := a.thread) (hobs ▸ List.mem_append_right o₁ List.mem_cons_self)
    -- the step is that of a start whose request has been answered
    have hchange : Change s₀.mem (s₀.pc a.thread) .connected := by
      rcases (next_writes hnext).state with e | hch
      · rw [hst', hst] at e
        cases e
      · rwa [hst'] at hch
    generalize hp : s₀.pc a.thread = p₀ at hchange
    cases hchange with
    | regained hc => rw [hst] at hc; cases hc
    | @started n c _ =>
      have hknows := ((stages_holds h₀).2 a.thread).1
      rw [hp] at hknows
      have hse := (((ledger_holds hon).loc a.thread).session n (by rw [hp]; rfl)).2.2
      exact Answered.mono o₁ (hse ▸ hknows)
  · obtain ⟨s₀, a, m, p, o₁, o₂, l₀, h₀, ha, hn, hobs, rfl⟩ := h.exists_step hl
    have hmem : .completed n success transport state ∈ stages a.thread s₀.mem (s₀.pc a.thread) a.input m p :=
      hobs ▸ List.mem_append_right o₁ List.mem_cons_self
    have hknows := ((stages_holds h₀).2 a.thread).1
    obtain ⟨j, -, hnext⟩ := Option.bind_eq_some_iff.mp hn
    obtain ⟨htr, hst, ⟨rfl, c, hp⟩ | ⟨rfl, c, hp⟩⟩ := completed_of_mem hnext hmem
    · rw [hp] at hknows
      exact ⟨fun _ => List.mem_append_left o₁ hknows, fun e => (by cases e)⟩
    · obtain ⟨hbare, hdis⟩ := bare_of_failSet (reach_of_wire h₀.reach) a.thread n c hp
      -- the last step only signals the event
      obtain ⟨o, -, hrun⟩ := next_start (hp ▸ hnext)
      cases hrun
      rw [hp] at hknows
      refine ⟨fun e => (by cases e), fun _ => ⟨fun hcon => ?_, List.mem_append_left o₁ hknows, ?_, ?_⟩⟩
      · have hstaged := (stages_holds h).1
        have hf := hstaged.completed n transport state (by rw [hl]; simp)
        rw [(hstaged.connected n hcon).2] at hf
        cases hf
      · rw [htr]
        exact hbare
      · rw [hst]
        exact hdis

/-! ## A handshake -/

def negotiateBody : String :=
  "\x7b\"ConnectionId\":\"i\",\"ConnectionToken\":\"t\",\"DisconnectTimeout\":30,\"KeepAliveTimeout\":null," ++
  "\"ProtocolVersion\":\"1.4\",\"TryWebSockets\":true,\"TransportConnectTimeout\":5\x7d"

def startBody : String := "\x7b\"Response\":\"started\"\x7d"

/-- What the parser makes of the two bodies. -/
def parseBody (body : String) : Option Json :=
  if body = startBody then some (.object [("Response", .string "started")])
  else if body = negotiateBody then
    some (.object [("ConnectionId", .string "i"), ("ConnectionToken", .string "t"), ("DisconnectTimeout", .integer 30),
      ("KeepAliveTimeout", .null), ("ProtocolVersion", .string "1.4"), ("TryWebSockets", .bool true),
      ("TransportConnectTimeout", .integer 5)])
  else none

/-- `j` steps of thread `t` in which nothing goes wrong. -/
def wires (t j : ℕ) : List (Act Wire) := List.replicate j ⟨t, .task .ok⟩

/-- Thread 0 starts the connection, thread 1 delivers the first message. -/
def shaking (first : Json) : List (Act Wire) :=
  [⟨0, .call .start⟩] ++ wires 0 8 ++ [⟨0, .negotiated (.response ⟨200, "OK", negotiateBody⟩)⟩] ++ wires 0 3 ++
  [⟨1, .call (.message 1 (some first))⟩] ++ wires 1 4 ++ wires 0 3 ++
  [⟨0, .started (.response ⟨200, "OK", startBody⟩)⟩] ++ wires 0 2

/-- The connection is started once. -/
def Once (s : State Mem Pc) (a : Act Wire) : Prop := ∀ n c, s.pc a.thread = .start n c .cas → s.mem.sessions = 0

def once : Test Once where
  test s a := match s.pc a.thread with
    | .start _ _ .cas => s.mem.sessions == 0
    | _ => true
  sound h n c hp := by simpa [hp] using h

/-- Before the first session no start is in progress. -/
theorem not_underway {s : State Mem Pc} (h : prog.Reachable s) (h0 : s.mem.sessions = 0) (t : ℕ) :
    (s.pc t).underway = false := by
  revert h0
  refine h.each (L := fun _ m p => m.sessions = 0 → p.underway = false) (fun _ _ => rfl) ?_ t
  intro s a m p _ _ ih hn
  have hmono : m.sessions = 0 → s.mem.sessions = 0 := by
    rcases (next_writes hn).sessions with e | ⟨e, -⟩ <;> omega
  refine ⟨fun h0 => ?_, fun u _ h0 => ih u (hmono h0)⟩
  have hold := ih a.thread (hmono h0)
  cases p with
  | start n c q =>
    rcases start_of_next hn with ⟨-, -, rfl, -⟩ | ⟨n₀, c₀, q₀, o, hp, -, hr⟩
    · rfl
    · rw [hp] at hold
      cases q₀ <;> simp only [runStart] at hr <;> repeat' (split at hr)
      all_goals simp only [reduceCtorEq, Option.some.injEq, Prod.mk.injEq, Pc.start.injEq] at hr
      all_goals obtain ⟨rfl, -, -, rfl⟩ := hr
      all_goals first | rfl | exact absurd h0 (Nat.succ_ne_zero _) | cases hold
  | _ => rfl

theorem alone_of_once {parse : String → Option Json} {s : State Mem Pc} {l : List Stage}
    (h : (wire parse).Trace Once stages s l) : (wire parse).Trace (fun s a => Alone s a.thread) stages s l := by
  induction h with
  | init => exact .init
  | @step s a l m p hr ha hn ih =>
    have hreach : prog.Reachable s := @reach_of_wire parse (fun _ _ => True) s hr.reachable
    exact ih.step (fun n c hp _ u => not_underway hreach (ha n c hp) u) hn

set_option maxRecDepth 20000 in
theorem handshake_shaking : ∃ s l, (wire parseBody).Trace (fun s a => Alone s a.thread) stages s l ∧
    .completed 1 true (some 1) .connected ∈ l ∧ .connected 1 ∈ l ∧ Answered parseBody 1 l := by
  obtain ⟨s, l, h, hl⟩ := (wire parseBody).exists_of_history stages once (shaking initMessage)
    (fun _ l => l.drop 5) [.connected 1, .completed 1 true (some 1) .connected] rfl
  have hsplit : l = l.take 5 ++ .connected 1 :: [.completed 1 true (some 1) .connected] := by
    rw [← hl, List.take_append_drop]
  have hanswered := (handshake (alone_of_once h) 1).1 _ _ hsplit
  refine ⟨s, l, alone_of_once h, by rw [hsplit]; simp, by rw [hsplit]; simp, ?_⟩
  rw [hsplit]
  exact hanswered.mono _

/-! ## An `S` that is not 1 -/

/-- A number above 32 bits, whose low ones are those of 1. -/
def wrappedMessage : Json := .object [("C", .string "d-1"), ("S", .integer 4294967297), ("M", .array [])]

def Stage.message? : Stage → Option (ℕ × Option Json)
  | .processing n x => some (n, x)
  | _ => none

set_option maxRecDepth 20000 in
/-- The message that opens the session need not have an `S` equal to 1. -/
theorem handshake_wrapped : ¬ ∀ (parse : String → Option Json) (s : State Mem Pc) (l : List Stage),
    (wire parse).Trace (fun s a => Alone s a.thread) stages s l → ∀ n l₁ l₂, l = l₁ ++ .connected n :: l₂ →
      ∃ v, .processing n (some v) ∈ l₁ ∧ v.at? "S" = some (.integer 1) := by
  intro hall
  obtain ⟨s, l, h, hl⟩ := (wire parseBody).exists_of_history stages once (shaking wrappedMessage)
    (fun _ l => (l.drop 5, (l.take 5).filterMap Stage.message?))
    ([.connected 1, .completed 1 true (some 1) .connected], [(1, some wrappedMessage)]) rfl
  obtain ⟨hdrop, hmessages⟩ := Prod.mk.injEq .. ▸ hl
  have hsplit : l = l.take 5 ++ .connected 1 :: [.completed 1 true (some 1) .connected] := by
    rw [← hdrop, List.take_append_drop]
  obtain ⟨v, hmem, hS⟩ := hall parseBody s l (alone_of_once h) 1 _ _ hsplit
  have hv : (1, some v) ∈ (l.take 5).filterMap Stage.message? := List.mem_filterMap.mpr ⟨_, hmem, rfl⟩
  rw [hmessages, List.mem_singleton, Prod.mk.injEq, Option.some.injEq] at hv
  obtain ⟨-, rfl⟩ := hv
  have hat : wrappedMessage.at? "S" = some (.integer 4294967297) := rfl
  rw [hat] at hS
  simp at hS

end SignalRClient.Connection
