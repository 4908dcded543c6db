import SignalRClient.Session.Tokens

/-!
# Messages and reconnecting exclude each other

`process_response` takes no lock: that nothing else touches `m_message_id` and `m_groups_token` meanwhile is left
to the receive loop.  It follows from the one token of the session (`exclusive`): no two executions of
`process_response` overlap, and none overlaps with the way of an error callback through `reconnect()` to its
`connect()`.
-/

namespace SignalRClient.Session

open Threads

/-! ## `process_response` and `reconnect()` -/

/-- An execution of `process_response` is in progress on the thread: the transport has called it and it has not
yet returned. -/
def Processing (p : Pc) : Prop := ∃ j x, p.trans.frame = .message j x .processing

/-- The connection is in the message callback. -/
def running : Connection.Pc → Bool
  | .message _ _ | .process _ _ _ => true
  | _ => false

/-- The thread is in the error callback, or in the `reconnect()` or `try_reconnect()` that it has called, and
these have neither given up nor issued the next connect. -/
def Reconnecting (p : Pc) : Prop :=
  (∃ n k c q, p.conn = .error n k c q) ∧ mayConnect p.conn = true ∧
    ∀ k, p.trans.call ≠ some (.connect (.setCts k)) ∧ p.trans.call ≠ some (.connect (.unlock k)) ∧
      p.trans.call ≠ some (.connect (.returned k))

theorem running_next {t : ℕ} {m m' : Connection.Mem} {p p' : Connection.Pc} {i : Connection.Input}
    (h : Connection.next t m p i = some (m', p')) (hr : running p' = true) :
    running p = true ∨ ∃ n x, i = .call (.message n x) := by
  cases Connection.next_leads h with
  | @enter k _ _ _ _ hp =>
    subst hp
    cases k with
    | message n x => exact .inr ⟨n, x, rfl⟩
    | _ => cases hr
  | check | effect => exact .inl rfl
  | _ => cases hr

/-- The message callback runs while the transport waits for it. -/
theorem processing_of_running {ok : State Mem Pc → Act Input → Prop} {s : State Mem Pc} (h : prog.Reach ok s) (t : ℕ)
    (hr : running (s.pc t).conn = true) : Processing (s.pc t) := by
  revert hr
  refine h.each (L := fun _ _ p => running p.conn = true → Processing p) (fun _ hr => by cases hr) ?_ t
  intro s a m p _ _ ih hn
  refine ⟨fun hrun => ?_, fun u _ => ih u⟩
  rcases next_cases (t := a.thread) hn with ⟨j, c, q, -, ha, hc, rfl, rfl⟩ | ⟨j, o, c, q, -, hs, hc, rfl, rfl⟩ |
    ⟨j, o, k, c, q, c', q', -, hs, hc, hc', rfl, rfl⟩
  · rcases running_next hc hrun with hr | ⟨n, x, rfl⟩
    · exact ih a.thread hr
    · simp [alone] at ha
  · obtain ⟨i, x, hf⟩ := ih a.thread hrun
    have hrun : running (s.pc a.thread).conn = true := hrun
    have hfin : isFinished (s.pc a.thread).conn = false := by
      cases hp : (s.pc a.thread).conn <;> first | rfl | (rw [hp] at hrun; cases hrun)
    have hidle : isIdle (s.pc a.thread).conn = false := by
      cases hp : (s.pc a.thread).conn <;> first | rfl | (rw [hp] at hrun; cases hrun)
    have hsite : site s.mem.conn (s.pc a.thread).conn = none := by
      cases hp : (s.pc a.thread).conn <;> first | rfl | (rw [hp] at hrun; cases hrun)
    cases hcall : (s.pc a.thread).trans.call with
    | some d =>
      rcases Transport.next_apart hc with ⟨_, _, _, -, -, rfl⟩ | ⟨hnone, -⟩
      · exact ⟨i, x, hf⟩
      · rw [hcall] at hnone
        cases hnone
    | none => cases j <;> simp [sync, hcall, hf, hfin, hidle, hsite] at hs
  · rcases running_next hc hrun with hr | ⟨n, x, rfl⟩
    · -- where the two meet, the connection is at a call or idle
      have hsite : site s.mem.conn (s.pc a.thread).conn = none := by
        cases hp : (s.pc a.thread).conn <;> first | rfl | (rw [hp] at hr; cases hr)
      have hbusy : ∀ d, k ≠ .call d := by
        rintro d rfl
        rw [(next_begin hc).1] at hr
        cases hr
      cases sync_both hs with
      | returned _ _ hat | thrown _ _ _ hat | closed _ _ _ _ hat =>
        rw [hsite] at hat
        cases hat
      | message _ _ _ _ | error _ _ _ _ => exact absurd rfl (hbusy _)
    · cases sync_both hs with
      | message j x hpc hi =>
        subst hi
        rw [hpc] at hc'
        cases hc'
        exact ⟨j, x, rfl⟩

section

variable {s : State Mem Pc} {t : ℕ}

theorem has_of_processing (h : Processing (s.pc t)) : Has s (.trans (.frame t)) := by
  obtain ⟨j, x, hf⟩ := h
  have hheld : Transport.held s.mem.trans (fun u => (s.pc u).trans) (.frame t) = some (j.loop, .looping) := by
    simp [Transport.held, hf, Transport.Frame.hold?]
  intro hnone
  have hnone : Transport.held s.mem.trans (fun u => (s.pc u).trans) (.frame t) = none := hnone
  rw [hheld] at hnone
  cases hnone

/-- Until the connect is issued the token is with the thread, or with its call. -/
theorem has_of_reconnecting (h : Reconnecting (s.pc t)) : Has s (.conn t) ∨ Has s (.trans (.call t)) := by
  obtain ⟨-, hmay, hcall⟩ := h
  by_cases hcon : connecting (s.pc t).conn = true
  swap
  · exact .inl (.inl ⟨hmay, fun h => absurd h hcon⟩)
  cases hmade : (s.pc t).trans.made with
  | none => exact .inl (.inl ⟨hmay, fun _ => hmade⟩)
  | some k =>
    obtain ⟨c, hc, hck⟩ := Option.bind_eq_some_iff.mp hmade
    have hhold : Transport.Call.hold? c ≠ none := by
      obtain ⟨h1, h2, h3⟩ := hcall k
      rcases c with q | ⟨d, q⟩
      · cases q with
        | setClient j | connect j => exact fun h => (by cases h)
        | setCts j => cases hck; exact absurd hc h1
        | unlock j => cases hck; exact absurd hc h2
        | returned j => cases hck; exact absurd hc h3
        | _ => cases hck
      · cases hck
    refine .inr fun hnone => hhold ?_
    have hnone : (s.pc t).trans.call.bind Transport.Call.hold? = none := hnone
    rwa [hc] at hnone

end

/-- **Messages and reconnecting exclude each other.**  No two executions of `process_response` are in progress
at one time, none is in progress while `reconnect()` is on its way to its connect, and so none writes what
`reconnect()` reads to build its URL. -/
theorem exclusive {s : State Mem Pc} (h : prog.Reach OneStart s) :
    (∀ t u, Processing (s.pc t) → Processing (s.pc u) → t = u) ∧
    (∀ t u, Reconnecting (s.pc t) → ¬ Processing (s.pc u)) ∧
    ∀ t u n k c n' k' es, (s.pc t).conn = .error n k c .build → (s.pc u).conn ≠ .process n' k' es := by
  have htok := tokens_holds h
  have hapart : ∀ t u, Reconnecting (s.pc t) → ¬ Processing (s.pc u) := by
    intro t u ht hu
    have hhas := has_of_processing hu
    rcases has_of_reconnecting ht with h | h
    · cases htok.sole _ _ h hhas
    · cases htok.sole _ _ h hhas
  refine ⟨fun t u ht hu => ?_, hapart, fun t u n k c n' k' es ht hu => ?_⟩
  · have heq := htok.sole _ _ (has_of_processing ht) (has_of_processing hu)
    injection heq with heq
    injection heq
  · have hproc : Processing (s.pc u) := processing_of_running h u (by rw [hu]; rfl)
    refine hapart t u ⟨⟨n, k, c, .build, ht⟩, by rw [ht]; rfl, fun j => ?_⟩ hproc
    -- a thread that builds the URL has not called the transport
    have hnot : ∀ q, (s.pc t).trans.call ≠ some (.connect q) := by
      intro q hq
      have hat : connecting (s.pc t).conn = true := htok.sites t _ hq
      rw [ht] at hat
      cases hat
    exact ⟨hnot _, hnot _, hnot _⟩

/-! ## A run -/

def conn (t : ℕ) (i : Connection.Input) : Act Input := ⟨t, .conn i⟩

def conns (t j : ℕ) : List (Act Input) := List.replicate j (conn t (.task .ok))

def trans (t : ℕ) (i : Transport.Input (Option Json)) : Act Input := ⟨t, .trans i .ok⟩

def goes (t j : ℕ) : List (Act Input) := List.replicate j (trans t (.go none))

/-- Thread 0 starts the session, thread 1 begins its receive loop, thread 2 gets the init message. -/
def receiving : List (Act Input) :=
  [conn 0 (.call .start)] ++ conns 0 8 ++ [conn 0 (.task (.negotiated Connection.negotiationResponse))] ++
  conns 0 2 ++ [trans 0 .connect] ++ goes 0 8 ++ [trans 1 (.connected 1 none)] ++ goes 1 2 ++
  [trans 2 (.received 0 (.inl (some Connection.initMessage)))] ++ goes 2 3

/-- … which is processed, and the session is started. -/
def established : List (Act Input) := receiving ++ conns 2 4 ++ goes 2 5 ++ goes 1 2 ++ conns 0 6

/-- … and lost: thread 4 gets to the URL of the reconnect request. -/
def losing : List (Act Input) :=
  established ++ [trans 4 (.received 1 (.inr .std)), trans 4 (.observe 1)] ++ goes 4 4 ++ conns 4 13

def oneStart : Test OneStart where
  test s a :=
    match (s.pc a.thread).conn with
    | .start _ _ .cas => s.mem.conn.sessions == 0
    | _ => true
  sound h n c hp _ := by simpa [hp] using h

/-- While the init message is processed no other thread processes a response; and when the session is lost and
`reconnect()` builds its URL, no thread does. -/
theorem exclusive_losing :
    (∃ s, prog.Reach OneStart s ∧ Processing (s.pc 2) ∧ ∀ u, Processing (s.pc u) → u = 2) ∧
    ∃ s, prog.Reach OneStart s ∧ (s.pc 4).conn = .error 1 1 1 .build ∧ Reconnecting (s.pc 4) ∧
      (∀ u, ¬ Processing (s.pc u)) ∧ ∀ u n k es, (s.pc u).conn ≠ .process n k es := by
  constructor
  · obtain ⟨s, hs, hp⟩ := prog.exists_of_run oneStart receiving (fun s => (s.pc 2).trans.frame)
      (.message ⟨1, 1⟩ (some Connection.initMessage) .processing) rfl
    have hproc : Processing (s.pc 2) := ⟨_, _, hp⟩
    exact ⟨s, hs, hproc, fun u hu => (exclusive hs).1 u 2 hu hproc⟩
  · obtain ⟨s, hs, hp⟩ := prog.exists_of_run oneStart losing (fun s => ((s.pc 4).conn, (s.pc 4).trans.call))
      (.error 1 1 1 .build, none) rfl
    simp only [Prod.mk.injEq] at hp
    obtain ⟨hb, hcall⟩ := hp
    have hrec : Reconnecting (s.pc 4) := by
      refine ⟨⟨1, 1, 1, .build, hb⟩, by rw [hb]; rfl, fun k => ?_⟩
      rw [hcall]
      simp
    obtain ⟨-, hapart, hbuild⟩ := exclusive hs
    exact ⟨s, hs, hb, hrec, fun u => hapart 4 u hrec, fun u n k es => hbuild 4 u 1 1 1 n k es hb⟩

end SignalRClient.Session
