import SignalRClient.Connection.Completion
import SignalRClient.Hub.Lifetime

/-!
# No deadlock in the hub connection

Inside the hub connection a thread needs nothing but `m_map_lock`, and who has the lock gives it up without waiting
for anything (`exists_leaves`).  So the hub connection can follow the connection to its end: what is under way in
both can be brought to an end without anything new (`hub_comes_to_rest`).
-/

namespace SignalRClient.Hub

open Threads
open Lifetime (holding)

/-! ## The lock of the table -/

/-- The thread has `m_map_lock`. -/
def Pc.locks : Pc → Bool
  | .clear _ (some _) => true
  | _ => false

/-- `m_map_lock` is held. -/
def Table.locked (m : Table) : Bool := m.callbackManager.mapLock.isSome

@[simp] theorem insert_mapLock (m : CallbackManager Callback) (id : String) (callback : Callback) :
    (m.insert id callback).mapLock = m.mapLock := by
  unfold CallbackManager.insert
  split <;> rfl

theorem lockStep_of_moves {t : ℕ} {m m' : Mem} {p p' : Pc} {i : Input} (h : Moves t m p i m' p') :
    LockStep m.locked m'.locked p.locks p'.locks := by
  cases h with
  | connection =>
    rw [afterConnection_toTable]
    exact .stay ..
  | insert c id i hl =>
    show LockStep _ (m.callbackManager.insert id ⟨t, c.void⟩).mapLock.isSome _ _
    rw [insert_mapLock]
    exact .stay ..
  | take n k message es id callback i hl =>
    have hsame : (if message.hasField "P" then m.callbackManager else m.callbackManager.erase id).mapLock =
        m.callbackManager.mapLock := by
      split <;> rfl
    show LockStep _ (if message.hasField "P" then m.callbackManager else m.callbackManager.erase id).mapLock.isSome _ _
    rw [hsame]
    exact .stay ..
  | call =>
    rw [callback_toTable]
    exact .stay ..
  | lock w i hl =>
    unfold Table.locked
    rw [hl]
    exact .take
  | pick =>
    rw [callback_toTable]
    exact .stay ..
  | clearedStop | clearedLost => exact .leave _
  | _ => exact .stay ..

/-! ## The way out of the hub connection -/

/-- The thread is in the connection, or its invocation has been sent or given up. -/
def Pc.rests : Pc → Bool
  | .conn _ | .invoke _ .sent | .invoke _ .rejected | .invoke _ .thrown | .invoke _ .broken => true
  | _ => false

theorem rests_of_holding {p : Pc} (h : holding p = true) : p.rests = false := by
  cases p with
  | conn => cases h
  | invoke c q => cases q <;> first | rfl | cases h
  | _ => rfl

/-- Where a thread goes on in the connection when it has done what it does in the hub connection. -/
def Pc.exit : Pc → Connection.Pc
  | .conn p => p
  | .invoke _ _ => .idle
  | .message n k _ es | .calling n k _ es _ => .process n k es
  | .clear .stop _ => .stop .user .lock
  | .clear (.lost n k c) _ => .error n k c .relock

theorem exit_of_moves {t : ℕ} {m m' : Mem} {p p' : Pc} {i : Input} (h : Moves t m p i m' p') (hp : p.rests = false) :
    m'.connection = m.connection ∧ p'.exit = p.exit := by
  cases h with
  | connection | invoke | stop | lost | receive => cases hp
  | call => exact ⟨callback_connection .., rfl⟩
  | pick w => exact ⟨callback_connection .., by cases w <;> rfl⟩
  | lock w => exact ⟨rfl, by cases w <;> rfl⟩
  | _ => exact ⟨rfl, rfl⟩

/-- Thread `t` alone comes out of the hub connection, and the lock is free then. -/
abbrev Leaves (t : ℕ) (m : Mem) (p : Pc) : Prop :=
  prog.Solo (fun p i => holding p = true ∧ i = .pick 0)
    (fun m p => holding p = false ∧ m.callbackManager.mapLock = none) t m p

section

variable {t : ℕ} {m : Mem} (hc : m.connection.crashed = false)
include hc

theorem leaves_clear_some (w : Clearing) (rest : List (Sigma fun _ : String => Callback)) :
    Leaves t m (.clear w (some rest)) := by
  induction rest generalizing m with
  | nil =>
    cases w with
    | stop =>
      have hn : next t m (.clear .stop (some [])) (.pick 0) =
          some ({ m with callbackManager := m.callbackManager.clear, undecided := insert t m.undecided },
            .conn (.stop .user .lock)) := by
        unfold next
        rw [hc]
        rfl
      exact .next _ ⟨rfl, rfl⟩ hn (.done ⟨rfl, rfl⟩)
    | lost n k c =>
      have hn : next t m (.clear (.lost n k c) (some [])) (.pick 0) =
          some ({ m with callbackManager := m.callbackManager.clear }, .conn (.error n k c .relock)) := by
        unfold next
        rw [hc]
        rfl
      exact .next _ ⟨rfl, rfl⟩ hn (.done ⟨rfl, rfl⟩)
  | cons e rest ih =>
    have hn : next t m (.clear w (some (e :: rest))) (.pick 0) =
        some (m.callback e.2 w.arguments, .clear w (some rest)) := by
      unfold next
      rw [hc]
      rfl
    refine .next _ ⟨rfl, rfl⟩ hn (ih ?_)
    rwa [callback_connection]

variable (hl : m.callbackManager.mapLock = none)
include hl

theorem leaves_clear (w : Clearing) : Leaves t m (.clear w none) := by
  have hn : next t m (.clear w none) (.pick 0) =
      some ({ m with callbackManager := m.callbackManager.lock t },
        .clear w (some m.callbackManager.callbacks.entries)) := by
    simp only [next, runClear, hc, hl]
    rfl
  refine .next _ ⟨rfl, rfl⟩ hn (leaves_clear_some ?_ w _)
  exact hc

theorem leaves_calling (n k : ℕ) (message : Json) (es : List Effect) (callback : Callback) :
    Leaves t m (.calling n k message es callback) := by
  have hn : next t m (.calling n k message es callback) (.pick 0) =
      some (m.callback callback message, .conn (.process n k es)) := by
    unfold next
    rw [hc]
    rfl
  refine .next _ ⟨rfl, rfl⟩ hn (.done ⟨rfl, ?_⟩)
  rwa [callback_toTable]

theorem leaves_message (n k : ℕ) (message : Json) (es : List Effect) : Leaves t m (.message n k message es) := by
  obtain ⟨m', p', hn⟩ : ∃ m' p', next t m (.message n k message es) (.pick 0) = some (m', p') := by
    unfold next runMessage
    rw [hc, if_neg Bool.false_ne_true]
    dsimp only
    split
    · rw [hl]
      dsimp only [Option.isSome_none]
      rw [if_neg Bool.false_ne_true]
      split <;> exact ⟨_, _, rfl⟩
    · exact ⟨_, _, rfl⟩
  have hmoves := next_moves hn
  cases hmoves with
  | discard => exact .next _ ⟨rfl, rfl⟩ hn (.done ⟨rfl, hl⟩)
  | take n k message es id callback i _ hid hf =>
    refine .next _ ⟨rfl, rfl⟩ hn (leaves_calling ?_ ?_ ..)
    · exact hc
    · show (if message.hasField "P" then m.callbackManager else m.callbackManager.erase id).mapLock = none
      split <;> exact hl

theorem leaves_remove (c : Call) (id : String) : Leaves t m (.invoke c (.remove id)) := by
  have hn : next t m (.invoke c (.remove id)) (.pick 0) =
      some ({ m with callbackManager := m.callbackManager.erase id }, .invoke c .rejected) := by
    simp only [next, runInvoke, hc, hl]
    rfl
  exact .next _ ⟨rfl, rfl⟩ hn (.done ⟨rfl, hl⟩)

theorem leaves_send (c : Call) (id : String) (request : Json) : Leaves t m (.invoke c (.send id request)) := by
  have hn : next t m (.invoke c (.send id request)) (.pick 0) = some (m, .invoke c (.sending id)) := by
    unfold next
    rw [hc]
    rfl
  exact .next _ ⟨rfl, rfl⟩ hn (.done ⟨rfl, hl⟩)

theorem leaves_check (c : Call) (id : String) (request : Json) (transport : Option ℕ) :
    Leaves t m (.invoke c (.check id request transport)) := by
  have hn : next t m (.invoke c (.check id request transport)) (.pick 0) =
      if m.connection.connState ≠ .connected ∨ transport = none then
        some (m, .invoke c (.failed id (.notConnected m.connection.connState)))
      else some (m, .invoke c (.send id request)) := by
    unfold next
    rw [hc]
    rfl
  split at hn
  · exact .next _ ⟨rfl, rfl⟩ hn (.done ⟨rfl, hl⟩)
  · exact .next _ ⟨rfl, rfl⟩ hn (leaves_send hc hl c id request)

theorem leaves_request (c : Call) (id : String) : Leaves t m (.invoke c (.request id)) := by
  have hn : next t m (.invoke c (.request id)) (.pick 0) =
      some (m, .invoke c (.check id (invocationRequest c id) m.connection.transport)) := by
    unfold next
    rw [hc]
    rfl
  exact .next _ ⟨rfl, rfl⟩ hn (leaves_check hc hl c id _ _)

theorem leaves_insert (c : Call) (id : String) : Leaves t m (.invoke c (.insert id)) := by
  have hn : next t m (.invoke c (.insert id)) (.pick 0) =
      some ({ m with callbackManager := m.callbackManager.insert id ⟨t, c.void⟩
                     registered := Function.update m.registered t (m.callbackManager.find id).isNone },
        .invoke c (.request id)) := by
    simp only [next, runInvoke, hc, hl]
    rfl
  refine .next _ ⟨rfl, rfl⟩ hn (leaves_request ?_ ?_ c id)
  · exact hc
  · show (m.callbackManager.insert id ⟨t, c.void⟩).mapLock = none
    rwa [insert_mapLock]

theorem leaves_getId (c : Call) : Leaves t m (.invoke c .getId) := by
  have hn : next t m (.invoke c .getId) (.pick 0) =
      some ({ m with callbackManager := m.callbackManager.getCallbackId.2
                     issued := m.issued + 1
                     invocation := Function.update m.invocation t (some ⟨c, m.issued⟩) },
        .invoke c (.insert m.callbackManager.getCallbackId.1)) := by
    unfold next
    rw [hc]
    rfl
  refine .next _ ⟨rfl, rfl⟩ hn (leaves_insert ?_ ?_ c _)
  · exact hc
  · exact hl

/-- **Whoever is inside the hub connection comes out of it** when the lock is free. -/
theorem leaves {p : Pc} (hp : holding p = true) : Leaves t m p := by
  cases p with
  | conn => cases hp
  | invoke c q =>
    cases q with
    | getId => exact leaves_getId hc hl c
    | insert id => exact leaves_insert hc hl c id
    | request id => exact leaves_request hc hl c id
    | check id request transport => exact leaves_check hc hl c id request transport
    | send id request => exact leaves_send hc hl c id request
    | remove id => exact leaves_remove hc hl c id
    | _ => cases hp
  | message n k message es => exact leaves_message hc hl n k message es
  | calling n k message es callback => exact leaves_calling hc hl n k message es callback
  | clear w rest =>
    cases rest with
    | none => exact leaves_clear hc hl w
    | some rest => exact leaves_clear_some hc w rest

end

/-! ## Nobody is stuck in it -/

/-- The step is handled. -/
def Handled (p : Pc) (i : Input) : Prop := ∀ j, i = .conn j → Connection.Handled p.toConnection j

/-- … and begins nothing but the activity of a connect timer. -/
def Quiet (p : Pc) (i : Input) : Prop :=
  Handled p i ∧ (∀ k, i = .conn (.call k) → ∃ n, k = .timer n) ∧ ∀ c, i ≠ .invoke c

/-- What a thread does before it rests. -/
def Inner (p : Pc) (i : Input) : Prop := p.rests = false ∧ (i = .pick 0 ∨ i = .conn (.task .ok))

theorem handled_ok (p : Connection.Pc) : Connection.Handled p (.task .ok) :=
  ⟨fun _ _ _ _ => ⟨fun e => (by cases e), fun e => (by cases e)⟩, fun _ _ _ _ =>
    ⟨fun e => (by cases e), fun e => (by cases e)⟩, fun _ _ _ _ e => (by cases e)⟩

theorem quiet_of_inner (p : Pc) (i : Input) (h : Inner p i) : Quiet p i := by
  obtain ⟨-, rfl | rfl⟩ := h
  · exact ⟨fun j e => (by cases e), fun k e => (by cases e), fun c e => (by cases e)⟩
  · refine ⟨fun j e => ?_, fun k e => (by cases e), fun c e => (by cases e)⟩
    cases e
    exact handled_ok _

section

variable {t : ℕ} {m : Mem} {s s' : State Mem Pc}

/-- A thread outside goes on to where it rests. -/
theorem rests_outside (hc : m.connection.crashed = false) (hl : m.callbackManager.mapLock = none) {p : Pc}
    (hp : holding p = false) : prog.Solo Inner (fun _ p => p.rests = true) t m p := by
  have hremove : ∀ {m : Mem} c id, m.connection.crashed = false → m.callbackManager.mapLock = none →
      next t m (.invoke c (.remove id)) (.pick 0) =
        some ({ m with callbackManager := m.callbackManager.erase id }, .invoke c .rejected) := by
    intro m c id hc hl
    simp only [next, runInvoke, hc, hl]
    rfl
  cases p with
  | conn => exact .done rfl
  | invoke c q =>
    cases q with
    | sending id =>
      have hn : next t m (.invoke c (.sending id)) (.conn (.task .ok)) = some (m, .invoke c .sent) := by
        unfold next
        rw [hc]
        rfl
      exact .next _ ⟨rfl, .inr rfl⟩ hn (.done rfl)
    | failed id e =>
      have hn : next t m (.invoke c (.failed id e)) (.pick 0) =
          some (m.complete t (.sendError e), .invoke c (.remove id)) := by
        unfold next
        rw [hc]
        rfl
      exact .next _ ⟨rfl, .inl rfl⟩ hn (.next _ ⟨rfl, .inl rfl⟩ (hremove c id hc hl) (.done rfl))
    | sent | rejected | thrown | broken => exact .done rfl
    | _ => cases hp
  | _ => cases hp

theorem rests_of_leaves (hc : m.connection.crashed = false) {p : Pc} (h : Leaves t m p) :
    prog.Solo Inner (fun _ p => p.rests = true) t m p := by
  have hkeep := h.keep (fun m' _ => m'.connection = m.connection) (by
    intro m₁ p₁ i m₂ p₂ hok hn hm
    exact (exit_of_moves (next_moves hn) (rests_of_holding hok.1)).1.trans hm) rfl
  refine hkeep.trans (fun p i hok => ⟨rests_of_holding hok.1, .inl hok.2⟩) fun m' p' hq => ?_
  obtain ⟨⟨hp, hl⟩, hm⟩ := hq
  refine rests_outside ?_ hl hp
  rw [hm]
  exact hc

/-- Whoever does not rest can come to where it does, when the lock is free. -/
theorem exists_solo (hc : m.connection.crashed = false) (hl : m.callbackManager.mapLock = none) (p : Pc) :
    prog.Solo Inner (fun _ p => p.rests = true) t m p := by
  cases hp : holding p with
  | false => exact rests_outside hc hl hp
  | true => exact rests_of_leaves hc (leaves hc hl hp)

/-- Of the threads that do not rest one can always come to where it does: the one that has the lock, or any if nobody
has. -/
theorem exists_rests_solo (h : prog.Reachable s) (hc : s.mem.connection.crashed = false)
    (hbusy : ∃ t, (s.pc t).rests = false) :
    ∃ t, (s.pc t).rests = false ∧ prog.Solo Inner (fun _ p => p.rests = true) t s.mem (s.pc t) := by
  have howned : Owned (fun m : Mem => m.locked) Pc.locks s :=
    h.owned rfl fun _ _ _ _ _ _ hn => lockStep_of_moves (next_moves hn)
  cases hl : s.mem.locked with
  | true =>
    obtain ⟨t, ht⟩ := howned hl
    refine ⟨t, ?_⟩
    unfold Pc.locks at ht
    split at ht
    · rename_i w rest hp
      rw [hp]
      exact ⟨rfl, rests_of_leaves hc (leaves_clear_some hc w rest)⟩
    · cases ht
  | false =>
    obtain ⟨t, ht⟩ := hbusy
    exact ⟨t, ht, exists_solo hc (by simpa [Table.locked] using hl) _⟩

theorem inner_runs (hr : prog.Runs (fun s a => Inner (s.pc a.thread) a.input) s s') :
    s'.mem.connection = s.mem.connection ∧ ∀ t, (s'.pc t).exit = (s.pc t).exit := by
  induction hr with
  | refl => exact ⟨rfl, fun _ => rfl⟩
  | @step s₁ s₂ a _ hinner hs ih =>
    obtain ⟨m, p, hn, rfl⟩ := Program.step_eq_some.mp hs
    obtain ⟨hcon, hexit⟩ := exit_of_moves (next_moves hn) hinner.1
    refine ⟨hcon.trans ih.1, fun t => ?_⟩
    by_cases ht : t = a.thread
    · subst ht
      rw [State.set_pc_self, hexit, ih.2]
    · rw [State.set_pc_of_ne _ _ _ _ ht, ih.2]

/-- **Everybody comes out of the hub connection.** -/
theorem exists_resting (h : prog.Reachable s) (hc : s.mem.connection.crashed = false) :
    ∃ s', prog.Runs (fun s a => Inner (s.pc a.thread) a.input) s s' ∧ ∀ t, (s'.pc t).rests = true := by
  have hstep : ∀ s, prog.Reachable s → ¬ s.mem.connection.crashed = true → (∃ t, (!(s.pc t).rests).toNat ≠ 0) →
      ∃ s', prog.Runs (fun s a => Inner (s.pc a.thread) a.input) s s' ∧
        (s'.mem.connection.crashed = true ∨ Lower (fun p => (!p.rests).toNat) s s') := by
    intro s hs hcrash hbusy
    obtain ⟨t, ht, hsolo⟩ := exists_rests_solo hs (by simpa using hcrash) (by simpa using hbusy)
    obtain ⟨m, p, hr, hp⟩ := hsolo.runs
    refine ⟨s.set t m p, hr, .inr (Lower.set ?_)⟩
    rw [hp, ht]
    decide
  obtain ⟨s', hr, hend⟩ := h.exists_rest (fun p => (!p.rests).toNat) _ rfl (fun _ _ _ => trivial) hstep
  refine ⟨s', hr, ?_⟩
  rcases hend with hcrash | hend
  · rw [(inner_runs hr).1, hc] at hcrash
    cases hcrash
  · simpa using hend

end

/-! ## The hub connection follows the connection -/

theorem handled_inside {p : Pc} (hp : ∀ q, p ≠ .conn q) (i : Connection.Input) :
    Connection.Handled p.toConnection i := by
  have hstart : ∀ n c q, p.toConnection ≠ .start n c q := by
    intro n c q e
    cases p with
    | conn r => exact hp r rfl
    | clear w => cases w <;> cases e
    | _ => cases e
  have herror : ∀ n k c q, p.toConnection = .error n k c q → q = .callback := by
    intro n k c q e
    cases p with
    | conn r => exact absurd rfl (hp r)
    | clear w =>
      cases w with
      | stop => cases e
      | lost =>
        cases e
        rfl
    | _ => cases e
  exact ⟨fun n c q e => absurd e (hstart n c q), fun n k c e => (by cases herror n k c _ e),
    fun n k c e => (by cases herror n k c _ e)⟩

/-- Every run whose steps are handled is such a run of the connection. -/
theorem reach_connection {s : State Mem Pc} (h : prog.Reach (fun s a => Handled (s.pc a.thread) a.input) s) :
    Connection.prog.Reach (fun s a => Connection.Handled (s.pc a.thread) a.input) (toConnection s) := by
  refine h.project (f := fun m : Mem => m.connection) (g := Pc.toConnection) rfl rfl fun s a m p _ ha hn => ?_
  by_cases hconn : ∃ q, s.pc a.thread = .conn q
  · obtain ⟨q, hq⟩ := hconn
    have hmoves := next_moves hn
    have ha : ∀ i, a.input = .conn i → Connection.Handled (s.pc a.thread).toConnection i := ha
    rw [hq] at hmoves ha
    show _ ∨ ∃ j, Connection.Handled (s.pc a.thread).toConnection j ∧ _
    rw [hq]
    generalize a.input = i at hmoves ha
    cases hmoves with
    | connection hn' hi =>
      refine .inr ⟨_, ha _ rfl, ?_⟩
      rw [afterConnection_connection]
      exact hn'
    | _ => exact .inl ⟨rfl, rfl⟩
  · refine (next_toConnection hn).imp_right fun hj => ?_
    obtain ⟨j, hj⟩ := hj
    exact ⟨j, handled_inside (fun q hq => hconn ⟨q, hq⟩) j, hj⟩

/-- A step of the connection, when it is not a call of `stop()`. -/
theorem exists_next {t : ℕ} {m : Mem} {q q₁ : Connection.Pc} {i : Connection.Input} {m₁ : Connection.Mem}
    (hn : Connection.next t m.connection q i = some (m₁, q₁)) (hi : i ≠ .call .stop) :
    ∃ m' p', next t m (.conn q) (.conn i) = some (m', p') ∧ m'.toTable = m.toTable ∧ m'.connection = m₁ ∧
      p'.exit = q₁ ∧ (p' = .conn q₁ ∨ (q₁ ≠ .idle ∧ m₁ = m.connection)) := by
  have hc : m.connection.crashed = false := by
    by_contra hcrash
    unfold Connection.next at hn
    rw [if_pos (eq_true_of_ne_false hcrash)] at hn
    cases hn
  have hrun : next t m (.conn q) (.conn i) = runConnection t m q (.conn i) := by
    unfold next
    rw [hc]
    rfl
  rw [hrun]
  unfold runConnection
  split
  · rename_i he
    cases he
  · rename_i he
    cases he
    exact absurd rfl hi
  · rename_i n k c o he
    cases he
    have he : Connection.next t m.connection (.error n k c .callback) (.task o) =
        some (m.connection, .error n k c .relock) := by
      unfold Connection.next
      rw [hc]
      rfl
    rw [he] at hn
    cases hn
    exact ⟨_, _, rfl, rfl, rfl, rfl, .inr ⟨fun e => (by cases e), rfl⟩⟩
  · rename_i n k message es o he
    cases he
    have he : Connection.next t m.connection (.process n k (.receive message :: es)) (.task o) =
        some (m.connection, .process n k es) := by
      unfold Connection.next
      rw [hc]
      rfl
    rw [he] at hn
    cases hn
    exact ⟨_, _, rfl, rfl, rfl, rfl, .inr ⟨fun e => (by cases e), rfl⟩⟩
  · rename_i j _ _ _ he
    cases he
    rw [hn]
    exact ⟨_, _, rfl, afterConnection_toTable .., afterConnection_connection .., rfl, .inl rfl⟩
  · rename_i hno _ _ _ _
    exact (hno i rfl).elim

theorem conn_of_rests {p : Pc} (hp : p.rests = true) (hexit : p.exit ≠ .idle) : p = .conn p.exit := by
  cases p with
  | conn q => rfl
  | invoke c q => exact absurd rfl hexit
  | _ => cases hp

/-- The hub connection stands where the connection does; only the threads of `F` are in it. -/
structure Follows (F : Finset ℕ) (c : State Connection.Mem Connection.Pc) (s : State Mem Pc) : Prop where
  reach : prog.Reach (fun s a => Handled (s.pc a.thread) a.input) s
  rests : ∀ t, (s.pc t).rests = true
  outside : ∀ t, t ∉ F → ∃ q, s.pc t = .conn q
  connection : toConnection s = c

section

variable {F : Finset ℕ} {s : State Mem Pc} {c c' : State Connection.Mem Connection.Pc}

theorem free_of_rests (h : prog.Reachable s) (hr : ∀ t, (s.pc t).rests = true) :
    s.mem.callbackManager.mapLock = none := by
  have howned : Owned (fun m : Mem => m.locked) Pc.locks s :=
    h.owned rfl fun _ _ _ _ _ _ hn => lockStep_of_moves (next_moves hn)
  by_contra hl
  obtain ⟨t, ht⟩ := howned (Option.isSome_iff_ne_none.mpr hl)
  have hrest := hr t
  unfold Pc.locks at ht
  split at ht
  · rename_i hp
    rw [hp] at hrest
    cases hrest
  · cases ht

/-- A step of the connection and the way out of the hub connection. -/
theorem exists_step_solo {t : ℕ} {m : Mem} {q q₁ : Connection.Pc} {i : Connection.Input} {m₁ : Connection.Mem}
    (hl : m.callbackManager.mapLock = none) (hn : Connection.next t m.connection q i = some (m₁, q₁))
    (hi : Quiet (.conn q) (.conn i)) :
    prog.Solo Quiet (fun m p => p = .conn q₁ ∧ m.connection = m₁) t m (.conn q) := by
  have hstop : i ≠ .call .stop := by
    rintro rfl
    obtain ⟨n, hk⟩ := hi.2.1 _ rfl
    cases hk
  have hc : m.connection.crashed = false := by
    by_contra hcrash
    unfold Connection.next at hn
    rw [if_pos (eq_true_of_ne_false hcrash)] at hn
    cases hn
  obtain ⟨m', p, hnext, htable, rfl, rfl, hp | ⟨hidle, hcon⟩⟩ := exists_next hn hstop
  · exact .next _ hi hnext (.done ⟨hp, rfl⟩)
  · -- the callback is handled inside the hub connection
    have hsolo := exists_solo (t := t) (by rw [hcon]; exact hc) (by rw [htable]; exact hl) p
    have hkeep := hsolo.keep (fun m₁ p₁ => m₁.connection = m'.connection ∧ p₁.exit = p.exit) (by
      intro m₁ p₁ j m₂ p₂ hok hn hJ
      obtain ⟨h₁, h₂⟩ := exit_of_moves (next_moves hn) hok.1
      exact ⟨h₁.trans hJ.1, h₂.trans hJ.2⟩) ⟨rfl, rfl⟩
    refine .next _ hi hnext (hkeep.trans quiet_of_inner fun m₁ p₁ hq => .done ⟨?_, hq.2.1⟩)
    rw [← hq.2.2]
    exact conn_of_rests hq.1 (by rw [hq.2.2]; exact hidle)

/-- **Each step of the connection is followed by a run of the hub connection.** -/
theorem follows_step {b : Act Connection.Input} (hR : Follows F c s) (hb : Connection.Beside F c b)
    (hs : Connection.prog.step c b = some c') :
    ∃ s', prog.Runs (fun s a => Quiet (s.pc a.thread) a.input) s s' ∧ Follows F c' s' := by
  obtain ⟨hreach, hrests, hout, rfl⟩ := hR
  obtain ⟨⟨hhandled, hcall⟩, hF⟩ := hb
  obtain ⟨m₁, q₁, hn, rfl⟩ := Program.step_eq_some.mp hs
  obtain ⟨q, hq⟩ := hout _ hF
  have hpc : (toConnection s).pc b.thread = q := by
    show (s.pc b.thread).toConnection = q
    rw [hq]
    rfl
  rw [hpc] at hn hhandled
  have hquiet : Quiet (.conn q) (.conn b.input) := by
    refine ⟨fun i e => ?_, fun k e => ?_, fun c e => (by cases e)⟩
    · cases e
      exact hhandled
    · injection e with e
      exact hcall k e
  have hsolo := exists_step_solo (free_of_rests hreach.reachable hrests) hn hquiet
  rw [← hq] at hsolo
  obtain ⟨m, p, hr, rfl, rfl⟩ := hsolo.runs
  refine ⟨_, hr, hreach.runs hr fun s a ha => ha.1, fun t => ?_, fun t ht => ?_, ?_⟩
  · by_cases hta : t = b.thread
    · rw [hta, State.set_pc_self]
      rfl
    · rw [State.set_pc_of_ne _ _ _ _ hta]
      exact hrests t
  · by_cases hta : t = b.thread
    · rw [hta, State.set_pc_self]
      exact ⟨q₁, rfl⟩
    · rw [State.set_pc_of_ne _ _ _ _ hta]
      exact hout t ht
  · exact State.project_set (fun m : Mem => m.connection) Pc.toConnection s b.thread m (.conn q₁)

/-! ## Rest -/

/-- Nothing is under way, neither in the connection nor in the hub connection. -/
structure AtRest (s : State Mem Pc) : Prop where
  connection : Connection.AtRest (toConnection s)
  rests : ∀ t, (s.pc t).rests = true
  unlocked : s.mem.callbackManager.mapLock = none
  /-- an invocation is completed, or its callback waits for the answer -/
  settled : s.mem.issued < 2 ^ 32 → ∀ u, s.mem.invocation u ≠ none → s.mem.task u ≠ none ∨ s.mem.Waits u

/-- An invocation that has its id has registered its callback, or is about to. -/
theorem entered_of_linked {u : ℕ} {m : Table} {p : Pc} (hl : p.Linked u m) (hu : m.invocation u ≠ none) :
    p.entered = true ∨ ∃ c id, p = .invoke c (.insert id) := by
  cases p with
  | conn | message => exact absurd hl hu
  | calling => exact absurd hl.1 hu
  | clear w rest =>
    cases rest with
    | none => exact absurd hl hu
    | some rest => exact absurd hl.1 hu
  | invoke c q =>
    cases q with
    | getId => exact absurd hl hu
    | insert id => exact .inr ⟨c, id, rfl⟩
    | _ => exact .inl rfl

theorem settled_of_rests (h : prog.Reachable s) (hrests : ∀ t, (s.pc t).rests = true)
    (hlim : s.mem.issued < 2 ^ 32) {u : ℕ} (hu : s.mem.invocation u ≠ none) : s.mem.task u ≠ none ∨ s.mem.Waits u := by
  have hi := orderly_holds h hlim
  have hregistered : s.mem.registered u = true := by
    rcases entered_of_linked ((linked_holds h).2 u) hu with hentered | ⟨c, id, hp⟩
    · exact hi.entered u hentered
    · have hrest := hrests u
      rw [hp] at hrest
      cases hrest
  rcases hi.settled u hregistered with htask | hw | ⟨v, hv⟩
  · exact .inl htask
  · exact .inr hw
  · -- nobody is about to call a callback
    have hrest := hrests v
    revert hv hrest
    cases s.pc v with
    | calling => exact fun _ hrest => (by cases hrest)
    | _ => exact fun hv => hv.elim

/-- **What is under way can be brought to an end**, in the hub connection and in the connection below it, from every
state of a run without an exception that gets past the handlers, without a new call, message or loss. -/
theorem hub_comes_to_rest (h : prog.Reach (fun s a => Handled (s.pc a.thread) a.input) s) :
    ∃ s', prog.Runs (fun s a => Quiet (s.pc a.thread) a.input) s s' ∧
      (s'.mem.connection.crashed = true ∨ AtRest s') := by
  cases hc : s.mem.connection.crashed with
  | true => exact ⟨s, .refl, .inl hc⟩
  | false =>
    obtain ⟨s₁, hr₁, hrests⟩ := exists_resting h.reachable hc
    have hr₁ : prog.Runs (fun s a => Quiet (s.pc a.thread) a.input) s s₁ := hr₁.mono fun s a => quiet_of_inner _ _
    have h₁ := h.runs hr₁ fun s a ha => ha.1
    -- the invocations that rest stay where they are
    obtain ⟨S, hS⟩ := h₁.exists_idle
    classical
    let F : Finset ℕ := S.filter fun t => ¬ ∃ q, s₁.pc t = .conn q
    have hout : ∀ t, t ∉ F → ∃ q, s₁.pc t = .conn q := by
      intro t ht
      by_cases hmem : t ∈ S
      · by_contra hq
        exact ht (Finset.mem_filter.mpr ⟨hmem, hq⟩)
      · exact ⟨.idle, hS t hmem⟩
    have hF : ∀ t ∈ F, ((toConnection s₁).pc t).todo = 0 := by
      intro t ht
      have hnot := (Finset.mem_filter.mp ht).2
      have hrest := hrests t
      show (s₁.pc t).toConnection.todo = 0
      revert hnot hrest
      cases s₁.pc t with
      | conn q => exact fun hnot => absurd ⟨q, rfl⟩ hnot
      | invoke => exact fun _ _ => rfl
      | _ => exact fun _ hrest => (by cases hrest)
    obtain ⟨c', hrc, hend⟩ := Connection.exists_todo_zero F (reach_connection h₁) hF
    obtain ⟨s', hr', hfollows⟩ := hrc.simulate (Follows F) (fun c c' b s hR hb hs => follows_step hR hb hs)
      ⟨h₁, hrests, hout, rfl⟩
    obtain ⟨h', hrests', -, rfl⟩ := hfollows
    refine ⟨s', hr₁.trans hr', hend.imp_right fun hall => ?_⟩
    exact ⟨Connection.atRest_of_todo (reach_connection h') hall, hrests', free_of_rests h'.reachable hrests',
      fun hlim u hu => settled_of_rests h'.reachable hrests' hlim hu⟩

end

/-! ## Runs -/

/-- Thread 5 clears the table in its `stop()`, with an invocation (thread 3) in it, while thread 4 reads a message for
the invocation and thread 6 wants to register one. -/
def clearing : List (Act Input) :=
  started ++ [invoking 3] ++ tasks 3 6 ++ [lift (Connection.call 4 (.message 1 (some sampleAnswer)))] ++ tasks 4 2 ++
    [invoking 6] ++ tasks 6 1 ++ [lift (Connection.call 5 .stop)] ++ tasks 5 1

def handled : Test fun (s : State Mem Pc) (a : Act Input) => Handled (s.pc a.thread) a.input where
  test s a :=
    match a.input with
    | .conn i => Connection.handled.test (toConnection s) ⟨a.thread, i⟩
    | _ => true
  sound {s a} h j e := Connection.handled.sound (s := toConnection s) (a := ⟨a.thread, j⟩) (by simpa [e] using h)

theorem hub_comes_to_rest_clearing : ∃ s, (s.mem.locked = true ∧ (s.pc 5).locks = true ∧ (s.pc 6).rests = false) ∧
    ∃ s', prog.Runs (fun s a => Quiet (s.pc a.thread) a.input) s s' ∧
      (s'.mem.connection.crashed = true ∨ AtRest s') := by
  obtain ⟨s, h, hf⟩ := prog.exists_of_run handled clearing
    (fun s => (s.mem.locked, (s.pc 5).locks, (s.pc 6).rests)) (true, true, false) rfl
  simp only [Prod.mk.injEq] at hf
  exact ⟨s, hf, hub_comes_to_rest h⟩

end SignalRClient.Hub
