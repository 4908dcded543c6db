import SignalRClient.Connection.Shutdown
import SignalRClient.Hub.Correlation

/-!
# What `stop()` leaves in the callback table

A `stop()` of the user clears the table first and shuts the connection down afterwards.  An invocation
that registers its callback between the two and still finds the connection connected sends its request
over a connection that is about to be closed, and its callback stays in the table
(`lateInvocation_waits`).

Where no invocation gets through the connected check in that time, every callback that was ever
registered is settled: its task is completed, or its thread is still to be rejected, or an answer to it
is on the way from the table to the task (`no_invocation_left`).  The argument goes by what the table
says of a thread (`Waiting`) and by what happens to a callback that is not in the table any more
(`Settled`).
-/

namespace SignalRClient.Hub

open Threads
open Connection (ConnectionState)

/-! ## The shutdown of a hub stop -/

/-- The connection is being shut down, or is. -/
def Down (c : ConnectionState) : Prop := c = .disconnecting ∨ c = .disconnected

/-- The `stop()` of the user has cleared the table, and its shutdown has not made up its mind. -/
def pending : Connection.Pc → Bool
  | .stop .user .lock | .stop .user .check | .stop .user .cancel | .stop .user .wait | .stop .user .recheck
  | .stop .user .exchange => true
  | _ => false

theorem Down.ne {c : ConnectionState} (h : Down c) : c ≠ .connecting ∧ c ≠ .connected ∧ c ≠ .reconnecting := by
  rcases h with rfl | rfl <;> decide

section

variable {t : ℕ} {m m' : Connection.Mem} {p p' : Connection.Pc} {i : Connection.Input}

/-- Only a new session leads out. -/
theorem down_of_next (h : Connection.next t m p i = some (m', p')) (hs : m'.sessions = m.sessions)
    (hd : Down m.connState) : Down m'.connState := by
  obtain ⟨hconnecting, hconnected, hreconnecting⟩ := hd.ne
  rcases (Connection.next_writes h).state with e | hch
  · rw [e]
    exact hd
  · generalize m'.connState = c at hch
    cases hch with
    | start hc =>
      obtain ⟨o, -, h'⟩ := Connection.next_start h
      rw [Connection.runStart, if_pos hc] at h'
      cases h'
      simp at hs
    | started hc => exact absurd hc hconnecting
    | notStarted => exact .inr rfl
    | lost hc => exact absurd hc hconnected
    | regained hc => exact absurd hc hreconnecting
    | stop => exact .inl rfl
    | stopped => exact .inr rfl

/-- Only the user begins a `stop()` of the user. -/
theorem of_user_lock (h : Connection.next t m p i = some (m', .stop .user .lock)) :
    p = .idle ∧ i = .call .stop := by
  cases Connection.next_leads h with
  | @enter k _ _ _ _ hp =>
    cases k <;> cases hp
    exact ⟨rfl, rfl⟩
  | @stop g q q' o _ h' =>
    cases q <;> simp only [Connection.runStop] at h' <;> repeat' (split at h')
    all_goals simp at h'

/-- A shutdown that makes up its mind finds the connection down or takes it down. -/
theorem down_of_decides (h : Connection.next t m p i = some (m', p')) (hp : decides p' = true) :
    pending p = true ∧ Down m'.connState := by
  rcases p' with _ | _ | ⟨g, q'⟩ | _ | _ | _ | _ | _
  case stop =>
    rcases Connection.next_stop_pc h with rfl | ⟨q, o, rfl, h'⟩
    · cases g <;> cases hp
    · cases g with
      | reconnect c k => cases q' <;> cases hp
      | user =>
        cases q <;> simp only [Connection.runStop] at h' <;> repeat' (split at h')
        all_goals simp only [reduceCtorEq, Option.some.injEq, Prod.mk.injEq, Connection.Pc.stop.injEq] at h'
        all_goals obtain ⟨rfl, -, rfl⟩ := h'
        case check.isTrue hc => exact ⟨rfl, .inr hc⟩
        case check.isFalse.isTrue hc => exact ⟨rfl, .inl hc⟩
        case recheck.isTrue hc => exact ⟨rfl, .inr hc⟩
        case exchange => exact ⟨rfl, .inl rfl⟩
        all_goals cases hp
  all_goals cases hp

/-- A shutdown of a hub stop begins behind the clear, and goes on until it has made up its mind. -/
theorem pending_of_next (h : Connection.next t m p i = some (m', p')) (hi : ¬ Intercepted p i)
    (hp : pending p' = true) : pending p = true := by
  rcases p' with _ | _ | ⟨g, q'⟩ | _ | _ | _ | _ | _
  case stop =>
    cases g with
    | reconnect c k => cases q' <;> cases hp
    | user =>
      rcases Connection.next_stop_pc h with rfl | ⟨q, o, rfl, h'⟩
      · obtain ⟨rfl, rfl⟩ := of_user_lock h
        exact absurd trivial hi
      · cases q <;> simp only [Connection.runStop] at h' <;> repeat' (split at h')
        all_goals simp only [reduceCtorEq, Option.some.injEq, Prod.mk.injEq, Connection.Pc.stop.injEq] at h'
        all_goals obtain ⟨rfl, -, rfl⟩ := h'
        all_goals first
          | rfl
          | cases hp
  all_goals cases hp

end

/-! ## The condition on the steps -/

/-- Fewer than 2 ^ 32 ids are given out; and an invocation whose callback is in the table does not get
through the connected check while a hub stop is between its clear and the decision of its shutdown. -/
structure Timely (s : State Mem Pc) (a : Act Input) : Prop where
  few : ∀ c, s.pc a.thread = .invoke c .getId → s.mem.issued + 1 < 2 ^ 32
  check : ∀ c id request n, s.pc a.thread = .invoke c (.check id request (some n)) →
    s.mem.connection.connState = .connected → s.mem.callbackManager.find id = some ⟨a.thread, c.void⟩ →
    s.mem.undecided = ∅

def timely : Test Timely where
  test s a :=
    match s.pc a.thread with
    | .invoke _ .getId => s.mem.issued + 1 < 2 ^ 32
    | .invoke c (.check id _ _) =>
      s.mem.connection.connState ≠ .connected || s.mem.callbackManager.find id ≠ some ⟨a.thread, c.void⟩ ||
        s.mem.undecided = ∅
    | _ => true
  sound h := by
    refine ⟨fun c hp => ?_, fun c id request n hp hc hf => ?_⟩
    · rw [hp] at h
      simpa using h
    · rw [hp] at h
      simpa [hc, hf] using h

/-! ## Hub stops -/

/-- The thread is a hub stop between its clear and the decision of its shutdown. -/
def Pc.pending : Pc → Bool
  | .conn p => Hub.pending p
  | _ => false

section

variable {t : ℕ} {m m' : Mem} {p p' : Pc} {i : Input}

/-- The notes on hub stops change with a clear and with a decision. -/
theorem notes_of_moves (h : Moves t m p i m' p') :
    (m'.undecided = m.undecided ∧ m'.decided = m.decided ∧ m'.connection = m.connection ∧ p'.pending = false) ∨
    (p = .clear .stop (some []) ∧ m'.undecided = insert t m.undecided ∧ m'.decided = m.decided ∧
      m'.connection = m.connection) ∨
    ∃ q q' j, p = .conn q ∧ p' = .conn q' ∧ ¬ Intercepted q j ∧
      Connection.next t m.connection q j = some (m'.connection, q') ∧
      ((decides q' = false ∧ m'.undecided = m.undecided ∧ m'.decided = m.decided) ∨
        (decides q' = true ∧ m'.undecided = m.undecided.erase t ∧
          m'.decided = Function.update m.decided t (some m'.connection.sessions))) := by
  cases h with
  | @connection q q' j connection hn hi =>
    refine .inr (.inr ⟨q, q', j, rfl, rfl, hi, ?_, ?_⟩)
    · rw [afterConnection_connection]
      exact hn
    · unfold Mem.afterConnection
      cases decides q' with
      | true => exact .inr ⟨rfl, rfl, rfl⟩
      | false => exact .inl ⟨rfl, rfl, rfl⟩
  | clearedStop => exact .inr (.inl ⟨rfl, rfl, rfl, rfl⟩)
  | call n k message es callback =>
    have hc := callback_undecided m callback message
    exact .inl ⟨hc.1, hc.2, callback_connection .., rfl⟩
  | pick w rest j e he =>
    have hc := callback_undecided m e.2 w.arguments
    exact .inl ⟨hc.1, hc.2, callback_connection .., rfl⟩
  | _ => exact .inl ⟨rfl, rfl, rfl, rfl⟩

theorem pending_of_moves (h : Moves t m p i m' p') (hp : p.pending = true → t ∈ m.undecided) :
    (∀ u, u ≠ t → u ∈ m.undecided → u ∈ m'.undecided) ∧ (p'.pending = true → t ∈ m'.undecided) := by
  rcases notes_of_moves h with ⟨hu, -, -, hp'⟩ | ⟨-, hu, -⟩ | ⟨q, q', j, rfl, rfl, hi, hn, ⟨-, hu, -⟩ | ⟨hd, hu, -⟩⟩
  · rw [hu, hp']
    exact ⟨fun _ _ hm => hm, fun hf => by cases hf⟩
  · rw [hu]
    exact ⟨fun u _ hm => Finset.mem_insert_of_mem hm, fun _ => Finset.mem_insert_self t _⟩
  · rw [hu]
    exact ⟨fun _ _ hm => hm, fun hq => hp (pending_of_next hn hi hq)⟩
  · rw [hu]
    refine ⟨fun u hut hm => Finset.mem_erase_of_ne_of_mem hut hm, fun hq => ?_⟩
    have hno : ∀ q : Connection.Pc, decides q = true → Hub.pending q ≠ true := by
      intro q hd hq
      unfold decides at hd
      split at hd <;> simp [Hub.pending] at hq hd
    exact absurd hq (hno q' hd)

/-- Since a decision the connection has stayed down, unless a session has begun. -/
def Mem.Decided (m : Mem) : Prop :=
  ∀ u k, m.decided u = some k → k ≤ m.connection.sessions ∧ (k = m.connection.sessions → Down m.connection.connState)

theorem decided_of_moves (h : Moves t m p i m' p') (hm : m.Decided) : m'.Decided := by
  have hnext : ∀ q q' j, Connection.next t m.connection q j = some (m'.connection, q') → ∀ u k, m.decided u = some k →
      k ≤ m'.connection.sessions ∧ (k = m'.connection.sessions → Down m'.connection.connState) := by
    intro q q' j hn u k hk
    obtain ⟨hle, hdown⟩ := hm u k hk
    rcases (Connection.next_writes hn).sessions with hs | ⟨hs, -⟩
    · refine ⟨by omega, fun he => ?_⟩
      exact down_of_next hn hs (hdown (by omega))
    · exact ⟨by omega, fun he => by omega⟩
  rcases notes_of_moves h with ⟨-, hd, hc, -⟩ | ⟨-, -, hd, hc⟩ | ⟨q, q', j, rfl, rfl, hi, hn, ⟨-, -, hd⟩ | ⟨hdec, -, hd⟩⟩
  · unfold Mem.Decided
    rw [hd, hc]
    exact hm
  · unfold Mem.Decided
    rw [hd, hc]
    exact hm
  · intro u k hk
    rw [hd] at hk
    exact hnext q q' j hn u k hk
  · intro u k hk
    rw [hd] at hk
    by_cases hut : u = t
    · subst hut
      rw [Function.update_self] at hk
      injection hk with hk
      exact ⟨hk.ge, fun _ => (down_of_decides hn hdec).2⟩
    · rw [Function.update_of_ne hut] at hk
      exact hnext q q' j hn u k hk

end

/-! ## What the table says of a thread -/

/-- The callback of invocation `t` is in the table. -/
def Table.Waits (m : Table) (t : ℕ) : Prop :=
  ∃ id callback, m.callbackManager.find id = some callback ∧ callback.invocation = t

/-- No hub stop is between its clear and its decision, and a session has begun since each decision. -/
def Mem.Open (m : Mem) : Prop := m.undecided = ∅ ∧ ∀ u, m.decided u ≠ some m.connection.sessions

/-- The invocation is before the connected check, or its send has failed. -/
def Pc.unsent : Pc → Bool
  | .invoke _ (.request _) | .invoke _ (.check _ _ _) | .invoke _ (.failed _ _) | .invoke _ (.remove _) => true
  | _ => false

/-- Where a thread is whose callback is in the table. -/
def Pc.Waiting (m : Mem) : Pc → Prop
  | .invoke _ (.request _) | .invoke _ (.check _ _ _) | .invoke _ (.failed _ _) | .invoke _ (.remove _) => True
  | .invoke _ (.send _ _) | .invoke _ (.sending _) | .invoke _ .sent | .invoke _ .thrown | .invoke _ .broken =>
    m.Open
  | _ => False

theorem Table.Linked.find_of_waits {m : Table} (hg : m.Linked) {t : ℕ} (h : m.Waits t) {c : Call} {id : String}
    (hp : ∃ v, m.invocation t = some v ∧ v.call = c ∧ v.id = id) : m.callbackManager.find id = some ⟨t, c.void⟩ := by
  obtain ⟨id', callback, hf, rfl⟩ := h
  obtain ⟨v, hv, rfl, rfl⟩ := hp
  obtain ⟨w, hw, rfl, hvoid⟩ := hg.entry id' callback hf
  rw [hv] at hw
  injection hw with hw
  rw [hw, hf, hvoid]

section

variable {t : ℕ} {m m' : Mem} {p p' : Pc} {i : Input}

/-- A callback gets into the table by the registration of its invocation. -/
theorem waits_of_moves (h : Moves t m p i m' p') {u : ℕ} (hw : m'.Waits u) :
    m.Waits u ∨ (u = t ∧ ∃ c id, p = .invoke c (.insert id)) := by
  obtain ⟨id, callback, hf, hu⟩ := hw
  cases h with
  | connection hn hi =>
    rw [afterConnection_toTable] at hf
    exact .inl ⟨id, callback, hf, hu⟩
  | insert c id' i hl =>
    rw [CallbackManager.insert_find] at hf
    split at hf
    · injection hf with hf
      rw [← hf] at hu
      exact .inr ⟨hu.symm, c, id', rfl⟩
    · exact .inl ⟨id, callback, hf, hu⟩
  | remove c id' i hl =>
    rw [CallbackManager.erase_find] at hf
    split at hf
    · cases hf
    · exact .inl ⟨id, callback, hf, hu⟩
  | take n k message es id' callback' i hl hid hf' =>
    simp only at hf
    split at hf
    · exact .inl ⟨id, callback, hf, hu⟩
    · rw [CallbackManager.erase_find] at hf
      split at hf
      · cases hf
      · exact .inl ⟨id, callback, hf, hu⟩
  | call n k message es callback' =>
    rw [callback_toTable] at hf
    exact .inl ⟨id, callback, hf, hu⟩
  | pick w rest j e he =>
    rw [callback_toTable] at hf
    exact .inl ⟨id, callback, hf, hu⟩
  | clearedStop => cases hf
  | clearedLost => cases hf
  | _ => exact .inl ⟨id, callback, hf, hu⟩

/-- The table stays open, or it is empty. -/
theorem open_of_moves (h : Moves t m p i m' p') (hp : p.pending = true → t ∈ m.undecided) (hd : m.Decided)
    (ho : m.Open) : m'.Open ∨ ∀ u, ¬ m'.Waits u := by
  rcases notes_of_moves h with
    ⟨hu, hde, hc, -⟩ | ⟨rfl, -⟩ | ⟨q, q', j, rfl, rfl, hi, hn, ⟨-, hu, hde⟩ | ⟨hdec, -⟩⟩
  · refine .inl ?_
    unfold Mem.Open
    rw [hu, hde, hc]
    exact ho
  · refine .inr fun u hw => ?_
    obtain ⟨id, callback, hf, -⟩ := hw
    cases h with
    | pick _ _ _ _ he => cases he
    | clearedStop => cases hf
  · refine .inl ⟨hu.trans ho.1, fun u hk => ?_⟩
    rw [hde] at hk
    have hle := (hd u _ hk).1
    rcases (Connection.next_writes hn).sessions with hs | ⟨hs, -⟩
    · rw [hs] at hk
      exact ho.2 u hk
    · omega
  · have hm := hp (down_of_decides hn hdec).1
    rw [ho.1] at hm
    cases hm

/-- **Step lemma** for the thread that steps. -/
theorem waiting_of_moves (h : Moves t m p i m' p') (hg : m.toTable.Linked) (hl : p.Linked t m.toTable)
    (hd : m.Decided) (hw : m.Waits t → p.Waiting m)
    (hcheck : ∀ c id request n, p = .invoke c (.check id request (some n)) → m.connection.connState = .connected →
      m.callbackManager.find id = some ⟨t, c.void⟩ → m.undecided = ∅)
    (hw' : m'.Waits t) : p'.Waiting m' := by
  have hwaits : (∃ c id, p = .invoke c (.insert id)) ∨ (m.Waits t ∧ p.Waiting m) := by
    rcases waits_of_moves h hw' with hm | ⟨-, hp⟩
    · exact .inr ⟨hm, hw hm⟩
    · exact .inl hp
  rcases hwaits with ⟨c, id, rfl⟩ | ⟨hm, hp⟩
  · cases h
    trivial
  · cases h with
    | request => trivial
    | reject => trivial
    | pass c id request n i hc =>
      refine ⟨hcheck c id request n rfl hc (hg.find_of_waits hm hl.1), fun u hk => ?_⟩
      exact ((hd u _ hk).2 rfl).ne.2.1 hc
    | sendThrows => exact hp
    | send => exact hp
    | sent => exact hp
    | fault => trivial
    | faultOther => exact hp
    | fail => trivial
    | remove c id i hlock =>
      obtain ⟨id', callback, hf, ht⟩ := hw'
      rw [CallbackManager.erase_find] at hf
      split at hf
      · cases hf
      · rename_i hne
        have hown := hg.find_of_waits hm hl
        obtain ⟨v, hv, -, hid⟩ := hl
        obtain ⟨v', hv', hid', -⟩ := hg.entry id' callback hf
        rw [ht, hv] at hv'
        injection hv' with hv'
        rw [← hid', ← hv', hid] at hne
        exact absurd rfl hne
    | _ => exact hp.elim

end

/-- The assertions on other threads' callbacks. -/
theorem Pc.Waiting.step {m m' : Mem} {p : Pc} (h : p.Waiting m) (ho : m.Open → m'.Open) : p.Waiting m' := by
  unfold Pc.Waiting at h ⊢
  split at h
  all_goals first
    | trivial
    | exact ho h

/-- When the table is not open, no send was let through whose callback is in it. -/
theorem Pc.Waiting.unsent {m : Mem} {p : Pc} (h : p.Waiting m) (ho : ¬ m.Open) : p.unsent = true := by
  unfold Pc.Waiting at h
  split at h
  all_goals first
    | rfl
    | exact absurd h ho
    | exact h.elim

/-! ## What becomes of a registered callback -/

/-- An answer to invocation `t` has been taken out of the table with its callback. -/
def Pc.Takes (t : ℕ) : Pc → Prop
  | .calling _ _ answer _ callback => callback.invocation = t ∧ answer.hasField "P" = false
  | _ => False

/-- The task is completed, or the callback is in the table, or it is about to be called with an answer. -/
def Settled (s : State Mem Pc) (t : ℕ) : Prop :=
  s.mem.task t ≠ none ∨ s.mem.Waits t ∨ ∃ u, (s.pc u).Takes t

/-- What `clear` has called is completed, and so is an invocation that takes its callback back. -/
def Pc.Completed (t : ℕ) (m : Mem) : Pc → Prop
  | .clear _ (some rest) => ∀ id callback, m.callbackManager.find id = some callback →
      (⟨id, callback⟩ : Sigma fun _ : String => Callback) ∈ rest ∨ m.task callback.invocation ≠ none
  | .invoke _ (.remove _) => m.task t ≠ none
  | _ => True

theorem callback_task_ne {m : Mem} {callback : Callback} {arguments : Json} {u : ℕ} (h : m.task u ≠ none) :
    (m.callback callback arguments).task u ≠ none := by
  rw [callback_task]
  split
  · by_cases hu : u = callback.invocation
    · rw [hu, Function.update_self]
      exact Option.some_ne_none _
    · rwa [Function.update_of_ne hu]
  · exact h

theorem callback_task_self {m : Mem} {callback : Callback} {arguments : Json} (h : Answers arguments) :
    (m.callback callback arguments).task callback.invocation ≠ none := by
  obtain ⟨c, hc⟩ := Option.isSome_iff_exists.mp ((completion?_isSome callback.void arguments).mpr h)
  rw [callback_task, hc]
  dsimp only
  rw [Function.update_self]
  exact Option.some_ne_none _

theorem answers_arguments (w : Clearing) : Answers w.arguments := by
  cases w <;> exact .inr rfl

section

variable {t : ℕ} {m m' : Mem} {p p' : Pc} {i : Input}

/-- A completed task stays completed. -/
theorem task_ne_of_moves (h : Moves t m p i m' p') {u : ℕ} (hu : m.task u ≠ none) : m'.task u ≠ none := by
  cases h with
  | connection hn hi => rwa [afterConnection_task]
  | fail c id e =>
    rw [complete_task]
    by_cases hut : u = t
    · rw [hut, Function.update_self]
      exact Option.some_ne_none _
    · rwa [Function.update_of_ne hut]
  | call => exact callback_task_ne hu
  | pick => exact callback_task_ne hu
  | _ => exact hu

theorem completed_of_moves (h : Moves t m p i m' p') (hp : p.Completed t m) : p'.Completed t m' := by
  cases h with
  | fail c id e =>
    show (m.complete t _).task t ≠ none
    rw [complete_task, Function.update_self]
    exact Option.some_ne_none _
  | lock w i hl => exact fun id callback hf => .inl ((CallbackManager.mem_entries m.callbackManager).mpr hf)
  | pick w rest j e he =>
    intro id callback hf
    rw [callback_toTable] at hf
    rcases hp id callback hf with hm | hm
    · by_cases hc : (⟨id, callback⟩ : Sigma fun _ : String => Callback) = e
      · rw [← hc]
        exact .inr (callback_task_self (answers_arguments w))
      · refine .inl (List.mem_eraseIdx_iff_getElem?.mpr ?_)
        obtain ⟨k, hk⟩ := List.mem_iff_getElem?.mp hm
        refine ⟨k, ?_, hk⟩
        rintro rfl
        rw [he] at hk
        exact hc (Option.some.inj hk).symm
    · exact .inr (callback_task_ne hm)
  | _ => trivial

theorem Pc.Completed.step {u : ℕ} {q : Pc} (hu : u ≠ t) (hq : q.Completed u m) (hl : q.Linked u m.toTable)
    (h : Moves t m p i m' p') (hf : m.toTable.Frame t m'.toTable) : q.Completed u m' := by
  unfold Pc.Completed at hq ⊢
  split at hq
  · intro id callback hfind
    rw [(hf.locked u hu hl.2.1).2] at hfind
    rcases hq id callback hfind with hm | hm
    · exact .inl hm
    · exact .inr (task_ne_of_moves h hm)
  · exact task_ne_of_moves h hq
  · trivial

end

/-- **Step lemma** for the callbacks that were registered. -/
theorem settled_of_moves {s : State Mem Pc} {t : ℕ} {m' : Mem} {p' : Pc} {i : Input}
    (h : Moves t s.mem (s.pc t) i m' p') (hg : s.mem.toTable.Linked) (hl : (s.pc t).Linked t s.mem.toTable)
    (hlim : s.mem.issued < 2 ^ 32) (hc : (s.pc t).Completed t s.mem)
    (hs : ∀ u, s.mem.registered u = true → Settled s u) {u : ℕ} (hu : m'.registered u = true) :
    Settled (s.set t m' p') u := by
  have hstay : Settled s u → (s.mem.Waits u → Settled (s.set t m' p') u) →
      ((s.pc t).Takes u → Settled (s.set t m' p') u) → Settled (s.set t m' p') u := by
    rintro (htask | hw | ⟨v, hv⟩) hwaits htakes
    · exact .inl (task_ne_of_moves h htask)
    · exact hwaits hw
    · by_cases hvt : v = t
      · rw [hvt] at hv
        exact htakes hv
      · refine .inr (.inr ⟨v, ?_⟩)
        rwa [State.set_pc_of_ne _ _ _ _ hvt]
  generalize hp : s.pc t = q at h hl hc hstay
  cases h with
  | connection hn hi =>
    rw [afterConnection_toTable] at hu
    refine hstay (hs u hu) (fun hw => .inr (.inl ?_)) fun ht => ht.elim
    show Table.Waits (Mem.toTable _) u
    rw [State.set_mem, afterConnection_toTable]
    exact hw
  | insert c id i hlock =>
    by_cases hut : u = t
    · subst hut
      have hfree : s.mem.callbackManager.find id = none := by simpa using hu
      refine .inr (.inl ⟨id, ⟨u, c.void⟩, ?_, rfl⟩)
      show CallbackManager.find (CallbackManager.insert _ _ _) id = _
      rw [CallbackManager.insert_find, if_pos ⟨rfl, hfree⟩]
    · have hu' : s.mem.registered u = true := by
        rw [← hu]
        exact (Function.update_of_ne hut ..).symm
      exact hstay (hs u hu')
        (fun ⟨id', callback, hf, hcb⟩ => .inr (.inl ⟨id', callback, CallbackManager.insert_find_of_some hf, hcb⟩))
        fun ht => ht.elim
  | remove c id i hlock =>
    refine hstay (hs u hu) (fun ⟨id', callback, hf, hcb⟩ => ?_) fun ht => ht.elim
    by_cases hid : id' = id
    · -- it is the own entry, and `set_exception` came first
      obtain ⟨v, hv, -, hv'⟩ := hl
      obtain ⟨w, hw, hw', -⟩ := hg.entry id' callback hf
      have htu : callback.invocation = t := hg.id_inj hlim hw hv (by rw [hw', hv', hid])
      rw [← hcb, htu]
      exact .inl hc
    · refine .inr (.inl ⟨id', callback, ?_, hcb⟩)
      show CallbackManager.find (CallbackManager.erase _ _) id' = _
      rw [CallbackManager.erase_find, if_neg hid, hf]
  | take n k message es id callback i hlock hid hf =>
    refine hstay (hs u hu) (fun ⟨id', callback', hf', hcb⟩ => ?_) fun ht => ht.elim
    by_cases hP : message.hasField "P" = true
    · refine .inr (.inl ⟨id', callback', ?_, hcb⟩)
      show CallbackManager.find (if message.hasField "P" = true then _ else _) id' = _
      rw [if_pos hP, hf']
    · by_cases he : id' = id
      · refine .inr (.inr ⟨t, ?_⟩)
        rw [State.set_pc_self]
        rw [he, hf] at hf'
        injection hf' with hf'
        rw [← hf'] at hcb
        exact ⟨hcb, by simpa using hP⟩
      · refine .inr (.inl ⟨id', callback', ?_, hcb⟩)
        show CallbackManager.find (if message.hasField "P" = true then _ else _) id' = _
        rw [if_neg hP, CallbackManager.erase_find, if_neg he, hf']
  | call n k message es callback =>
    rw [callback_toTable] at hu
    refine hstay (hs u hu) (fun hw => .inr (.inl ?_)) fun ht => .inl ?_
    · show Table.Waits (Mem.toTable _) u
      rw [State.set_mem, callback_toTable]
      exact hw
    · rw [State.set_mem, ← ht.1]
      exact callback_task_self (.inr ht.2)
  | pick w rest j e he =>
    rw [callback_toTable] at hu
    refine hstay (hs u hu) (fun hw => .inr (.inl ?_)) fun ht => ht.elim
    show Table.Waits (Mem.toTable _) u
    rw [State.set_mem, callback_toTable]
    exact hw
  | clearedStop | clearedLost =>
    refine hstay (hs u hu) (fun ⟨id, callback, hf, hcb⟩ => .inl ?_) fun ht => ht.elim
    rcases hc id callback hf with hm | hm
    · cases hm
    · rwa [← hcb]
  | _ => exact hstay (hs u hu) (fun hw => .inr (.inl hw)) fun ht => ht.elim

/-! ## Whole runs -/

/-- What holds in every state of the runs whose steps are timely. -/
structure Clean (s : State Mem Pc) : Prop where
  few : s.mem.issued < 2 ^ 32
  pending : ∀ u, (s.pc u).pending = true → u ∈ s.mem.undecided
  decided : s.mem.Decided
  waiting : ∀ u, s.mem.Waits u → (s.pc u).Waiting s.mem
  completed : ∀ u, (s.pc u).Completed u s.mem
  settled : ∀ u, s.mem.registered u = true → Settled s u

theorem issued_of_moves {t : ℕ} {m m' : Mem} {p p' : Pc} {i : Input} (h : Moves t m p i m' p') :
    m'.issued = m.issued ∨ (m'.issued = m.issued + 1 ∧ ∃ c, p = .invoke c .getId) := by
  cases h with
  | connection hn hi =>
    rw [afterConnection_toTable]
    exact .inl rfl
  | getId c => exact .inr ⟨rfl, c, rfl⟩
  | call =>
    rw [callback_toTable]
    exact .inl rfl
  | pick =>
    rw [callback_toTable]
    exact .inl rfl
  | _ => exact .inl rfl

theorem clean_holds {s : State Mem Pc} (h : prog.Reach Timely s) : Clean s := by
  refine h.invariant (J := Clean) ?_ fun s a m p hr ha hi hn => ?_
  · refine ⟨by decide, fun u hu => ?_, fun u k hk => ?_, fun u hu => ?_, fun u => trivial, fun u hu => ?_⟩
    · cases hu
    · cases hk
    · obtain ⟨id, callback, hf, -⟩ := hu
      cases hf
    · cases hu
  · obtain ⟨hg, hl⟩ := linked_holds hr.reachable
    have hmoves := next_moves hn
    have hframe := (moves_kept hmoves hg (hl a.thread)).frame
    have hpending := pending_of_moves hmoves (hi.pending a.thread)
    refine ⟨?_, fun u hu => ?_, decided_of_moves hmoves hi.decided, fun u hu => ?_, fun u => ?_, fun u hu => ?_⟩
    · show m.issued < 2 ^ 32
      rcases issued_of_moves hmoves with he | ⟨he, c, hp⟩
      · rw [he]
        exact hi.few
      · rw [he]
        exact ha.few c hp
    · by_cases hut : u = a.thread
      · subst hut
        rw [State.set_pc_self] at hu
        exact hpending.2 hu
      · rw [State.set_pc_of_ne _ _ _ _ hut] at hu
        exact hpending.1 u hut (hi.pending u hu)
    · by_cases hut : u = a.thread
      · subst hut
        rw [State.set_pc_self]
        exact waiting_of_moves hmoves hg (hl _) hi.decided (hi.waiting _) ha.check hu
      · rw [State.set_pc_of_ne _ _ _ _ hut]
        rcases waits_of_moves hmoves hu with hw | ⟨he, -⟩
        · refine (hi.waiting u hw).step fun ho => ?_
          rcases open_of_moves hmoves (hi.pending _) hi.decided ho with ho' | hno
          · exact ho'
          · exact absurd hu (hno u)
        · exact absurd he hut
    · by_cases hut : u = a.thread
      · subst hut
        rw [State.set_pc_self]
        exact completed_of_moves hmoves (hi.completed _)
      · rw [State.set_pc_of_ne _ _ _ _ hut]
        exact (hi.completed u).step hut (hl u) hmoves hframe
    · exact settled_of_moves hmoves hg (hl _) hi.few (hi.completed _) hi.settled hu

/-- The task returned by the hub stop of thread `u` has completed, the connection is disconnected, and no
start has begun a session since the stop took the connection down. -/
structure Stopped (s : State Mem Pc) (u : ℕ) : Prop where
  stopped : s.pc u = .conn (.stop .user .stopped)
  disconnected : s.mem.connection.connState = .disconnected
  quiet : s.mem.decided u = some s.mem.connection.sessions

/-- No invocation is left behind: each one whose callback was registered has its task completed, unless
its thread is still to be told that its send has failed, or an answer is on its way to the task. -/
def NoneLeft (s : State Mem Pc) : Prop :=
  ∀ t, s.mem.registered t = true →
    s.mem.task t ≠ none ∨ (s.pc t).unsent = true ∨ ∃ u, (s.pc u).Takes t

/-- **A hub stop leaves no invocation behind**, when no invocation passes the connected check between its
clear and its shutdown. -/
theorem no_invocation_left {s : State Mem Pc} (h : prog.Reach Timely s) {u : ℕ} (hu : Stopped s u) : NoneLeft s := by
  intro t ht
  have hc := clean_holds h
  rcases hc.settled t ht with htask | hw | htaken
  · exact .inl htask
  · exact .inr (.inl ((hc.waiting t hw).unsent fun ho => ho.2 u hu.quiet))
  · exact .inr (.inr htaken)

/-- An invocation (thread 4) waits for its answer, and the user stops the connection (thread 3). -/
def clearedInvocation : List (Act Input) :=
  started ++ [invoking 4] ++ tasks 4 6 ++ [lift (Connection.call 3 .stop), task 3 .ok, ⟨3, .pick 0⟩] ++ tasks 3 16

theorem no_invocation_left_cleared : ∃ s, Stopped s 3 ∧ NoneLeft s ∧ s.mem.registered 4 = true ∧
    (s.mem.task 4).isSome = true := by
  obtain ⟨s, hr, hf⟩ := prog.exists_of_run timely clearedInvocation
    (fun s => (s.pc 3, s.mem.connection.connState, s.mem.decided 3, s.mem.connection.sessions,
      s.mem.registered 4, (s.mem.task 4).isSome))
    (.conn (.stop .user .stopped), .disconnected, some 1, 1, true, true) rfl
  simp only [Prod.mk.injEq] at hf
  obtain ⟨hp, hc, hd, hse, hreg, htask⟩ := hf
  have hstop : Stopped s 3 := ⟨hp, hc, by rw [hd, hse]⟩
  exact ⟨s, hstop, no_invocation_left hr hstop, hreg, htask⟩

/-- The user's stop (thread 3) has cleared the table; an invocation (thread 4) registers its callback, finds
the connection connected and sends its request; then the stop goes on. -/
def lateInvocation : List (Act Input) :=
  started ++ [lift (Connection.call 3 .stop)] ++ tasks 3 2 ++ [invoking 4] ++ tasks 4 6 ++ tasks 3 15

/-- The invocation waits in the table for good. -/
theorem lateInvocation_waits : ¬ ∀ s u, prog.Reachable s → Stopped s u → NoneLeft s := by
  intro hall
  obtain ⟨s, hr, hf, hidle⟩ := prog.exists_of_run_lt Test.all lateInvocation 5
    (by decide) (fun s => ([s.pc 0, s.pc 1, s.pc 2, s.pc 3, s.pc 4], s.mem.connection.connState, s.mem.decided 3,
      s.mem.connection.sessions, s.mem.registered 4, (s.mem.task 4).isNone))
    ([.conn .idle, .conn (.start 1 1 .started), .conn .finished, .conn (.stop .user .stopped),
      .invoke ⟨false, "hub", "method", .array []⟩ .sent], .disconnected, some 1, 1, true, true) rfl
  simp only [Prod.mk.injEq, List.cons.injEq, and_true] at hf
  obtain ⟨⟨h0, h1, h2, h3, h4⟩, hc, hd, hse, hreg, htask⟩ := hf
  rcases hall s 3 hr ⟨h3, hc, by rw [hd, hse]⟩ 4 hreg with h | h | ⟨u, h⟩
  · exact h (by simpa using htask)
  · rw [h4] at h
    cases h
  · rcases Nat.lt_or_ge u 5 with h5 | h5
    · interval_cases u
      · rw [h0] at h; exact h
      · rw [h1] at h; exact h
      · rw [h2] at h; exact h
      · rw [h3] at h; exact h
      · rw [h4] at h; exact h
    · rw [hidle u h5] at h
      exact h

end SignalRClient.Hub
