import SignalRClient.Hub.Progress
import SignalRClient.Threads.Project

/-!
# The life time of a hub connection

A `hub_connection_impl` is held by shared pointers: the one in the user's `hub_connection`, and one in every call
that has locked a weak pointer to it (the callbacks of the connection, the hub proxies, the continuation of
`send()`) or is made through the `hub_connection`.  Whoever lets go of the last one runs the destructor, in which
`~callback_manager` clears the table.  The connection may go on for a while.

* `reach_hub` — as long as there is a shared pointer, the run is one of the hub connection;
* `reachable_connection` — every run is one of the connection, to its end;
* `progress_in_time` — after the task of an invocation is completed its `on_progress` is not called, in every run
  whose steps are `Prompt`.  The destructor needs no such condition.
-/

namespace SignalRClient.Hub.Lifetime

open Threads

structure Mem where
  hub : Hub.Mem := {}
  refs : ℕ := 1               -- shared pointers to the hub connection
  owned : Bool := true        -- the user's hub_connection has one of them

inductive Pc where
  | hub (p : Hub.Pc)
  /-- the continuation of a failed `send()`, about to lock its weak pointer -/
  | lock (c : Call) (id : String)
  /-- about to let go of a shared pointer, and to go on from `p` -/
  | release (p : Hub.Pc)
  /-- in `~callback_manager`: before it has the lock, then with the callbacks it has still to call -/
  | destroy (p : Hub.Pc) (rest : Option (List (Sigma fun _ : String => Callback)))

inductive Input where
  | hub (i : Hub.Input)
  /-- the user's `hub_connection` is destroyed -/
  | drop

/-! ## Steps -/

/-- The thread has a shared pointer. -/
def holding : Hub.Pc → Bool
  | .invoke _ q => match q with
    | .getId | .insert _ | .request _ | .check _ _ _ | .send _ _ | .remove _ => true
    | .sending _ | .failed _ _ | .sent | .rejected | .thrown | .broken => false
  | .message _ _ _ _ | .calling _ _ _ _ _ | .clear _ _ => true
  | .conn _ => false

def Pc.holds : Pc → Bool
  | .hub p => holding p
  | .release _ => true
  | .lock _ _ | .destroy _ _ => false

/-- `m_dtor_clear_arguments` -/
def dtorClearArguments : Json :=
  .object [("E", .string "connection went out of scope before invocation result was received")]

/-- After a step of the hub connection from `p`. -/
def Mem.goto (m : Mem) (p : Hub.Pc) (hub : Hub.Mem) (p' : Hub.Pc) : Mem × Pc :=
  match p with
  | .invoke c (.failed id _) => ({ m with hub }, .lock c id)
  | _ =>
    if holding p then ({ m with hub }, if holding p' then .hub p' else .release p')
    else ({ m with hub, refs := if holding p' then m.refs + 1 else m.refs }, .hub p')

/-- A step of the hub connection. -/
def runStep (t : ℕ) (m : Mem) (p : Hub.Pc) (i : Hub.Input) : Option (Mem × Pc) :=
  (Hub.next t m.hub p i).map fun r => m.goto p r.1 r.2

def runHub (t : ℕ) (m : Mem) (p : Hub.Pc) (i : Hub.Input) : Option (Mem × Pc) :=
  match p, i with
  | .conn .idle, .conn (.call .start) | .conn .idle, .conn (.call .stop) => if m.owned then runStep t m p i else none
  -- a hub proxy
  | .conn .idle, .invoke _ => if m.refs = 0 then none else runStep t m p i
  -- the callbacks that `initialize` and `set_reconnecting` have set do nothing without the hub connection
  | .conn (.error n k c .callback), _ =>
    if m.refs = 0 then some (m, .hub (.conn (.error n k c .relock))) else runStep t m p i
  | .conn (.process n k (.receive _ :: es)), _ =>
    if m.refs = 0 then some (m, .hub (.conn (.process n k es))) else runStep t m p i
  | _, _ => runStep t m p i

def runDestroy (t : ℕ) (m : Mem) (p : Hub.Pc) (i : Input) :
    Option (List (Sigma fun _ : String => Callback)) → Option (Mem × Pc)
  | none =>
    if m.hub.callbackManager.mapLock.isSome then none
    else some ({ m with hub := { m.hub with callbackManager := m.hub.callbackManager.lock t } },
      .destroy p (some m.hub.callbackManager.callbacks.entries))
  | some [] => some ({ m with hub := { m.hub with callbackManager := m.hub.callbackManager.clear } }, .hub p)
  | some (e :: rest) =>
    match i with
    | .hub (.pick j) => ((e :: rest)[j]?).map fun x =>
        ({ m with hub := m.hub.callback x.2 dtorClearArguments }, .destroy p (some ((e :: rest).eraseIdx j)))
    | _ => none

/-- One step of thread `t`. -/
def next (t : ℕ) (m : Mem) (p : Pc) (i : Input) : Option (Mem × Pc) :=
  if m.hub.connection.crashed then none
  else match p, i with
    | .hub (.conn .idle), .drop =>
      if m.owned then some ({ m with owned := false }, .release (.conn .idle)) else none
    | .hub p, .hub i => runHub t m p i
    | .hub _, .drop => none
    | .lock c id, _ =>
      if m.refs = 0 then some (m, .hub (.invoke c .rejected))
      else some ({ m with refs := m.refs + 1 }, .hub (.invoke c (.remove id)))
    | .release p, _ => some ({ m with refs := m.refs - 1 }, if m.refs = 1 then .destroy p none else .hub p)
    | .destroy p rest, i => runDestroy t m p i rest

/-- **The program of a hub connection that can be destroyed.** -/
def prog : Program Mem Pc Input := ⟨{}, .hub (.conn .idle), next⟩

/-! ## What a step does -/

/-- The steps of thread `t` on `m`. -/
inductive Moves (t : ℕ) (m : Mem) : Pc → Input → Mem → Pc → Prop where
  | drop : m.owned = true → Moves t m (.hub (.conn .idle)) .drop { m with owned := false } (.release (.conn .idle))
  | keep {p p' : Hub.Pc} {i : Hub.Input} {hub : Hub.Mem} : Hub.next t m.hub p i = some (hub, p') →
      holding p' = holding p → Moves t m (.hub p) (.hub i) { m with hub } (.hub p')
  | acquire {p p' : Hub.Pc} {i : Hub.Input} {hub : Hub.Mem} : Hub.next t m.hub p i = some (hub, p') →
      holding p = false → holding p' = true → m.owned = true ∨ m.refs ≠ 0 →
      Moves t m (.hub p) (.hub i) { m with hub, refs := m.refs + 1 } (.hub p')
  | leave {p p' : Hub.Pc} {i : Hub.Input} {hub : Hub.Mem} : Hub.next t m.hub p i = some (hub, p') →
      holding p = true → holding p' = false → Moves t m (.hub p) (.hub i) { m with hub } (.release p')
  | fail {c : Call} {id : String} {e : SendError} {i : Hub.Input} {hub : Hub.Mem} :
      Hub.next t m.hub (.invoke c (.failed id e)) i = some (hub, .invoke c (.remove id)) →
      Moves t m (.hub (.invoke c (.failed id e))) (.hub i) { m with hub } (.lock c id)
  | expired {q q' : Connection.Pc} (i : Hub.Input) : m.refs = 0 →
      Connection.next t m.hub.connection q (.task .ok) = some (m.hub.connection, q') →
      Moves t m (.hub (.conn q)) (.hub i) m (.hub (.conn q'))
  | lockFails (c : Call) (id : String) (i : Input) : m.refs = 0 →
      Moves t m (.lock c id) i m (.hub (.invoke c .rejected))
  | lock (c : Call) (id : String) (i : Input) : m.refs ≠ 0 →
      Moves t m (.lock c id) i { m with refs := m.refs + 1 } (.hub (.invoke c (.remove id)))
  | release (p : Hub.Pc) (i : Input) : m.refs ≠ 1 →
      Moves t m (.release p) i { m with refs := m.refs - 1 } (.hub p)
  | last (p : Hub.Pc) (i : Input) : m.refs = 1 → Moves t m (.release p) i { m with refs := 0 } (.destroy p none)
  | destroyLock (p : Hub.Pc) (i : Input) : m.hub.callbackManager.mapLock = none →
      Moves t m (.destroy p none) i
        { m with hub := { m.hub with callbackManager := m.hub.callbackManager.lock t } }
        (.destroy p (some m.hub.callbackManager.callbacks.entries))
  | destroyPick (p : Hub.Pc) (rest : List (Sigma fun _ : String => Callback)) (j : ℕ)
      (e : Sigma fun _ : String => Callback) : rest[j]? = some e →
      Moves t m (.destroy p (some rest)) (.hub (.pick j)) { m with hub := m.hub.callback e.2 dtorClearArguments }
        (.destroy p (some (rest.eraseIdx j)))
  | destroyed (p : Hub.Pc) (i : Input) : Moves t m (.destroy p (some [])) i
      { m with hub := { m.hub with callbackManager := m.hub.callbackManager.clear } } (.hub p)

section

variable {t : ℕ} {m m' : Mem} {p' : Pc}

/-- What a step of the hub connection becomes; `hreach` says why a shared pointer can be had. -/
theorem runStep_moves {p : Hub.Pc} {i : Hub.Input} (h : runStep t m p i = some (m', p'))
    (hreach : ∀ hub q, Hub.next t m.hub p i = some (hub, q) → holding p = false → holding q = true →
      (∀ c id e, p ≠ .invoke c (.failed id e)) → m.owned = true ∨ m.refs ≠ 0) :
    Moves t m (.hub p) (.hub i) m' p' := by
  obtain ⟨⟨hub, q⟩, hn, hr⟩ := Option.map_eq_some_iff.mp h
  unfold Mem.goto at hr
  split at hr
  · rename_i c id e
    have hq : q = .invoke c (.remove id) := by
      have hmoves := next_moves hn
      cases hmoves
      rfl
    subst hq
    injection hr with hm hp
    rw [← hm, ← hp]
    exact .fail hn
  · rename_i hne
    cases hold : holding p with
    | true =>
      rw [hold, if_pos rfl] at hr
      injection hr with hm hp
      cases hnew : holding q with
      | true =>
        rw [hnew, if_pos rfl] at hp
        rw [← hm, ← hp]
        exact .keep hn (hnew.trans hold.symm)
      | false =>
        rw [hnew, if_neg Bool.false_ne_true] at hp
        rw [← hm, ← hp]
        exact .leave hn hold hnew
    | false =>
      rw [hold, if_neg Bool.false_ne_true] at hr
      injection hr with hm hp
      rw [← hm, ← hp]
      cases hnew : holding q with
      | true => exact .acquire hn hold hnew (hreach hub q hn hold hnew fun c id e he => hne c id e he)
      | false => exact .keep hn (hnew.trans hold.symm)

theorem runHub_moves {p : Hub.Pc} {i : Hub.Input} (hcrash : m.hub.connection.crashed = false)
    (h : runHub t m p i = some (m', p')) : Moves t m (.hub p) (.hub i) m' p' := by
  unfold runHub at h
  split at h
  · split at h
    · rename_i howned
      exact runStep_moves h fun _ _ _ _ _ _ => .inl howned
    · cases h
  · split at h
    · rename_i howned
      exact runStep_moves h fun _ _ _ _ _ _ => .inl howned
    · cases h
  · split at h
    · cases h
    · rename_i hrefs
      exact runStep_moves h fun _ _ _ _ _ _ => .inr hrefs
  · split at h
    · rename_i hrefs
      injection h with h
      injection h with hm hp
      rw [← hm, ← hp]
      refine .expired i hrefs ?_
      unfold Connection.next
      rw [hcrash]
      rfl
    · rename_i hrefs
      exact runStep_moves h fun _ _ _ _ _ _ => .inr hrefs
  · split at h
    · rename_i hrefs
      injection h with h
      injection h with hm hp
      rw [← hm, ← hp]
      refine .expired i hrefs ?_
      unfold Connection.next
      rw [hcrash]
      rfl
    · rename_i hrefs
      exact runStep_moves h fun _ _ _ _ _ _ => .inr hrefs
  · -- no other step gets hold of the hub connection
    rename_i herror hprocess hstart hstop hinvoke
    refine runStep_moves h fun hub q hn hold hnew hne => ?_
    have hmoves := next_moves hn
    cases hmoves with
    | invoke c => exact (hinvoke c rfl rfl).elim
    | stop => exact (hstop rfl rfl).elim
    | lost n k c => exact (herror n k c rfl).elim
    | receive n k message es => exact (hprocess n k message es rfl).elim
    | fail c id e => exact (hne c id e rfl).elim
    | connection => cases hnew
    | sent | fault | faultOther | discard | call | clearedStop | clearedLost | remove | sendThrows | send => cases hnew
    | _ => cases hold

theorem runDestroy_moves {p : Hub.Pc} {i : Input} {rest : Option (List (Sigma fun _ : String => Callback))}
    (h : runDestroy t m p i rest = some (m', p')) : Moves t m (.destroy p rest) i m' p' := by
  have of_eq : ∀ {r : Mem × Pc}, some r = some (m', p') → Moves t m (.destroy p rest) i r.1 r.2 →
      Moves t m (.destroy p rest) i m' p' := by
    intro r hr hmoves
    injection hr with hr
    rw [hr] at hmoves
    exact hmoves
  match rest, h with
  | none, h =>
    simp only [runDestroy] at h
    split at h
    · cases h
    · rename_i hl
      exact of_eq h (.destroyLock p i (by simpa using hl))
  | some [], h => exact of_eq h (.destroyed p i)
  | some (e :: rest), h =>
    simp only [runDestroy] at h
    split at h
    · rename_i j _
      obtain ⟨x, hx, hr⟩ := Option.map_eq_some_iff.mp h
      exact of_eq (congrArg some hr) (.destroyPick p (e :: rest) j x hx)
    · cases h

theorem crashed_of_next {p : Pc} {i : Input} (h : next t m p i = some (m', p')) :
    m.hub.connection.crashed = false := by
  unfold next at h
  split at h
  · cases h
  · rename_i hc
    simpa using hc

/-- **What a step does.** -/
theorem moves_of_next {p : Pc} {i : Input} (h : next t m p i = some (m', p')) : Moves t m p i m' p' := by
  have hcrash := crashed_of_next h
  unfold next at h
  rw [hcrash, if_neg Bool.false_ne_true] at h
  split at h
  · split at h
    · rename_i howned
      injection h with h
      injection h with hm hp
      rw [← hm, ← hp]
      exact .drop howned
    · cases h
  · exact runHub_moves hcrash h
  · cases h
  · split at h
    · rename_i hrefs
      injection h with h
      injection h with hm hp
      rw [← hm, ← hp]
      exact .lockFails _ _ _ hrefs
    · rename_i hrefs
      injection h with h
      injection h with hm hp
      rw [← hm, ← hp]
      exact .lock _ _ _ hrefs
  · injection h with h
    injection h with hm hp
    split at hp
    · rename_i hrefs
      rw [← hm, ← hp, hrefs]
      exact .last _ _ hrefs
    · rename_i hrefs
      rw [← hm, ← hp]
      exact .release _ _ hrefs
  · exact runDestroy_moves h

end

/-! ## The shared pointers -/

/-- The shared pointers are accounted for, and the destructor runs when there are none. -/
structure Accounted (s : State Mem Pc) : Prop where
  count : ∃ S : Finset ℕ, (∀ t, t ∈ S ↔ (s.pc t).holds = true) ∧ s.mem.refs = S.card + s.mem.owned.toNat
  released : ∀ t p, s.pc t = .release p → holding p = false
  destroyed : ∀ t p rest, s.pc t = .destroy p rest → holding p = false ∧ s.mem.refs = 0

theorem Accounted.refs_ne {s : State Mem Pc} (h : Accounted s) {t : ℕ} (ht : (s.pc t).holds = true) :
    s.mem.refs ≠ 0 := by
  obtain ⟨S, hS, hcard⟩ := h.count
  have hpos : 0 < S.card := Finset.card_pos.mpr ⟨t, (hS t).mpr ht⟩
  omega

theorem Accounted.owned_eq {s : State Mem Pc} (h : Accounted s) (hrefs : s.mem.refs = 0) : s.mem.owned = false := by
  obtain ⟨S, -, hcard⟩ := h.count
  cases ho : s.mem.owned with
  | false => rfl
  | true =>
    rw [ho, Bool.toNat_true] at hcard
    omega

section

variable {t : ℕ} {m m' : Mem} {p p' : Pc} {i : Input}

theorem refs_of_moves (h : Moves t m p i m' p') (hrefs : p.holds = true → m.refs ≠ 0)
    (hreleased : ∀ q, p = .release q → holding q = false)
    (hdestroyed : ∀ q rest, p = .destroy q rest → holding q = false) :
    m'.refs + (p.holds.toNat + m.owned.toNat) = m.refs + (p'.holds.toNat + m'.owned.toNat) := by
  cases h with
  | drop ho =>
    show m.refs + (0 + m.owned.toNat) = m.refs + (1 + 0)
    rw [ho]
    rfl
  | keep hn he =>
    show m.refs + ((holding _).toNat + _) = m.refs + ((holding _).toNat + _)
    rw [he]
  | acquire hn hold hnew =>
    show m.refs + 1 + ((holding _).toNat + m.owned.toNat) = m.refs + ((holding _).toNat + m.owned.toNat)
    rw [hold, hnew, Bool.toNat_true, Bool.toNat_false]
    omega
  | leave hn hold hnew =>
    show m.refs + ((holding _).toNat + _) = m.refs + (1 + _)
    rw [hold, Bool.toNat_true]
  | fail => rfl
  | expired => rfl
  | lockFails => rfl
  | lock c id =>
    show m.refs + 1 + (0 + m.owned.toNat) = m.refs + (1 + m.owned.toNat)
    omega
  | release q i hne =>
    have hpos := hrefs rfl
    show m.refs - 1 + (1 + m.owned.toNat) = m.refs + ((holding q).toNat + m.owned.toNat)
    rw [hreleased q rfl, Bool.toNat_false]
    omega
  | last q i he =>
    show 0 + (1 + m.owned.toNat) = m.refs + (0 + m.owned.toNat)
    rw [he]
    omega
  | destroyLock => rfl
  | destroyPick => rfl
  | destroyed q =>
    show m.refs + (0 + _) = m.refs + ((holding q).toNat + _)
    rw [hdestroyed q _ rfl]
    rfl

/-- Without a shared pointer there will never be one again. -/
theorem refs_eq_of_moves (h : Moves t m p i m' p') (hrefs : m.refs = 0) (ho : m.owned = false) : m'.refs = 0 := by
  cases h with
  | acquire hn hold hnew hr =>
    rcases hr with hr | hr
    · rw [ho] at hr
      cases hr
    · exact absurd hrefs hr
  | lock c id i hr => exact absurd hrefs hr
  | release q i hne =>
    show m.refs - 1 = 0
    omega
  | last => rfl
  | _ => exact hrefs

end

theorem accounted_holds {ok : State Mem Pc → Act Input → Prop} {s : State Mem Pc} (h : prog.Reach ok s) :
    Accounted s := by
  refine h.invariant (J := Accounted) ?_ fun s a m p _ _ hi hn => ?_
  · refine ⟨⟨∅, fun t => by simp [Program.init, prog, Pc.holds, holding], rfl⟩, fun t p hp => ?_, fun t p rest hp => ?_⟩
    · cases hp
    · cases hp
  · have hmoves := moves_of_next hn
    refine ⟨?_, fun u q hq => ?_, fun u q rest hq => ?_⟩
    · obtain ⟨S, hS, hcard⟩ := hi.count
      obtain ⟨S', hS', hcard'⟩ := Program.exists_card_set Pc.holds hS a.thread m p
      refine ⟨S', hS', ?_⟩
      have hrefs := refs_of_moves hmoves (fun hp => hi.refs_ne hp) (fun q => hi.released a.thread q)
        fun q rest hq => (hi.destroyed a.thread q rest hq).1
      rw [State.set_mem]
      omega
    · by_cases hu : u = a.thread
      · subst hu
        rw [State.set_pc_self] at hq
        subst hq
        generalize s.pc a.thread = r at hmoves
        generalize a.input = i at hmoves
        cases hmoves with
        | drop => rfl
        | leave hn hold hnew => exact hnew
      · rw [State.set_pc_of_ne _ _ _ _ hu] at hq
        exact hi.released u q hq
    · by_cases hu : u = a.thread
      · subst hu
        rw [State.set_pc_self] at hq
        subst hq
        generalize hr : s.pc a.thread = r at hmoves
        generalize a.input = i at hmoves
        cases hmoves with
        | last _ _ he => exact ⟨hi.released _ q hr, rfl⟩
        | destroyLock => exact hi.destroyed _ q _ hr
        | destroyPick => exact hi.destroyed _ q _ hr
      · rw [State.set_pc_of_ne _ _ _ _ hu] at hq
        obtain ⟨hq', hrefs⟩ := hi.destroyed u q rest hq
        exact ⟨hq', refs_eq_of_moves hmoves hrefs (hi.owned_eq hrefs)⟩

/-! ## The hub connection in it, and the connection -/

/-- Where a thread is in the hub connection. -/
def Pc.toHub : Pc → Hub.Pc
  | .hub p | .release p | .destroy p _ => p
  | .lock c id => .invoke c (.remove id)

def toHub (s : State Mem Pc) : State Hub.Mem Hub.Pc := s.project Mem.hub Pc.toHub

/-- A step is one of the hub connection, or the hub connection does not see it, or it is destroyed. -/
theorem toHub_of_next {t : ℕ} {m m' : Mem} {p p' : Pc} {i : Input} (h : Moves t m p i m' p') (hrefs : m.refs ≠ 0)
    (hdestroyed : ∀ q rest, p ≠ .destroy q rest) :
    (m'.hub = m.hub ∧ p'.toHub = p.toHub) ∨
      ∃ q j, p = .hub q ∧ i = .hub j ∧ Hub.next t m.hub q j = some (m'.hub, p'.toHub) := by
  cases h with
  | keep hn => exact .inr ⟨_, _, rfl, rfl, hn⟩
  | acquire hn => exact .inr ⟨_, _, rfl, rfl, hn⟩
  | leave hn => exact .inr ⟨_, _, rfl, rfl, hn⟩
  | fail hn => exact .inr ⟨_, _, rfl, rfl, hn⟩
  | expired i he => exact absurd he hrefs
  | lockFails c id i he => exact absurd he hrefs
  | destroyLock q => exact absurd rfl (hdestroyed q _)
  | destroyPick q => exact absurd rfl (hdestroyed q _)
  | destroyed q => exact absurd rfl (hdestroyed q _)
  | _ => exact .inl ⟨rfl, rfl⟩

/-- The steps of the hub connection meet the condition. -/
def HubOk (ok : State Hub.Mem Hub.Pc → Act Hub.Input → Prop) (s : State Mem Pc) (a : Act Input) : Prop :=
  ∀ p i, s.pc a.thread = .hub p → a.input = .hub i → ok (toHub s) ⟨a.thread, i⟩

/-- **As long as there is a shared pointer, the run is one of the hub connection.** -/
theorem reach_hub {ok : State Hub.Mem Hub.Pc → Act Hub.Input → Prop} {s : State Mem Pc}
    (h : prog.Reach (HubOk ok) s) (hrefs : s.mem.refs ≠ 0) : Hub.prog.Reach ok (toHub s) := by
  have halive : prog.Reach (fun s a => HubOk ok s a ∧ s.mem.refs ≠ 0) s := by
    revert hrefs
    refine h.invariant (J := fun s => s.mem.refs ≠ 0 → prog.Reach (fun s a => HubOk ok s a ∧ s.mem.refs ≠ 0) s)
      (fun _ => .init) fun s a m p hr ha ih hn hrefs => ?_
    have hbefore : s.mem.refs ≠ 0 := fun he =>
      hrefs (refs_eq_of_moves (moves_of_next hn) he ((accounted_holds hr).owned_eq he))
    exact (ih hbefore).step ⟨ha, hbefore⟩ (Program.step_eq_some.mpr ⟨m, p, hn, rfl⟩)
  refine halive.project rfl rfl fun s a m p hr ha hn => ?_
  have hdestroyed : ∀ q rest, s.pc a.thread ≠ .destroy q rest :=
    fun q rest hp => ha.2 ((accounted_holds hr).destroyed a.thread q rest hp).2
  rcases toHub_of_next (moves_of_next hn) ha.2 hdestroyed with hsame | ⟨q, j, hp, hi, hj⟩
  · exact .inl hsame
  · refine .inr ⟨j, ha.1 q j hp hi, ?_⟩
    rw [hp]
    exact hj

/-- **Every run is one of the connection**, with or without the hub connection. -/
theorem reachable_connection {s : State Mem Pc} (h : prog.Reachable s) :
    Connection.prog.Reachable (s.project (fun m => m.hub.connection) fun p => p.toHub.toConnection) := by
  refine h.project rfl rfl fun s a m p hr _ hn => ?_
  have hhub : ∀ q j, s.pc a.thread = .hub q → Hub.next a.thread s.mem.hub q j = some (m.hub, p.toHub) →
      (m.hub.connection = s.mem.hub.connection ∧ p.toHub.toConnection = (s.pc a.thread).toHub.toConnection) ∨
        ∃ j, True ∧ Connection.next a.thread s.mem.hub.connection (s.pc a.thread).toHub.toConnection j =
          some (m.hub.connection, p.toHub.toConnection) := by
    intro q j hp hj
    rw [hp]
    rcases next_toConnection hj with hsame | ⟨j', hj'⟩
    · exact .inl hsame
    · exact .inr ⟨j', trivial, hj'⟩
  have hmoves := moves_of_next hn
  generalize hp : s.pc a.thread = r at hmoves hhub
  generalize a.input = i at hmoves
  cases hmoves with
  | keep hn' => exact hhub _ _ rfl hn'
  | acquire hn' => exact hhub _ _ rfl hn'
  | leave hn' => exact hhub _ _ rfl hn'
  | fail hn' => exact hhub _ _ rfl hn'
  | expired i he hc => exact .inr ⟨.task .ok, trivial, hc⟩
  | destroyPick q rest j e =>
    refine .inl ⟨?_, rfl⟩
    exact callback_connection ..
  | _ => exact .inl ⟨rfl, rfl⟩

/-! ## What is seen of the invocations -/

inductive Event where
  | progress (u : ℕ)        -- the on_progress of the invocation of thread u is called
  | completed (u : ℕ)       -- its task is completed
  deriving DecidableEq

/-- The invocation whose task the step of thread `t` completes. -/
def completes (t : ℕ) : Pc → Input → Option ℕ
  | .hub p, .hub i => Hub.completes t p i
  | .destroy _ (some rest), .hub (.pick j) => (rest[j]?).map fun e => e.2.invocation
  | _, _ => none

def progressEvents : Pc → List Event
  | .hub (.calling _ _ answer _ callback) =>
    if (progressData? answer).isSome then [.progress callback.invocation] else []
  | _ => []

/-- A task is completed once. -/
def completionEvents (m : Mem) : Option ℕ → List Event
  | some u => if (m.hub.task u).isSome then [] else [.completed u]
  | none => []

/-- What a step shows. -/
def events (t : ℕ) (m : Mem) (p : Pc) (i : Input) (_ : Mem) (_ : Pc) : List Event :=
  progressEvents p ++ completionEvents m (completes t p i)

section

variable {t : ℕ} {m m' : Mem} {p p' : Pc} {i : Input}

theorem completed_mem_events {u : ℕ} :
    .completed u ∈ events t m p i m' p' ↔ completes t p i = some u ∧ m.hub.task u = none := by
  have hprogress : .completed u ∉ progressEvents p := by
    unfold progressEvents
    split
    · split <;> simp
    · simp
  unfold events
  rw [List.mem_append, or_iff_right hprogress]
  cases hc : completes t p i with
  | none => simp [completionEvents]
  | some v =>
    simp only [completionEvents]
    split
    · rename_i hv
      simp only [List.not_mem_nil, Option.some.injEq, false_iff, not_and]
      rintro rfl hnone
      rw [hnone] at hv
      cases hv
    · rename_i hv
      have hnone : m.hub.task v = none := by simpa using hv
      simp only [List.mem_singleton, Event.completed.injEq, Option.some.injEq]
      exact ⟨fun he => ⟨he.symm, he ▸ hnone⟩, fun he => he.1.symm⟩

/-- A step that calls an `on_progress` shows nothing else. -/
theorem of_progress {u : ℕ} {o₁ o₂ : List Event} (h : events t m p i m' p' = o₁ ++ .progress u :: o₂) :
    o₁ = [] ∧ ∃ q, p = .hub q ∧ q.Reports u := by
  have hcompletion : .progress u ∉ completionEvents m (completes t p i) := by
    unfold completionEvents
    split
    · split <;> simp
    · simp
  have hmem : .progress u ∈ progressEvents p := by
    have hm : .progress u ∈ events t m p i m' p' := by
      rw [h]
      exact List.mem_append_right _ List.mem_cons_self
    exact (List.mem_append.mp hm).resolve_right hcompletion
  unfold progressEvents at hmem
  split at hmem
  · rename_i n k answer es callback
    split at hmem
    · rename_i hdata
      rw [List.mem_singleton, Event.progress.injEq] at hmem
      have he : progressEvents (.hub (.calling n k answer es callback)) = [.progress callback.invocation] :=
        if_pos hdata
      rw [events, he] at h
      cases o₁ with
      | nil => exact ⟨rfl, _, rfl, hmem.symm, hdata⟩
      | cons e o₁ =>
        -- the completions behind it would hold the event
        have htail : completionEvents m _ = o₁ ++ .progress u :: o₂ := (List.cons.inj h).2
        refine absurd ?_ hcompletion
        rw [htail]
        exact List.mem_append_right _ List.mem_cons_self
    · cases hmem
  · cases hmem

theorem answers_dtorClearArguments : Answers dtorClearArguments := .inr rfl

theorem task_of_hub {q q' : Hub.Pc} {j : Hub.Input} {hub : Hub.Mem} (h : Hub.next t m.hub q j = some (hub, q')) {u : ℕ} :
    hub.task u ≠ none ↔ m.hub.task u ≠ none ∨ Hub.completes t q j = some u := by
  have hmoves := next_moves h
  refine ⟨fun hu => ?_, fun hu => ?_⟩
  · by_cases hold : m.hub.task u = none
    · exact .inr (completes_of_moves hmoves (by rw [hold]; exact hu))
    · exact .inl hold
  · rcases hu with hu | hu
    · exact task_ne_of_moves hmoves hu
    · exact task_of_completes hmoves hu

/-- **The completions that are seen are those of the tasks.** -/
theorem task_of_moves (h : Moves t m p i m' p') {u : ℕ} :
    m'.hub.task u ≠ none ↔ m.hub.task u ≠ none ∨ completes t p i = some u := by
  cases h with
  | keep hn => exact task_of_hub hn
  | acquire hn => exact task_of_hub hn
  | leave hn => exact task_of_hub hn
  | fail hn => exact task_of_hub hn
  | destroyPick q rest j e he =>
    have hc : completes t (.destroy q (some rest)) (.hub (.pick j)) = some e.2.invocation := by
      show (rest[j]?).map _ = _
      rw [he]
      rfl
    rw [hc]
    refine ⟨fun hu => ?_, fun hu => ?_⟩
    · by_cases heu : e.2.invocation = u
      · rw [heu]
        exact .inr rfl
      · refine .inl ?_
        have htask : (m.hub.callback e.2 dtorClearArguments).task u = m.hub.task u := by
          rw [callback_task]
          split
          · exact Function.update_of_ne (Ne.symm heu) ..
          · rfl
        rwa [← htask]
    · show (m.hub.callback e.2 dtorClearArguments).task u ≠ none
      rcases hu with hu | hu
      · exact callback_task_ne hu
      · injection hu with hu
        rw [← hu]
        exact callback_task_self answers_dtorClearArguments
  | destroyed q i =>
    have hnone : completes t (.destroy q (some [])) i = none := by
      cases i with
      | drop => rfl
      | hub j => cases j <;> rfl
    rw [hnone]
    exact ⟨.inl, fun hu => hu.resolve_right fun hc => by cases hc⟩
  | _ => exact ⟨.inl, fun hu => hu.resolve_right fun hc => by cases hc⟩

end

section

variable {ok : State Mem Pc → Act Input → Prop} {s : State Mem Pc} {l : List Event}

theorem completed_iff (h : prog.Trace ok events s l) {u : ℕ} : .completed u ∈ l ↔ s.mem.hub.task u ≠ none := by
  refine h.invariant (J := fun s l => .completed u ∈ l ↔ s.mem.hub.task u ≠ none) ?_ fun s a l m p _ _ ih hn => ?_
  · simp [Program.init, prog]
  · rw [List.mem_append, completed_mem_events, ih, State.set_mem, task_of_moves (moves_of_next hn)]
    by_cases hold : s.mem.hub.task u = none
    · simp [hold]
    · simp [hold]

end

/-! ## The result -/

/-- The steps of the hub connection are prompt.  Nothing is asked of its destructor. -/
abbrev Prompt : State Mem Pc → Act Input → Prop := HubOk Hub.Prompt

/-- No `on_progress` is called after the task of its invocation has been completed. -/
def InTime (l : List Event) : Prop := ∀ u l₁ l₂, l = l₁ ++ .progress u :: l₂ → .completed u ∉ l₁

/-- **No progress after completion.** -/
theorem progress_in_time {s : State Mem Pc} {l : List Event} (h : prog.Trace Prompt events s l) : InTime l := by
  intro u l₁ l₂ hl hcompleted
  obtain ⟨s₀, a, m, p, o₁, o₂, l₀, h₀, -, hn, hobs, hl₀⟩ := h.exists_step hl
  obtain ⟨rfl, q, hq, hreports⟩ := of_progress hobs
  rw [hl₀, List.append_nil, completed_iff h₀] at hcompleted
  -- whoever calls it has a shared pointer
  have hholds : (s₀.pc a.thread).holds = true := by
    rw [hq]
    cases q with
    | calling => rfl
    | _ => cases hreports
  have hhub := reach_hub h₀.reach ((accounted_holds h₀.reach).refs_ne hholds)
  have hpc : (toHub s₀).pc a.thread = q := by
    show (s₀.pc a.thread).toHub = q
    rw [hq]
    rfl
  exact hcompleted (open_of_reports hhub (t := a.thread) (by rw [hpc]; exact hreports))

/-! ## Runs -/

/-- A step of a schedule of the hub connection. -/
def lift (a : Act Hub.Input) : Act Input := ⟨a.thread, .hub a.input⟩

/-- A progress message for the invocation with the id 0. -/
def sampleProgress : Json := .object [("I", .string "0"), ("P", .object [("I", .string "0"), ("D", .integer 1)])]

/-- An invocation (thread 3) is sent, and thread 4 has looked its callback up for a progress message. -/
def progressing : List (Act Input) :=
  (started ++ [invoking 3] ++ tasks 3 7 ++ [Hub.lift (Connection.call 4 (.message 1 (some sampleProgress)))] ++
    tasks 4 3).map lift

/-- Thread 5 destroys the `hub_connection`, so that thread 4 has the last shared pointer. -/
def dropping : List (Act Input) :=
  [⟨5, .drop⟩] ++ (tasks 5 1 ++ tasks 4 3 ++ [(⟨4, .pick 0⟩ : Act Hub.Input)] ++ tasks 4 1).map lift

/-- Thread 5 calls `stop()` and clears the table before thread 4 goes on. -/
def stopping : List (Act Input) :=
  ([Hub.lift (Connection.call 5 .stop)] ++ tasks 5 1 ++ [(⟨5, .pick 0⟩ : Act Hub.Input)] ++ tasks 4 1).map lift

/-- The hub connection completes no task, and no message with a field `P` brings a result or finds a callback that is
about to be removed. -/
def prompt : Test Prompt where
  test s a :=
    match s.pc a.thread, a.input with
    | .hub p, .hub i => (Hub.completes a.thread p i).isNone &&
      match p with
      | .message _ _ answer _ => !answer.hasField "R" &&
        match (callbackId? answer).bind s.mem.hub.callbackManager.find with
        | some callback => !(match (s.pc callback.invocation).toHub with
          | .invoke _ (.remove _) => true
          | _ => false)
        | none => true
      | _ => true
    | _, _ => true
  sound {s a} h := by
    intro p i hp hi
    have hpc : (toHub s).pc a.thread = p := by
      show (s.pc a.thread).toHub = p
      rw [hp]
      rfl
    rw [hp, hi] at h
    obtain ⟨hcompletes, hlookup⟩ := (Bool.and_eq_true _ _).mp h
    refine ⟨fun u hu => ?_, fun n k answer es id callback hm hP hid hf => ?_⟩
    · rw [hpc] at hu
      rw [hu] at hcompletes
      cases hcompletes
    · rw [hpc] at hm
      subst hm
      obtain ⟨hR, hfound⟩ := (Bool.and_eq_true _ _).mp hlookup
      refine ⟨by simpa using hR, fun c id' hremove => ?_⟩
      have hfind : (callbackId? answer).bind s.mem.hub.callbackManager.find = some callback := by
        rw [hid]
        exact hf
      have hremove' : (s.pc callback.invocation).toHub = .invoke c (.remove id') := hremove
      rw [hfind] at hfound
      simp only [hremove'] at hfound
      cases hfound

theorem progress_in_time_destroyed : InTime [.progress 3, .completed 3] := by
  obtain ⟨s, l, h, hl⟩ := prog.exists_of_history events prompt (progressing ++ dropping) (fun s l => (l, s.mem.refs))
    ([.progress 3, .completed 3], 0) rfl
  simp only [Prod.mk.injEq] at hl
  obtain ⟨rfl, -⟩ := hl
  exact progress_in_time h

/-- A `stop()` between the lookup and the call. -/
theorem stop_overtakes_progress : ¬ ∀ s l, prog.Trace (fun _ _ => True) events s l → InTime l := by
  intro hall
  obtain ⟨s, l, h, rfl⟩ := prog.exists_of_history events Test.all
    (progressing ++ stopping) (fun _ l => l) [.completed 3, .progress 3] rfl
  refine hall s _ h 3 [.completed 3] [] rfl ?_
  exact List.mem_cons_self

end SignalRClient.Hub.Lifetime
