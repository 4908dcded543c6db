import SignalRClient.Hub.Stop
import SignalRClient.Threads.Trace

/-!
# What the loss of the connection leaves in the callback table

`reconnect()` changes the state first and clears the table afterwards, and an invocation registers its callback
first and looks at the state afterwards.  So whoever has got through the check before the loss is in the table
that is cleared, and whoever registers later does not get through before the connection is back
(`loss_settles`).

This rests on the ids being different: a callback whose id is in the table already is not registered at all
(`wrapped_waits`).
-/

namespace SignalRClient.Hub

open Threads

/-! ## The invocations of a run -/

/-- The callback of the invocation may be in the table. -/
def Pc.tracked : Pc → Bool
  | .invoke _ q => match q with
    | .getId | .insert _ | .rejected => false
    | _ => true
  | _ => false

/-- The invocation has registered its callback. -/
def Pc.entered : Pc → Bool
  | .invoke _ q => match q with
    | .getId | .insert _ => false
    | _ => true
  | _ => false

section

variable {t : ℕ} {m m' : Mem} {p p' : Pc} {i : Input}

theorem tracked_of_moves (h : Moves t m p i m' p') (hg : m.toTable.Linked) (hl : p.Linked t m.toTable)
    (hw : m.Waits t → p.tracked = true) (hw' : m'.Waits t) : p'.tracked = true := by
  have hwaits : (∃ c id, p = .invoke c (.insert id)) ∨ p.tracked = true := by
    rcases waits_of_moves h hw' with hm | ⟨-, hp⟩
    · exact .inr (hw hm)
    · exact .inl hp
  rcases hwaits with ⟨c, id, rfl⟩ | hp
  · cases h
    rfl
  · cases h with
    | remove c id i hlock =>
      -- the entry under the own id is gone, and the callback has no other
      obtain ⟨id', callback, hf, ht⟩ := hw'
      rw [CallbackManager.erase_find] at hf
      split at hf
      · cases hf
      · rename_i hne
        obtain ⟨v, hv, -, hid⟩ := hl
        obtain ⟨v', hv', hid', -⟩ := hg.entry id' callback hf
        rw [ht, hv] at hv'
        injection hv' with hv'
        rw [← hid', ← hv', hid] at hne
        exact absurd rfl hne
    | getId | insert | connection | invoke | stop | lost | receive | discard | take | call | lock | pick | clearedStop
    | clearedLost => cases hp
    | _ => rfl

/-- With fewer than 2 ^ 32 invocations a callback is registered under an id of its own. -/
theorem entered_of_moves (h : Moves t m p i m' p') (hg : m.toTable.Linked) (hl : p.Linked t m.toTable)
    (hlim : m.issued < 2 ^ 32) (hw : m.Waits t → p.tracked = true)
    (he : p.entered = true → m.registered t = true) (he' : p'.entered = true) : m'.registered t = true := by
  cases h with
  | insert c id i hlock =>
    have hfree : m.callbackManager.find id = none := by
      by_contra hne
      obtain ⟨callback, hf⟩ := Option.ne_none_iff_exists'.mp hne
      obtain ⟨v, hv, -, hid⟩ := hl
      obtain ⟨w, hw', hid', -⟩ := hg.entry id callback hf
      have ht : callback.invocation = t := hg.id_inj hlim hw' hv (hid'.trans hid.symm)
      cases hw ⟨id, callback, hf, ht⟩
    show Function.update m.registered t _ t = true
    rw [Function.update_self, hfree]
    rfl
  | getId | connection | invoke | stop | lost | receive | discard | take | call | lock | pick | clearedStop
  | clearedLost => cases he'
  | _ => exact he rfl

theorem registered_of_moves (h : Moves t m p i m' p') {u : ℕ} (hu : u ≠ t) : m'.registered u = m.registered u := by
  cases h with
  | connection hn hi => rw [afterConnection_toTable]
  | insert c id i hl => exact Function.update_of_ne hu ..
  | call => rw [callback_toTable]
  | pick => rw [callback_toTable]
  | _ => rfl

theorem issued_mono (h : Moves t m p i m' p') : m.issued ≤ m'.issued := by
  rcases issued_of_moves h with e | ⟨e, -⟩ <;> omega

end

/-- An invocation that has taken its callback back is not in the table, however often the ids have come round. -/
theorem tracked_holds {s : State Mem Pc} (h : prog.Reachable s) {u : ℕ} (hu : s.mem.Waits u) :
    (s.pc u).tracked = true := by
  revert u
  refine h.invariant (J := fun s => ∀ {u}, s.mem.Waits u → (s.pc u).tracked = true) ?_ fun s a m p hr _ hi hn u hu => ?_
  · rintro u ⟨id, callback, hf, -⟩
    cases hf
  · obtain ⟨hg, hl⟩ := linked_holds hr
    have hmoves := next_moves hn
    by_cases hut : u = a.thread
    · subst hut
      rw [State.set_pc_self]
      exact tracked_of_moves hmoves hg (hl _) hi hu
    · rw [State.set_pc_of_ne _ _ _ _ hut]
      rcases waits_of_moves hmoves hu with hw | ⟨he, -⟩
      · exact hi hw
      · exact absurd he hut

/-- What holds in every state with fewer than 2 ^ 32 invocations. -/
structure Orderly (s : State Mem Pc) : Prop where
  tracked : ∀ u, s.mem.Waits u → (s.pc u).tracked = true
  entered : ∀ u, (s.pc u).entered = true → s.mem.registered u = true
  completed : ∀ u, (s.pc u).Completed u s.mem
  rejected : ∀ u c, s.pc u = .invoke c .rejected → s.mem.task u ≠ none
  settled : ∀ u, s.mem.registered u = true → Settled s u

theorem orderly_holds {s : State Mem Pc} (h : prog.Reachable s) (hlim : s.mem.issued < 2 ^ 32) : Orderly s := by
  revert hlim
  refine h.invariant (J := fun s => s.mem.issued < 2 ^ 32 → Orderly s) ?_ fun s a m p hr _ ih hn hlim => ?_
  · refine fun _ => ⟨fun u hu => ?_, fun u hu => ?_, fun u => trivial, fun u c hu => ?_, fun u hu => ?_⟩
    · obtain ⟨id, callback, hf, -⟩ := hu
      cases hf
    · cases hu
    · cases hu
    · cases hu
  · obtain ⟨hg, hl⟩ := linked_holds hr
    have hmoves := next_moves hn
    have hlim₀ : s.mem.issued < 2 ^ 32 := (issued_mono hmoves).trans_lt hlim
    have hi := ih hlim₀
    have hframe := (moves_kept hmoves hg (hl a.thread)).frame
    refine ⟨fun u => tracked_holds (hr.step trivial (Program.step_eq_some.mpr ⟨m, p, hn, rfl⟩)), fun u hu => ?_,
      fun u => ?_, fun u c hu => ?_, fun u hu => ?_⟩
    · by_cases hut : u = a.thread
      · subst hut
        rw [State.set_pc_self] at hu
        exact entered_of_moves hmoves hg (hl _) hlim₀ (hi.tracked _) (hi.entered _) hu
      · rw [State.set_pc_of_ne _ _ _ _ hut] at hu
        exact (registered_of_moves hmoves hut).trans (hi.entered u hu)
    · by_cases hut : u = a.thread
      · subst hut
        rw [State.set_pc_self]
        exact completed_of_moves hmoves (hi.completed _)
      · rw [State.set_pc_of_ne _ _ _ _ hut]
        exact (hi.completed u).step hut (hl u) hmoves hframe
    · by_cases hut : u = a.thread
      · subst hut
        rw [State.set_pc_self] at hu
        subst hu
        -- it comes from the removal, behind `set_exception`
        have hdone := hi.completed a.thread
        generalize s.pc a.thread = q at hmoves hdone
        generalize a.input = i at hmoves
        cases hmoves
        exact hdone
      · rw [State.set_pc_of_ne _ _ _ _ hut] at hu
        exact task_ne_of_moves hmoves (hi.rejected u c hu)
    · exact settled_of_moves hmoves hg (hl _) hlim₀ (hi.completed _) hi.settled hu

/-! ## What is seen of a loss -/

inductive Event where
  | registered (t : ℕ)        -- the invocation of thread t registers its callback
  | passed (t : ℕ)            -- … gets through the connected check of send()
  | refused (t : ℕ)           -- … does not
  | taken (t : ℕ)             -- its callback is taken out of the table with an answer
  | lost (t : ℕ)              -- thread t moves the state from connected to reconnecting
  | cleared (t : ℕ)           -- its clear of the table has returned
  | connected                 -- the state becomes connected
  deriving DecidableEq

/-- The events of the thread that steps. -/
def ownEvents (t : ℕ) (p p' : Pc) : List Event :=
  match p, p' with
  | .invoke _ (.insert _), _ => [.registered t]
  | .invoke _ (.check _ _ _), .invoke _ (.send _ _) => [.passed t]
  | .invoke _ (.check _ _ _), .invoke _ (.failed _ _) => [.refused t]
  | .message _ _ _ _, .calling _ _ answer _ callback =>
    if answer.hasField "P" then [] else [.taken callback.invocation]
  | .clear (.lost _ _ _) (some []), _ => [.cleared t]
  | _, _ => []

/-- The events of the state. -/
def stateEvents (t : ℕ) (c c' : Connection.ConnectionState) : List Event :=
  (if c = .connected ∧ c' = .reconnecting then [.lost t] else []) ++
  if c ≠ .connected ∧ c' = .connected then [.connected] else []

/-- What a step shows. -/
def events (t : ℕ) (m : Mem) (p : Pc) (_ : Input) (m' : Mem) (p' : Pc) : List Event :=
  ownEvents t p p' ++ stateEvents t m.connection.connState m'.connection.connState

/-- The invocation has looked at the state. -/
def Pc.checked : Pc → Bool
  | .invoke _ q => match q with
    | .getId | .insert _ | .request _ | .check _ _ _ => false
    | _ => true
  | _ => false

theorem mem_stateEvents {t : ℕ} {c c' : Connection.ConnectionState} {e : Event} (h : e ∈ stateEvents t c c') :
    (e = .lost t ∧ c = .connected ∧ c' = .reconnecting) ∨ (e = .connected ∧ c ≠ .connected ∧ c' = .connected) := by
  unfold stateEvents at h
  rcases List.mem_append.mp h with h | h <;> split at h
  · rename_i hc
    exact .inl ⟨List.mem_singleton.mp h, hc⟩
  · cases h
  · rename_i hc
    exact .inr ⟨List.mem_singleton.mp h, hc⟩
  · cases h

section

variable {t : ℕ} {m m' : Mem} {p p' : Pc} {i : Input}

/-- Which event is shown by which step. -/
theorem mem_ownEvents {e : Event} (h : e ∈ ownEvents t p p') :
    (e = .registered t ∧ ∃ c id, p = .invoke c (.insert id)) ∨
    ((∃ c id r n, p = .invoke c (.check id r n)) ∧
      ((e = .passed t ∧ ∃ c id r, p' = .invoke c (.send id r)) ∨
        (e = .refused t ∧ ∃ c id x, p' = .invoke c (.failed id x)))) ∨
    (∃ n k answer es callback, e = .taken callback.invocation ∧ p' = .calling n k answer es callback) ∨
    (e = .cleared t ∧ ∃ n k c, p = .clear (.lost n k c) (some [])) := by
  unfold ownEvents at h
  split at h
  · exact .inl ⟨List.mem_singleton.mp h, _, _, rfl⟩
  · exact .inr (.inl ⟨⟨_, _, _, _, rfl⟩, .inl ⟨List.mem_singleton.mp h, _, _, _, rfl⟩⟩)
  · exact .inr (.inl ⟨⟨_, _, _, _, rfl⟩, .inr ⟨List.mem_singleton.mp h, _, _, _, rfl⟩⟩)
  · split at h
    · cases h
    · exact .inr (.inr (.inl ⟨_, _, _, _, _, List.mem_singleton.mp h, rfl⟩))
  · exact .inr (.inr (.inr ⟨List.mem_singleton.mp h, _, _, _, rfl⟩))
  · cases h

/-- A step that is none of the connection shows events of its own only. -/
theorem events_own (h : m'.connection = m.connection) : events t m p i m' p' = ownEvents t p p' := by
  have hnone : stateEvents t m.connection.connState m.connection.connState = [] := by
    unfold stateEvents
    rw [if_neg, if_neg]
    · rfl
    · rintro ⟨hc, hc'⟩
      exact hc hc'
    · rintro ⟨hc, hc'⟩
      rw [hc] at hc'
      cases hc'
  rw [events, h, hnone, List.append_nil]

/-- A step of the connection shows events of the state only. -/
theorem events_connection {q : Connection.Pc} (hp : p = .conn q) :
    events t m p i m' p' = stateEvents t m.connection.connState m'.connection.connState := by
  rw [hp]
  rfl

theorem connection_of_moves (h : Moves t m p i m' p') :
    m'.connection = m.connection ∨ ∃ q q', p = .conn q ∧ p' = .conn q' := by
  cases h with
  | connection hn hi => exact .inr ⟨_, _, rfl, rfl⟩
  | call => exact .inl (callback_connection ..)
  | pick => exact .inl (callback_connection ..)
  | _ => exact .inl rfl

/-- A step shows one kind of events. -/
theorem events_of_moves (h : Moves t m p i m' p') :
    (m'.connection = m.connection ∧ events t m p i m' p' = ownEvents t p p') ∨
      ((∃ q q', p = .conn q ∧ p' = .conn q') ∧
        events t m p i m' p' = stateEvents t m.connection.connState m'.connection.connState) := by
  rcases connection_of_moves h with e | ⟨q, q', rfl, rfl⟩
  · exact .inl ⟨e, events_own e⟩
  · exact .inr ⟨⟨q, q', rfl, rfl⟩, events_connection rfl⟩

/-- A step shows at most one event. -/
theorem events_split (h : Moves t m p i m' p') {e : Event} {o₁ o₂ : List Event}
    (he : events t m p i m' p' = o₁ ++ e :: o₂) : o₁ = [] ∧ o₂ = [] := by
  have hown : (ownEvents t p p').length ≤ 1 := by
    unfold ownEvents
    split <;> try split
    all_goals simp
  have hstate : (stateEvents t m.connection.connState m'.connection.connState).length ≤ 1 := by
    unfold stateEvents
    split <;> split <;> simp_all
  have hle : (events t m p i m' p').length ≤ 1 := by
    rcases events_of_moves h with ⟨-, e⟩ | ⟨-, e⟩ <;> rwa [e]
  rw [he, List.length_append, List.length_cons] at hle
  exact ⟨List.eq_nil_of_length_eq_zero (by omega), List.eq_nil_of_length_eq_zero (by omega)⟩

theorem of_passed (h : Moves t m p i m' p') {u : ℕ} (he : .passed u ∈ events t m p i m' p') :
    u = t ∧ p.checked = false ∧ p'.checked = true ∧ m.connection.connState = .connected := by
  rcases List.mem_append.mp he with he | he
  · rcases mem_ownEvents he with ⟨e, -⟩ | ⟨⟨c, id, r, n, rfl⟩, ⟨e, c', id', r', rfl⟩ | ⟨e, -⟩⟩ |
      ⟨_, _, _, _, _, e, -⟩ | ⟨e, -⟩
    · cases e
    · cases e
      cases h with
      | pass c id request n i hc => exact ⟨rfl, rfl, rfl, hc⟩
    · cases e
    · cases e
    · cases e
  · rcases mem_stateEvents he with ⟨e, -⟩ | ⟨e, -⟩ <;> cases e

theorem of_refused {u : ℕ} (he : .refused u ∈ events t m p i m' p') :
    u = t ∧ p.checked = false ∧ p'.checked = true := by
  rcases List.mem_append.mp he with he | he
  · rcases mem_ownEvents he with ⟨e, -⟩ | ⟨⟨c, id, r, n, rfl⟩, ⟨e, -⟩ | ⟨e, c', id', x, rfl⟩⟩ |
      ⟨_, _, _, _, _, e, -⟩ | ⟨e, -⟩
    · cases e
    · cases e
    · cases e
      exact ⟨rfl, rfl, rfl⟩
    · cases e
    · cases e
  · rcases mem_stateEvents he with ⟨e, -⟩ | ⟨e, -⟩ <;> cases e

theorem of_registered {u : ℕ} (he : .registered u ∈ events t m p i m' p') :
    u = t ∧ ∃ c id, p = .invoke c (.insert id) := by
  rcases List.mem_append.mp he with he | he
  · rcases mem_ownEvents he with ⟨e, hp⟩ | ⟨-, ⟨e, -⟩ | ⟨e, -⟩⟩ | ⟨_, _, _, _, _, e, -⟩ | ⟨e, -⟩
    · cases e
      exact ⟨rfl, hp⟩
    all_goals cases e
  · rcases mem_stateEvents he with ⟨e, -⟩ | ⟨e, -⟩ <;> cases e

theorem of_cleared {u : ℕ} (he : .cleared u ∈ events t m p i m' p') :
    u = t ∧ ∃ n k c, p = .clear (.lost n k c) (some []) := by
  rcases List.mem_append.mp he with he | he
  · rcases mem_ownEvents he with ⟨e, -⟩ | ⟨-, ⟨e, -⟩ | ⟨e, -⟩⟩ | ⟨_, _, _, _, _, e, -⟩ | ⟨e, hp⟩
    all_goals cases e
    exact ⟨rfl, hp⟩
  · rcases mem_stateEvents he with ⟨e, -⟩ | ⟨e, -⟩ <;> cases e

theorem of_lost {u : ℕ} (he : .lost u ∈ events t m p i m' p') :
    u = t ∧ m.connection.connState = .connected ∧ m'.connection.connState = .reconnecting := by
  rcases List.mem_append.mp he with he | he
  · rcases mem_ownEvents he with ⟨e, -⟩ | ⟨-, ⟨e, -⟩ | ⟨e, -⟩⟩ | ⟨_, _, _, _, _, e, -⟩ | ⟨e, -⟩ <;> cases e
  · rcases mem_stateEvents he with ⟨e, hst⟩ | ⟨e, -⟩
    · cases e
      exact ⟨rfl, hst⟩
    · cases e

/-- A check leaves the invocation checked, and shows how it went. -/
theorem checked_of_moves (h : Moves t m p i m' p') :
    (p.checked = true → p'.checked = true) ∧
      (p'.checked = true → p.checked = true ∨ .passed t ∈ events t m p i m' p' ∨ .refused t ∈ events t m p i m' p') := by
  cases h with
  | reject => exact ⟨fun _ => rfl, fun _ => .inr (.inr (List.mem_append_left _ List.mem_cons_self))⟩
  | pass => exact ⟨fun _ => rfl, fun _ => .inr (.inl (List.mem_append_left _ List.mem_cons_self))⟩
  | sendThrows | send | sent | fault | faultOther | fail | remove => exact ⟨fun _ => rfl, fun _ => .inl rfl⟩
  | _ => exact ⟨fun hc => (by cases hc), fun hc => (by cases hc)⟩

theorem taken_of_moves (h : Moves t m p i m' p') {u : ℕ} (ht : p'.Takes u) : .taken u ∈ events t m p i m' p' := by
  cases h with
  | take n k message es id callback i hl hid hf =>
    obtain ⟨rfl, hP⟩ := ht
    refine List.mem_append_left _ ?_
    simp [ownEvents, hP]
  | _ => exact ht.elim

/-- The state becomes connected in view. -/
theorem connected_of_moves (hc : m.connection.connState ≠ .connected) (hc' : m'.connection.connState = .connected) :
    .connected ∈ events t m p i m' p' := by
  refine List.mem_append_right _ (List.mem_append_right _ ?_)
  rw [if_pos ⟨hc, hc'⟩]
  exact List.mem_cons_self

end

/-- What the events so far tell of thread `t`. -/
structure Noted (t : ℕ) (p : Pc) (l : List Event) : Prop where
  checked : p.checked = true ↔ .passed t ∈ l ∨ .refused t ∈ l
  taken : ∀ u, p.Takes u → .taken u ∈ l

section

variable {ok : State Mem Pc → Act Input → Prop} {s : State Mem Pc} {l : List Event}

theorem noted_holds (h : prog.Trace ok events s l) (t : ℕ) : Noted t (s.pc t) l := by
  have h0 : ∀ t, Noted t prog.idle [] := fun t => ⟨by simp [prog, Pc.checked], fun u (hu : False) => hu.elim⟩
  refine h.each (L := fun t _ p l => Noted t p l) h0 ?_ t
  intro s a l m p _ _ ih hn
  have hmoves := next_moves hn
  obtain ⟨hmono, hnew⟩ := checked_of_moves hmoves
  refine ⟨⟨⟨fun hc => ?_, fun hmem => ?_⟩, fun u hu => ?_⟩, fun u hu => ⟨⟨fun hc => ?_, fun hmem => ?_⟩, fun v hv => ?_⟩⟩
  · simp only [List.mem_append]
    rcases hnew hc with hc | he | he
    · exact ((ih _).checked.mp hc).imp .inl .inl
    · exact .inl (.inr he)
    · exact .inr (.inr he)
  · simp only [List.mem_append] at hmem
    rcases hmem with (he | he) | he | he
    · exact hmono ((ih _).checked.mpr (.inl he))
    · exact (of_passed hmoves he).2.2.1
    · exact hmono ((ih _).checked.mpr (.inr he))
    · exact (of_refused he).2.2
  · exact List.mem_append_right _ (taken_of_moves hmoves hu)
  · exact ((ih u).checked.mp hc).imp (List.mem_append_left _) (List.mem_append_left _)
  · simp only [List.mem_append] at hmem
    rcases hmem with (he | he) | he | he
    · exact (ih u).checked.mpr (.inl he)
    · exact absurd (of_passed hmoves he).1 hu
    · exact (ih u).checked.mpr (.inr he)
    · exact absurd (of_refused he).1 hu
  · exact List.mem_append_left _ ((ih u).taken v hv)

/-- After a loss the state is not connected before it has become so again. -/
theorem connected_since {l₁ l₂ : List Event} {t : ℕ} (h : prog.Trace ok events s l) (hl : l = l₁ ++ .lost t :: l₂)
    (hc : s.mem.connection.connState = .connected) : .connected ∈ l₂ := by
  obtain ⟨s₀, a, m, p, o₁, o₂, l₀, l', -, -, hn, hobs, -, rfl, hK⟩ := h.exists_since hl
  have hlost := (of_lost (t := a.thread) (i := a.input) (hobs ▸ List.mem_append_right o₁ List.mem_cons_self)).2.2
  refine List.mem_append_right _ (hK (fun s l => s.mem.connection.connState = .connected → .connected ∈ l) ?_ ?_ hc)
  · intro hc
    have hc : m.connection.connState = .connected := hc
    rw [hlost] at hc
    cases hc
  · intro s a l m p _ _ ih hn hc
    by_cases hold : s.mem.connection.connState = .connected
    · exact List.mem_append_left _ (ih hold)
    · exact List.mem_append_right _ (connected_of_moves hold hc)

end

/-! ## The law of the loss -/

/-- What a loss leaves behind: `before` are the events before the state was moved from connected to reconnecting,
`between` those until the clear of the reconnecting callback has returned, `after` those since. -/
structure LossSettles (s : State Mem Pc) (before between after : List Event) : Prop where
  /-- an invocation that got through the check before the loss is completed, or its answer was taken -/
  settled : ∀ u, .passed u ∈ before → s.mem.task u ≠ none ∨ .taken u ∈ before ++ between
  /-- one that registers later is refused or let through, … -/
  later : ∀ u, .registered u ∈ between ++ after → (s.pc u).checked = true →
    .refused u ∈ between ++ after ∨ .passed u ∈ between ++ after
  /-- … is completed and out of the table once its refusal has been handled, … -/
  refused : ∀ u c, s.pc u = .invoke c .rejected → s.mem.task u ≠ none ∧ ¬ s.mem.Waits u
  /-- … and let through only after the state has become connected again -/
  passed : ∀ u l₁ l₂, between ++ after = l₁ ++ .passed u :: l₂ → .connected ∈ l₁
  /-- as long as it has not, whoever is in the table is before the check or has its failed send to handle -/
  gaveUp : .connected ∉ between ++ after → ∀ u, s.mem.Waits u → (s.pc u).unsent = true

section

variable {ok : State Mem Pc → Act Input → Prop} {s : State Mem Pc} {l₁ l₂ l₃ : List Event} {t : ℕ}

/-- The clear of the reconnecting callback has come to its end. -/
theorem settled_by_clear (h : prog.Trace ok events s (l₁ ++ .lost t :: (l₂ ++ .cleared t :: l₃)))
    (hlim : s.mem.issued < 2 ^ 32) {u : ℕ} (hu : .passed u ∈ l₁) :
    s.mem.task u ≠ none ∨ .taken u ∈ l₁ ++ l₂ := by
  have hl : l₁ ++ .lost t :: (l₂ ++ .cleared t :: l₃) = (l₁ ++ .lost t :: l₂) ++ .cleared t :: l₃ := by simp
  obtain ⟨s₀, a, m, p, o₁, o₂, l₀, l', h₀, -, hn, hobs, hl₀, -, hK⟩ := h.exists_since hl
  have hmem : .cleared t ∈ events a.thread s₀.mem (s₀.pc a.thread) a.input m p :=
    hobs ▸ List.mem_append_right o₁ List.mem_cons_self
  obtain ⟨rfl, n, k, c, hp⟩ := of_cleared hmem
  have hmoves := next_moves hn
  have hlim₀ : s₀.mem.issued < 2 ^ 32 := by
    have hle : s₀.mem.issued ≤ s.mem.issued := by
      refine hK (fun s _ => s₀.mem.issued ≤ s.mem.issued) (issued_mono hmoves) fun s a l m p _ _ ih hn => ?_
      exact ih.trans (issued_mono (next_moves hn))
    omega
  have hi := orderly_holds h₀.reachable hlim₀
  rw [(events_split hmoves hobs).1, List.append_nil] at hl₀
  have hpassed : .passed u ∈ l₀ := by
    rw [← hl₀]
    exact List.mem_append_left _ hu
  have htaken : .taken u ∈ l₀ → .taken u ∈ l₁ ++ l₂ := by
    intro hm
    rw [← hl₀] at hm
    simpa using hm
  have hchecked := (noted_holds h₀ u).checked.mpr (.inl hpassed)
  have hentered : (s₀.pc u).entered = true := by
    revert hchecked
    cases s₀.pc u with
    | invoke c q => cases q <;> simp [Pc.checked, Pc.entered]
    | _ => simp [Pc.checked]
  have hkeep : s₀.mem.task u ≠ none → s.mem.task u ≠ none := by
    intro htask
    refine hK (fun s _ => s.mem.task u ≠ none) (task_ne_of_moves hmoves htask) fun s a l m p _ _ ih hn => ?_
    exact task_ne_of_moves (next_moves hn) ih
  rcases hi.settled u (hi.entered u hentered) with htask | ⟨id, callback, hf, rfl⟩ | ⟨v, hv⟩
  · exact .inl (hkeep htask)
  · -- what is still in the table has been called
    have hdone := hi.completed a.thread
    rw [hp] at hdone
    rcases hdone id callback hf with hm | htask
    · cases hm
    · exact .inl (hkeep htask)
  · exact .inr (htaken ((noted_holds h₀ v).taken u hv))

theorem registered_later (h : prog.Trace ok events s (l₁ ++ l₂)) {u : ℕ} (hu : .registered u ∈ l₂)
    (hc : (s.pc u).checked = true) : .refused u ∈ l₂ ∨ .passed u ∈ l₂ := by
  obtain ⟨l₃, l₄, rfl⟩ := List.append_of_mem hu
  obtain ⟨s₀, a, m, p, o₁, o₂, l₀, h₀, -, hn, hobs, hl₀⟩ := h.exists_step (List.append_assoc ..).symm
  rw [(events_split (next_moves hn) hobs).1, List.append_nil] at hl₀
  obtain ⟨rfl, c, id, hp⟩ := of_registered (hobs ▸ List.mem_append_right o₁ List.mem_cons_self)
  -- it had not looked at the state when it registered
  have hbefore : ¬ (.passed a.thread ∈ l₀ ∨ .refused a.thread ∈ l₀) := by
    rw [← (noted_holds h₀ a.thread).checked, hp]
    exact Bool.false_ne_true
  rw [← hl₀, not_or] at hbefore
  have hnot : ∀ e, e ∉ l₁ ++ l₃ → e ∉ l₁ := fun e he hm => he (List.mem_append_left l₃ hm)
  rcases (noted_holds h a.thread).checked.mp hc with he | he
  · exact .inr ((List.mem_append.mp he).resolve_left (hnot _ hbefore.1))
  · exact .inl ((List.mem_append.mp he).resolve_left (hnot _ hbefore.2))

theorem passed_later (h : prog.Trace ok events s (l₁ ++ .lost t :: l₂)) {u : ℕ} {l₃ l₄ : List Event}
    (hu : l₂ = l₃ ++ .passed u :: l₄) : .connected ∈ l₃ := by
  subst hu
  have hl : l₁ ++ .lost t :: (l₃ ++ .passed u :: l₄) = (l₁ ++ .lost t :: l₃) ++ .passed u :: l₄ := by simp
  obtain ⟨s₀, a, m, p, o₁, o₂, l₀, h₀, -, hn, hobs, hl₀⟩ := h.exists_step hl
  have hmoves := next_moves hn
  rw [(events_split hmoves hobs).1, List.append_nil] at hl₀
  have hc := (of_passed hmoves (hobs ▸ List.mem_append_right o₁ List.mem_cons_self)).2.2.2
  exact connected_since h₀ hl₀.symm hc

/-- As long as the state is not connected, no invocation in the table gets further than to its refusal. -/
theorem unsent_of_moves {m m' : Mem} {p p' : Pc} {i : Input} (h : Moves t m p i m' p')
    (hp : p.unsent = true ∨ ∃ c id, p = .invoke c (.insert id)) (hc : m.connection.connState ≠ .connected)
    (ht : p'.tracked = true) : p'.unsent = true := by
  rcases hp with hp | ⟨c, id, rfl⟩
  · cases h with
    | request | reject | fail => rfl
    | pass c id request n i hcon => exact absurd hcon hc
    | remove => cases ht
    | _ => cases hp
  · cases h
    rfl

theorem unsent_of_gaveUp (h : prog.Trace ok events s (l₁ ++ .lost t :: (l₂ ++ .cleared t :: l₃)))
    (hlim : s.mem.issued < 2 ^ 32) (hc : .connected ∉ l₂ ++ l₃) {u : ℕ} (hu : s.mem.Waits u) :
    (s.pc u).unsent = true := by
  have hl : l₁ ++ .lost t :: (l₂ ++ .cleared t :: l₃) = (l₁ ++ .lost t :: l₂) ++ .cleared t :: l₃ := by simp
  obtain ⟨s₀, a, m, p, o₁, o₂, l₀, l', h₀, -, hn, hobs, hl₀, hl', hK⟩ := h.exists_since hl
  have hmoves := next_moves hn
  have hmem : .cleared t ∈ events a.thread s₀.mem (s₀.pc a.thread) a.input m p :=
    hobs ▸ List.mem_append_right o₁ List.mem_cons_self
  obtain ⟨rfl, n, k, c, hp⟩ := of_cleared hmem
  obtain ⟨rfl, rfl⟩ := events_split hmoves hobs
  rw [List.append_nil] at hl₀
  rw [List.nil_append] at hl'
  subst hl'
  have hrun := hK (fun s l => s.mem.issued < 2 ^ 32 → (s.mem.connection.connState = .connected → .connected ∈ l₂ ++ l) ∧
    (.connected ∉ l₂ ++ l → ∀ u, s.mem.Waits u → (s.pc u).unsent = true)) ?_ ?_
  · exact (hrun hlim).2 hc u hu
  · intro _
    rw [hp] at hmoves
    generalize a.input = i at hmoves
    cases hmoves with
    | pick _ _ j e he => simp at he
    | clearedLost =>
      refine ⟨fun hcon => ?_, fun _ u hw => ?_⟩
      · rw [List.append_nil]
        exact connected_since h₀ hl₀.symm hcon
      · obtain ⟨id, callback, hf, -⟩ := hw
        cases hf
  · intro s b l m' p' hr _ ih hn hlim
    have hmoves := next_moves hn
    obtain ⟨hstate, hun⟩ := ih ((issued_mono hmoves).trans_lt hlim)
    refine ⟨fun hcon => ?_, fun hnot u hw => ?_⟩
    · rw [← List.append_assoc]
      by_cases hold : s.mem.connection.connState = .connected
      · exact List.mem_append_left _ (hstate hold)
      · exact List.mem_append_right _ (connected_of_moves hold hcon)
    · rw [← List.append_assoc] at hnot
      have hnot₀ : .connected ∉ l₂ ++ l := fun hm => hnot (List.mem_append_left _ hm)
      by_cases hub : u = b.thread
      · subst hub
        rw [State.set_pc_self]
        obtain ⟨hg, hlinked⟩ := linked_holds hr.reachable
        have hi := orderly_holds hr.reachable ((issued_mono hmoves).trans_lt hlim)
        refine unsent_of_moves hmoves ?_ (fun hcon => hnot₀ (hstate hcon))
          (tracked_of_moves hmoves hg (hlinked _) (hi.tracked _) hw)
        exact (waits_of_moves hmoves hw).imp (hun hnot₀ _) fun hins => hins.2
      · rw [State.set_pc_of_ne _ _ _ _ hub]
        rcases waits_of_moves hmoves hw with hw | ⟨e, -⟩
        · exact hun hnot₀ u hw
        · exact absurd e hub

end

/-- **A loss of the connection fails exactly the invocations sent over the lost connection**, in every run with
fewer than 2 ^ 32 invocations. -/
theorem loss_settles {s : State Mem Pc} {t : ℕ} {l₁ l₂ l₃ : List Event}
    (h : prog.Trace (fun _ _ => True) events s (l₁ ++ .lost t :: (l₂ ++ .cleared t :: l₃)))
    (hlim : s.mem.issued < 2 ^ 32) : LossSettles s l₁ l₂ l₃ := by
  have hi := orderly_holds h.reachable hlim
  have hmem : ∀ e, e ≠ .cleared t → (e ∈ l₂ ++ .cleared t :: l₃ ↔ e ∈ l₂ ++ l₃) := by
    intro e he
    simp [he]
  refine ⟨fun u => settled_by_clear h hlim, fun u hu hc => ?_, fun u c hp => ⟨hi.rejected u c hp, fun hw => ?_⟩,
    fun u l₄ l₅ hu => ?_, fun hc u => unsent_of_gaveUp h hlim hc⟩
  · have hl : l₁ ++ .lost t :: (l₂ ++ .cleared t :: l₃) = (l₁ ++ [.lost t]) ++ (l₂ ++ .cleared t :: l₃) := by simp
    rw [hl] at h
    exact (registered_later h ((hmem _ (by simp)).mpr hu) hc).imp (hmem _ (by simp)).mp (hmem _ (by simp)).mp
  · have := hi.tracked u hw
    rw [hp] at this
    cases this
  · -- the check is made before the end of the clear, or after it
    rcases List.append_eq_append_iff.mp hu with ⟨l, rfl, hl⟩ | ⟨l, rfl, hl⟩
    · have hc := passed_later h (show _ = (l₂ ++ .cleared t :: l) ++ .passed u :: l₅ by rw [hl]; simp)
      simpa using hc
    · cases l with
      | nil =>
        rw [List.nil_append] at hl
        rw [List.append_nil] at h
        have hc := passed_later h (show _ = (l₄ ++ [.cleared t]) ++ .passed u :: l₅ by rw [← hl]; simp)
        simpa using hc
      | cons e l =>
        obtain ⟨rfl, -⟩ := List.cons.inj hl
        exact passed_later h (show _ = l₄ ++ .passed u :: (l ++ .cleared t :: l₃) by simp)

/-! ## Runs -/

/-- Thread `t` loses the connection of session 1, up to the lock of its clear. -/
def losing (t : ℕ) : List (Act Input) := [lift (Connection.call t (.error 1))] ++ tasks t 9

/-- An invocation (thread 3) waits for its answer, and the connection is lost (thread 4). -/
def lostInvocation : List (Act Input) :=
  started ++ [invoking 3] ++ tasks 3 6 ++ losing 4 ++ [⟨4, .pick 0⟩] ++ tasks 4 1

theorem loss_settles_lost : ∃ s, LossSettles s [.connected, .registered 3, .passed 3] [] [] ∧
    (s.mem.task 3).isSome = true := by
  obtain ⟨s, l, h, hf⟩ := prog.exists_of_history events Test.all lostInvocation
    (fun s l => (l, s.mem.issued, (s.mem.task 3).isSome))
    ([.connected, .registered 3, .passed 3] ++ .lost 4 :: ([] ++ .cleared 4 :: []), 1, true) rfl
  simp only [Prod.mk.injEq] at hf
  obtain ⟨rfl, hlim, htask⟩ := hf
  exact ⟨s, loss_settles h (by rw [hlim]; decide), htask⟩

/-- The arguments of a call. -/
def sampleCall : Call := ⟨false, "hub", "method", .array []⟩

/-- From `s` on `k` invocations, on the threads from `n` on, take their ids and go no further. -/
def crowd (s : State Mem Pc) (n k : ℕ) : State Mem Pc where
  mem := { s.mem with
    callbackManager := { s.mem.callbackManager with id := s.mem.callbackManager.id + BitVec.ofNat 32 k }
    issued := s.mem.issued + k
    invocation := fun t =>
      if n ≤ t ∧ t < n + k then some ⟨sampleCall, s.mem.issued + (t - n)⟩ else s.mem.invocation t }
  pc t := if n ≤ t ∧ t < n + k then
      .invoke sampleCall (.insert (CallbackManager.idText (s.mem.callbackManager.id + BitVec.ofNat 32 (t - n))))
    else s.pc t

/-- A step in which nothing is seen. -/
theorem step_unseen {s : State Mem Pc} {l : List Event} {a : Act Input} {m : Mem} {p : Pc}
    (h : prog.Trace (fun _ _ => True) events s l)
    (hn : next a.thread s.mem (s.pc a.thread) a.input = some (m, p)) (hm : m.connection = s.mem.connection)
    (he : ownEvents a.thread (s.pc a.thread) p = []) :
    prog.Trace (fun _ _ => True) events (s.set a.thread m p) l := by
  have hstep := h.step trivial hn
  rwa [events_own hm, he, List.append_nil] at hstep

theorem crowd_holds {s : State Mem Pc} {l : List Event} {n : ℕ} (h : prog.Trace (fun _ _ => True) events s l)
    (hidle : ∀ t, n ≤ t → s.pc t = .conn .idle) (hcrash : s.mem.connection.crashed = false) (k : ℕ) :
    prog.Trace (fun _ _ => True) events (crowd s n k) l := by
  induction k with
  | zero =>
    have hrange : ∀ t, ¬ (n ≤ t ∧ t < n) := by omega
    have heq : crowd s n 0 = s := by
      simp only [crowd, BitVec.add_zero, Nat.add_zero, hrange, if_false]
    rw [heq]
    exact h
  | succ k ih =>
    have hpc : (crowd s n k).pc (n + k) = .conn .idle := (if_neg (by omega)).trans (hidle (n + k) (by omega))
    have hcrash' : (crowd s n k).mem.connection.crashed = false := hcrash
    have hcall := step_unseen (a := ⟨n + k, .invoke sampleCall⟩) (m := (crowd s n k).mem)
      (p := .invoke sampleCall .getId) ih (by simp [next, hpc, hcrash', runConnection]) rfl (by rw [hpc]; rfl)
    have hget := step_unseen (a := ⟨n + k, .invoke sampleCall⟩) hcall
      (by simp only [next, State.set_pc_self, State.set_mem, hcrash', runInvoke]; rfl) (by rfl)
      (by rw [State.set_pc_self]; rfl)
    have hid : s.mem.callbackManager.id + BitVec.ofNat 32 k + 1 = s.mem.callbackManager.id + BitVec.ofNat 32 (k + 1) := by
      rw [BitVec.add_assoc, BitVec.ofNat_add]
      rfl
    have hinv := update_range (fun t => some (⟨sampleCall, s.mem.issued + (t - n)⟩ : Invocation)) s.mem.invocation n k
    have hpcs := update_range (fun t => Pc.invoke sampleCall
      (.insert (CallbackManager.idText (s.mem.callbackManager.id + BitVec.ofNat 32 (t - n))))) s.pc n k
    rw [Nat.add_sub_cancel_left] at hinv hpcs
    have heq : crowd s n (k + 1) = ((crowd s n k).set (n + k) (crowd s n k).mem (.invoke sampleCall .getId)).set (n + k)
        { (crowd s n k).mem with
          callbackManager := (crowd s n k).mem.callbackManager.getCallbackId.2
          issued := (crowd s n k).mem.issued + 1
          invocation := Function.update (crowd s n k).mem.invocation (n + k) (some ⟨sampleCall, (crowd s n k).mem.issued⟩) }
        (.invoke sampleCall (.insert (crowd s n k).mem.callbackManager.getCallbackId.1)) := by
      simp only [State.set, Function.update_idem, crowd, CallbackManager.getCallbackId, hid, hinv, hpcs, Nat.add_assoc]
    rw [heq]
    exact hget

/-- An invocation (thread 3) waits in the table under the id 0. -/
def waiting : List (Act Input) := started ++ [invoking 3] ++ tasks 3 6

/-- Another one (thread 4) is given that id again, and is sent; then the connection is lost (thread 5). -/
def wrapped : List (Act Input) := [invoking 4] ++ tasks 4 6 ++ losing 5 ++ [⟨5, .pick 0⟩] ++ tasks 5 1

/-- After 2 ^ 32 invocations the loss of the connection may leave one behind that was sent over it. -/
theorem wrapped_waits : ¬ ∀ s t l₁ l₂ l₃,
    prog.Trace (fun _ _ => True) events s (l₁ ++ .lost t :: (l₂ ++ .cleared t :: l₃)) → LossSettles s l₁ l₂ l₃ := by
  intro hall
  -- the state in which the first one waits
  have hsome : (prog.history Test.all.test events prog.init waiting).isSome = true := rfl
  obtain ⟨⟨s₁, l⟩, hrun⟩ := Option.isSome_iff_exists.mp hsome
  have h₁ : prog.Trace (fun _ _ => True) events s₁ ([] ++ l) := Program.Trace.of_history Test.all .init hrun
  have hlt : ∀ a ∈ waiting, a.thread < 6 := by decide
  have hidle : ∀ t, 6 ≤ t → s₁.pc t = .conn .idle := fun t ht =>
    Program.history_pc_of_ne (A := prog) (fun a ha => by have := hlt a ha; omega) hrun
  -- the rest of the run, from the crowd
  have hrest : ((prog.history Test.all.test events prog.init waiting).bind fun r =>
      (prog.history Test.all.test events (crowd r.1 6 (2 ^ 32 - 1)) wrapped).map fun r' =>
        (r.2, r.1.mem.connection.crashed, r'.2, r'.1.mem.task 4)) =
      some ([.connected, .registered 3, .passed 3], false, [.registered 4, .passed 4, .lost 5, .cleared 5], none) := rfl
  rw [hrun, Option.bind_some] at hrest
  obtain ⟨⟨s, l'⟩, hrun', hf⟩ := Option.map_eq_some_iff.mp hrest
  simp only [Prod.mk.injEq] at hf
  obtain ⟨rfl, hcrash, rfl, htask⟩ := hf
  have h := Program.Trace.of_history Test.all (crowd_holds h₁ hidle hcrash _) hrun'
  have hsettles := hall s 5 [.connected, .registered 3, .passed 3, .registered 4, .passed 4] [] [] h
  rcases hsettles.settled 4 (by decide) with hne | hmem
  · exact hne htask
  · exact absurd hmem (by decide)

end SignalRClient.Hub
