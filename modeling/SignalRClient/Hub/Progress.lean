import SignalRClient.Hub.Loss

/-!
# Progress messages

`invoke_callback` looks the callback up under the lock and calls it afterwards.  For an answer it has taken the
callback out of the table, so that nobody else completes the task in between; for a progress message it leaves it
there.  `Prompt` leaves out the steps that can complete the task in between, and those that find a callback whose
task is completed already; in every run of other steps `on_progress` is called for open tasks only
(`open_of_reports`).
-/

namespace SignalRClient.Hub

open Threads

/-! ## Who completes a task -/

/-- The invocation whose task the step of thread `t` completes. -/
def completes (t : ℕ) : Pc → Input → Option ℕ
  | .calling _ _ message _ callback, _ => if Answers message then some callback.invocation else none
  | .invoke _ (.failed _ _), _ => some t
  | .clear _ (some rest), .pick j => (rest[j]?).map fun e => e.2.invocation
  | _, _ => none

section

variable {t : ℕ} {m m' : Mem} {p p' : Pc} {i : Input}

theorem completes_of_moves (h : Moves t m p i m' p') {u : ℕ} (hu : m'.task u ≠ m.task u) :
    completes t p i = some u := by
  have hcallback : ∀ callback arguments, (m.callback callback arguments).task u ≠ m.task u →
      callback.invocation = u ∧ Answers arguments := by
    intro callback arguments hne
    rw [callback_task] at hne
    split at hne
    · rename_i c hc
      refine ⟨?_, ?_⟩
      · by_contra hcu
        exact hne (Function.update_of_ne (Ne.symm hcu) ..)
      · rw [← completion?_isSome callback.void, hc]
        rfl
    · exact absurd rfl hne
  cases h with
  | connection hn hi =>
    rw [afterConnection_task] at hu
    exact absurd rfl hu
  | fail c id e =>
    rw [complete_task] at hu
    by_cases hut : u = t
    · rw [hut]
      rfl
    · exact absurd (Function.update_of_ne hut ..) hu
  | call n k message es callback =>
    obtain ⟨hcu, ha⟩ := hcallback callback message hu
    show (if Answers message then _ else _) = _
    rw [if_pos ha, hcu]
  | pick w rest j e he =>
    obtain ⟨hcu, -⟩ := hcallback e.2 _ hu
    show (rest[j]?).map _ = _
    rw [he, Option.map_some, hcu]
  | _ => exact absurd rfl hu

theorem task_of_completes (h : Moves t m p i m' p') {u : ℕ} (hu : completes t p i = some u) : m'.task u ≠ none := by
  cases h with
  | fail c id e =>
    injection hu with hu
    rw [complete_task, hu, Function.update_self]
    exact Option.some_ne_none _
  | call n k message es callback =>
    simp only [completes] at hu
    split at hu
    · rename_i ha
      injection hu with hu
      rw [← hu]
      exact callback_task_self ha
    · cases hu
  | pick w rest j e he =>
    simp only [completes, he, Option.map_some] at hu
    injection hu with hu
    rw [← hu]
    exact callback_task_self (answers_arguments w)
  | clearedStop => cases i <;> cases hu
  | clearedLost => cases i <;> cases hu
  | _ => cases hu

theorem entered_of_entered (h : Moves t m p i m' p') (hp : p.entered = true) : p'.entered = true := by
  cases h with
  | request | reject | pass | sendThrows | send | sent | fault | faultOther | fail | remove => rfl
  | _ => cases hp

theorem Pc.entered_of_tracked {p : Pc} (h : p.tracked = true) : p.entered = true := by
  cases p with
  | invoke c q =>
    cases q with
    | getId | insert | rejected => cases h
    | _ => rfl
  | _ => cases h

/-- Whoever clears the table holds on to the lock until the table is empty. -/
theorem mapLock_of_moves (h : Moves t m p i m' p') (hl : m.callbackManager.mapLock ≠ none) :
    m'.callbackManager.mapLock ≠ none ∨ ∀ u, ¬ m'.Waits u := by
  have hempty : ∀ w : Table, w.callbackManager = m.callbackManager.clear → ∀ u, ¬ w.Waits u := by
    rintro w hw u ⟨id, callback, hf, -⟩
    rw [hw] at hf
    cases hf
  cases h with
  | connection hn hi =>
    rw [afterConnection_toTable]
    exact .inl hl
  | insert c id i hfree => exact absurd hfree hl
  | remove c id i hfree => exact absurd hfree hl
  | take n k message es id callback i hfree => exact absurd hfree hl
  | lock w i hfree => exact absurd hfree hl
  | call =>
    rw [callback_toTable]
    exact .inl hl
  | pick =>
    rw [callback_toTable]
    exact .inl hl
  | clearedStop => exact .inr (hempty _ rfl)
  | clearedLost => exact .inr (hempty _ rfl)
  | _ => exact .inl hl

end

/-! ## Steps that are not out of time -/

/-- The thread calls the `on_progress` of invocation `u` next. -/
def Pc.Reports (u : ℕ) : Pc → Prop
  | .calling _ _ answer _ callback => callback.invocation = u ∧ (progressData? answer).isSome = true
  | _ => False

structure Prompt (s : State Mem Pc) (a : Act Input) : Prop where
  /-- no task is completed between the lookup for a progress message and the call -/
  completion : ∀ u, completes a.thread (s.pc a.thread) a.input = some u → ∀ v, ¬ (s.pc v).Reports u
  /-- a message with a field `P` that finds a callback brings no result, and does not come between the failure of
  the send and the removal of the callback -/
  lookup : ∀ n k message es id callback, s.pc a.thread = .message n k message es → message.hasField "P" = true →
    callbackId? message = some id → s.mem.callbackManager.find id = some callback →
      message.hasField "R" = false ∧ ∀ c id', s.pc callback.invocation ≠ .invoke c (.remove id')

theorem progressData?_isSome (message : Json) :
    (progressData? message).isSome = true ↔ message.hasField "P" = true ∧ message.hasField "R" = false := by
  unfold progressData?
  cases message.hasField "R" <;> simp [Json.hasField]

/-- What holds of a callback between its lookup and its call: with a progress message the task is open, with an
answer the callback is not in the table any more. -/
def Pc.InHand (s : State Mem Pc) : Pc → Prop
  | .calling _ _ answer _ callback => (s.pc callback.invocation).entered = true ∧
      if answer.hasField "P" then answer.hasField "R" = false ∧ s.mem.task callback.invocation = none
      else ¬ s.mem.Waits callback.invocation
  | _ => True

/-- A completed task whose callback is in the table: the table is being cleared, or the callback is about to be
removed. -/
def Stale (s : State Mem Pc) (u : ℕ) : Prop :=
  s.mem.callbackManager.mapLock ≠ none ∨ ∃ c id, s.pc u = .invoke c (.remove id)

structure Punctual (s : State Mem Pc) : Prop where
  tracked : ∀ u, s.mem.Waits u → (s.pc u).tracked = true
  completed : ∀ u, s.mem.task u ≠ none → (s.pc u).entered = true
  stale : ∀ u, s.mem.Waits u → s.mem.task u ≠ none → Stale s u
  inHand : ∀ t, (s.pc t).InHand s

section

variable {s : State Mem Pc} {a : Act Input} {m : Mem} {p : Pc}

theorem Punctual.entered_of_completes (h : Punctual s) (hl : (s.pc a.thread).Linked a.thread s.mem.toTable) {u : ℕ}
    (hu : completes a.thread (s.pc a.thread) a.input = some u) : (s.pc u).entered = true := by
  have hin := h.inHand a.thread
  generalize hp : s.pc a.thread = q at hu hl hin
  generalize a.input = i at hu
  unfold completes at hu
  split at hu
  · split at hu
    · injection hu with hu
      rw [← hu]
      exact hin.1
    · cases hu
  · injection hu with hu
    rw [← hu, hp]
    rfl
  · obtain ⟨e, he, rfl⟩ := Option.map_eq_some_iff.mp hu
    have hf := hl.2.2 e (List.mem_of_getElem? he)
    exact Pc.entered_of_tracked (h.tracked _ ⟨e.1, e.2, hf, rfl⟩)
  · cases hu

theorem entered_set (hn : Moves a.thread s.mem (s.pc a.thread) a.input m p) {u : ℕ}
    (hu : (s.pc u).entered = true) : ((s.set a.thread m p).pc u).entered = true := by
  by_cases hut : u = a.thread
  · subst hut
    rw [State.set_pc_self]
    exact entered_of_entered hn hu
  · rwa [State.set_pc_of_ne _ _ _ _ hut]

theorem Punctual.tracked_set (h : Punctual s) (hg : s.mem.toTable.Linked)
    (hl : (s.pc a.thread).Linked a.thread s.mem.toTable) (hn : Moves a.thread s.mem (s.pc a.thread) a.input m p)
    {u : ℕ} (hu : m.Waits u) : ((s.set a.thread m p).pc u).tracked = true := by
  by_cases hut : u = a.thread
  · subst hut
    rw [State.set_pc_self]
    exact tracked_of_moves hn hg hl (h.tracked _) hu
  · rw [State.set_pc_of_ne _ _ _ _ hut]
    rcases waits_of_moves hn hu with hw | ⟨he, -⟩
    · exact h.tracked u hw
    · exact absurd he hut

theorem Punctual.stale_set (h : Punctual s) (hg : s.mem.toTable.Linked)
    (hl : (s.pc a.thread).Linked a.thread s.mem.toTable) (hn : Moves a.thread s.mem (s.pc a.thread) a.input m p)
    {u : ℕ} (hu : m.Waits u) (ht : m.task u ≠ none) : Stale (s.set a.thread m p) u := by
  have htracked := h.tracked_set hg hl hn hu
  by_cases hold : s.mem.task u = none
  · -- the step completes the task
    have hc := completes_of_moves hn (u := u) (by rw [hold]; exact ht)
    have hin := h.inHand a.thread
    generalize hp : s.pc a.thread = q at hn hc hl hin
    generalize a.input = i at hn hc
    cases hn with
    | connection => cases hc
    | call n k message es callback =>
      simp only [completes] at hc
      split at hc
      · rename_i ha
        injection hc with hc
        subst hc
        rw [callback_toTable] at hu
        obtain ⟨-, hin⟩ := hin
        split at hin
        · rename_i hP
          rcases ha with hR | hP'
          · rw [hin.1] at hR
            cases hR
          · rw [hP] at hP'
            cases hP'
        · exact absurd hu hin
      · cases hc
    | fail c id e =>
      injection hc with hc
      refine .inr ⟨c, id, ?_⟩
      rw [← hc, State.set_pc_self]
    | pick w rest j e he =>
      refine .inl ?_
      show (s.mem.callback e.2 w.arguments).toTable.callbackManager.mapLock ≠ none
      rw [callback_toTable, hl.2.1]
      exact Option.some_ne_none _
    | clearedStop => cases i <;> cases hc
    | clearedLost => cases i <;> cases hc
    | _ => cases hc
  · rcases waits_of_moves hn hu with hw | ⟨rfl, c, id, hp⟩
    · rcases h.stale u hw hold with hlock | ⟨c, id, hp⟩
      · rcases mapLock_of_moves hn hlock with hlock' | hnone
        · exact .inl hlock'
        · exact absurd hu (hnone u)
      · by_cases hut : u = a.thread
        · subst hut
          rw [hp] at hn
          rw [State.set_pc_self] at htracked
          cases hn
          cases htracked
        · refine .inr ⟨c, id, ?_⟩
          rwa [State.set_pc_of_ne _ _ _ _ hut]
    · have hentered := h.completed _ hold
      rw [hp] at hentered
      cases hentered

/-- A callback that is looked up. -/
theorem Punctual.inHand_take (h : Punctual s) (hg : s.mem.toTable.Linked) (ha : Prompt s a) {n k : ℕ} {message : Json}
    {es : List Effect} {id : String} {callback : Callback} (hp : s.pc a.thread = .message n k message es)
    (hlock : s.mem.callbackManager.mapLock = none) (hid : callbackId? message = some id)
    (hf : s.mem.callbackManager.find id = some callback)
    (hm : m = { s.mem with
      callbackManager := if message.hasField "P" then s.mem.callbackManager else s.mem.callbackManager.erase id })
    (hn : Moves a.thread s.mem (s.pc a.thread) a.input m p) :
    Pc.InHand (s.set a.thread m p) (.calling n k message es callback) := by
  have hw : s.mem.Waits callback.invocation := ⟨id, callback, hf, rfl⟩
  refine ⟨entered_set hn (Pc.entered_of_tracked (h.tracked _ hw)), ?_⟩
  subst hm
  split
  · rename_i hP
    obtain ⟨hR, hremove⟩ := ha.lookup n k message es id callback hp hP hid hf
    refine ⟨hR, ?_⟩
    by_contra hne
    rcases h.stale _ hw hne with hl | ⟨c, id', hpc⟩
    · exact hl hlock
    · exact hremove c id' hpc
  · rintro ⟨id', callback', hf', he⟩
    simp only [State.set_mem] at hf'
    rw [CallbackManager.erase_find] at hf'
    split at hf'
    · cases hf'
    · rename_i hne
      -- an invocation has registered under its own id only
      obtain ⟨v, hv, hvid, -⟩ := hg.entry id callback hf
      obtain ⟨v', hv', hvid', -⟩ := hg.entry id' callback' hf'
      rw [he, hv] at hv'
      injection hv' with hv'
      rw [← hvid', ← hv', hvid] at hne
      exact hne rfl

theorem Punctual.inHand_set (h : Punctual s) (hg : s.mem.toTable.Linked) (ha : Prompt s a)
    (hn : Moves a.thread s.mem (s.pc a.thread) a.input m p) (v : ℕ) :
    ((s.set a.thread m p).pc v).InHand (s.set a.thread m p) := by
  by_cases hv : v = a.thread
  · subst hv
    rw [State.set_pc_self]
    have hn' := hn
    generalize hp : s.pc a.thread = q at hn
    generalize a.input = i at hn
    cases hn with
    | take n k message es id callback i hlock hid hf => exact h.inHand_take hg ha hp hlock hid hf rfl hn'
    | _ => trivial
  · have hin := h.inHand v
    have hpc : (s.set a.thread m p).pc v = s.pc v := State.set_pc_of_ne _ _ _ _ hv
    rw [hpc]
    cases hq : s.pc v with
    | calling n k message es callback =>
      rw [hq] at hin
      obtain ⟨hentered, hin⟩ := hin
      refine ⟨entered_set hn hentered, ?_⟩
      split at hin
      · rename_i hP
        rw [if_pos hP]
        refine ⟨hin.1, ?_⟩
        by_contra hne
        have hc := completes_of_moves hn (u := callback.invocation) (by rw [hin.2]; exact hne)
        refine ha.completion _ hc v ?_
        rw [hq]
        exact ⟨rfl, (progressData?_isSome message).mpr ⟨hP, hin.1⟩⟩
      · rename_i hP
        rw [if_neg hP]
        intro hw
        rcases waits_of_moves hn hw with hw | ⟨he, c, id, hp⟩
        · exact hin hw
        · rw [he, hp] at hentered
          cases hentered
    | _ => trivial

end

theorem punctual_holds {s : State Mem Pc} (h : prog.Reach Prompt s) : Punctual s := by
  refine h.invariant (J := Punctual) ?_ fun s a m p hr ha hi hn => ?_
  · refine ⟨fun u hu => ?_, fun u hu => ?_, fun u hu => ?_, fun t => trivial⟩
    · obtain ⟨id, callback, hf, -⟩ := hu
      cases hf
    · exact absurd rfl hu
    · obtain ⟨id, callback, hf, -⟩ := hu
      cases hf
  · obtain ⟨hg, hl⟩ := linked_holds hr.reachable
    have hmoves := next_moves hn
    refine ⟨fun u => hi.tracked_set hg (hl _) hmoves, fun u hu => ?_, fun u => hi.stale_set hg (hl _) hmoves,
      hi.inHand_set hg ha hmoves⟩
    refine entered_set hmoves ?_
    by_cases hold : s.mem.task u = none
    · exact hi.entered_of_completes (hl _) (completes_of_moves hmoves (by rw [hold]; exact hu))
    · exact hi.completed u hold

/-- **`on_progress` is called for open tasks only.** -/
theorem open_of_reports {s : State Mem Pc} (h : prog.Reach Prompt s) {t u : ℕ} (hu : (s.pc t).Reports u) :
    s.mem.task u = none := by
  have hin := (punctual_holds h).inHand t
  cases hp : s.pc t with
  | calling n k message es callback =>
    rw [hp] at hu hin
    obtain ⟨rfl, hdata⟩ := hu
    obtain ⟨hP, -⟩ := (progressData?_isSome message).mp hdata
    obtain ⟨-, hin⟩ := hin
    rw [if_pos hP] at hin
    exact hin.2
  | _ =>
    rw [hp] at hu
    cases hu

end SignalRClient.Hub
