import SignalRClient.Hub.Loss

/-!
# When a callback leaves the table

Two places decide about it on their own.  `invoke_callback` keeps a callback for the messages that have a field
`P`, while the callback itself completes the task for those that have a field `R`; the two agree unless a message
has both (`agrees_iff`).  And the continuation of `send()` takes back the callback of an invocation whose send has
failed, which a send that throws before it returns a task does not reach (`taken_back_iff`).
-/

namespace SignalRClient.Hub

open Threads

/-! ## Messages -/

/-- The two classifications agree: `m` is the memory before the message, `m'` that behind the call of the
callback. -/
structure Agrees (m m' : Mem) (id : String) (callback : Callback) : Prop where
  removed : m'.callbackManager.find id = none ↔ m'.task callback.invocation ≠ none
  kept : m'.callbackManager.find id = some callback ↔
    m'.progress callback.invocation ≠ m.progress callback.invocation

theorem callback_task_of_not_answers {m : Mem} {callback : Callback} {message : Json} (h : ¬ Answers message) :
    (m.callback callback message).task = m.task := by
  have hnone : (invocationReply message).completion? callback.void = none := by
    rw [← Option.not_isSome_iff_eq_none, completion?_isSome]
    exact h
  rw [callback_task, hnone]

theorem callback_progress_iff {m : Mem} {callback : Callback} {message : Json} :
    (m.callback callback message).progress callback.invocation ≠ m.progress callback.invocation ↔
      (progressData? message).isSome = true := by
  rw [callback_progress]
  cases progressData? message with
  | none => simp
  | some data => simp [Function.update_self]

theorem not_answers_iff (message : Json) : ¬ Answers message ↔ (progressData? message).isSome = true := by
  unfold Answers progressData?
  cases hR : message.hasField "R" <;> simp [Json.hasField, Option.isSome_iff_ne_none]

/-- What the lookup for a message does to the table. -/
theorem of_runMessage {m m₁ : Mem} {n k n' k' : ℕ} {message message' : Json} {es es' : List Effect}
    {callback : Callback} (h : runMessage m n k message es = some (m₁, .calling n' k' message' es' callback))
    {id : String} (hid : callbackId? message = some id) :
    m.callbackManager.find id = some callback ∧ m₁.task = m.task ∧ m₁.progress = m.progress ∧
      m₁.callbackManager.find id = if message.hasField "P" then some callback else none := by
  have hmoves := runMessage_moves (t := 0) (i := .pick 0) h
  cases hmoves with
  | take _ _ _ _ id' _ _ hl hid' hf =>
    rw [hid] at hid'
    injection hid' with hid'
    subst hid'
    refine ⟨hf, rfl, rfl, ?_⟩
    cases hP : message.hasField "P" with
    | true => exact hf
    | false =>
      show CallbackManager.find (m.callbackManager.erase id) id = none
      rw [CallbackManager.erase_find, if_pos rfl]

/-- **The two classifications of a message agree unless it has both fields.** -/
theorem agrees_iff {m m₁ : Mem} {n k : ℕ} {message : Json} {es : List Effect} {id : String} {callback : Callback}
    (h : runMessage m n k message es = some (m₁, .calling n k message es callback))
    (hid : callbackId? message = some id) (hopen : m.task callback.invocation = none) :
    Agrees m (m₁.callback callback message) id callback ↔
      ¬ (message.hasField "R" = true ∧ message.hasField "P" = true) := by
  obtain ⟨-, htask, hprogress, hfind⟩ := of_runMessage h hid
  have hremoved : (m₁.callback callback message).callbackManager.find id =
      if message.hasField "P" then some callback else none := by
    rw [callback_toTable]
    exact hfind
  have hcompleted : (m₁.callback callback message).task callback.invocation ≠ none ↔ Answers message := by
    by_cases ha : Answers message
    · exact iff_of_true (callback_task_self ha) ha
    · refine iff_of_false ?_ ha
      rw [callback_task_of_not_answers ha, htask, not_not]
      exact hopen
  have hreported : (m₁.callback callback message).progress callback.invocation ≠ m.progress callback.invocation ↔
      ¬ Answers message := by
    rw [← hprogress, callback_progress_iff, not_answers_iff]
  have hagrees : Agrees m (m₁.callback callback message) id callback ↔
      (message.hasField "P" = false ↔ Answers message) := by
    refine ⟨fun hag => ?_, fun hag => ⟨?_, ?_⟩⟩
    · have hr := hag.removed
      rw [hremoved, hcompleted] at hr
      rw [← hr]
      cases message.hasField "P" <;> simp
    · rw [hremoved, hcompleted, ← hag]
      cases message.hasField "P" <;> simp
    · rw [hremoved, hreported, ← hag]
      cases message.hasField "P" <;> simp
  rw [hagrees]
  unfold Answers
  cases message.hasField "P" <;> cases message.hasField "R" <;> simp

/-- One invocation (thread 3) is pending. -/
def pendingMem : Mem := { callbackManager := ({} : CallbackManager Callback).insert "0" ⟨3, false⟩ }

theorem agrees_sampleAnswer :
    ∃ m₁ : Mem, Agrees pendingMem (m₁.callback ⟨3, false⟩ sampleAnswer) "0" ⟨3, false⟩ := by
  have hrun : runMessage pendingMem 1 1 sampleAnswer [] =
      some ({ pendingMem with callbackManager := pendingMem.callbackManager.erase "0" },
        .calling 1 1 sampleAnswer [] ⟨3, false⟩) := rfl
  exact ⟨_, (agrees_iff hrun rfl rfl).mpr (by decide)⟩

/-- A message that brings a result and has a field `P` too. -/
def sampleBoth : Json := .object [("I", .string "0"), ("P", .object [("I", .string "0")]), ("R", .integer 42)]

/-- It completes the task and leaves the callback in the table. -/
theorem both_disagrees : ¬ ∀ (m m₁ : Mem) (n k : ℕ) (message : Json) (es : List Effect) (id : String)
    (callback : Callback), runMessage m n k message es = some (m₁, .calling n k message es callback) → callbackId? message = some id →
      m.task callback.invocation = none → Agrees m (m₁.callback callback message) id callback := by
  intro hall
  have hagrees := hall pendingMem pendingMem 1 1 sampleBoth [] "0" ⟨3, false⟩ rfl rfl rfl
  have hkept : (pendingMem.callback ⟨3, false⟩ sampleBoth).callbackManager.find "0" = some ⟨3, false⟩ := rfl
  have hcompleted : (pendingMem.callback ⟨3, false⟩ sampleBoth).task 3 ≠ none := by
    exact Option.some_ne_none _
  rw [hagrees.removed.mpr hcompleted] at hkept
  cases hkept

/-! ## Sends that fail -/

/-- The failure of an invocation by its send has been handled: the continuation of `send()` is done with it, or
the call of `invoke_json` or `invoke_void` has thrown. -/
def Pc.Handled (p : Pc) : Prop := ∃ c, p = .invoke c .rejected ∨ p = .invoke c .thrown

/-- The step is a call of `send()` that throws before it returns a task. -/
def throws : Pc → Input → Bool
  | .invoke _ (.send _ _), .conn (.task .throws) | .invoke _ (.send _ _), .conn (.task .throwsOther) => true
  | _, _ => false

/-- **A failed send leaves no callback registered**, when it fails by its task. -/
theorem taken_back_iff {s s' : State Mem Pc} {a : Act Input} (h : prog.Reachable s) (hs : prog.step s a = some s')
    (hh : (s'.pc a.thread).Handled) :
    ¬ s'.mem.Waits a.thread ↔ ¬ (throws (s.pc a.thread) a.input = true ∧ s.mem.Waits a.thread) := by
  obtain ⟨m, p, hn, rfl⟩ := Program.step_eq_some.mp hs
  have htracked := @tracked_holds _ (h.step trivial hs) a.thread
  rw [State.set_pc_self] at hh htracked
  obtain ⟨c, rfl | rfl⟩ := hh
  · refine iff_of_true (fun hw => ?_) fun hthrows => ?_
    · cases htracked hw
    · -- a send that throws does not get there
      have hmoves := next_moves hn
      obtain ⟨ht, -⟩ := hthrows
      generalize s.pc a.thread = q at hmoves ht
      generalize a.input = i at hmoves ht
      cases hmoves
      cases ht
  · have hn' : next a.thread s.mem (s.pc a.thread) a.input = some (m, .invoke c .thrown) := hn
    have hmoves := next_moves hn'
    generalize hp : s.pc a.thread = q at hmoves hn'
    generalize a.input = i at hmoves hn'
    cases hmoves with
    | sendThrows _ id request =>
      have hthrows : throws (.invoke c (.send id request)) i = true := by
        unfold next at hn'
        split at hn'
        · cases hn'
        · simp only [runInvoke] at hn'
          split at hn'
          · rfl
          · rfl
          · cases hn'
      rw [hthrows]
      simp

/-- An invocation (thread 3) whose send fails by its task, up to the removal of its callback. -/
def failing : List (Act Input) := started ++ [invoking 3] ++ tasks 3 5 ++ [task 3 .fault] ++ tasks 3 1

theorem taken_back_failing : ∃ s', prog.Reachable s' ∧ ¬ s'.mem.Waits 3 ∧ (s'.mem.task 3).isSome = true := by
  obtain ⟨s, h, hf⟩ := prog.exists_of_run Test.all failing
    (fun s => (s.pc 3, (prog.step s (task 3 .ok)).map fun s' => (s'.pc 3, (s'.mem.task 3).isSome)))
    (.invoke ⟨false, "hub", "method", .array []⟩ (.remove "0"),
      some (.invoke ⟨false, "hub", "method", .array []⟩ .rejected, true)) rfl
  simp only [Prod.mk.injEq, Option.map_eq_some_iff] at hf
  obtain ⟨hp, s', hs', hp', htask⟩ := hf
  refine ⟨s', h.step trivial hs', (taken_back_iff h hs' ⟨_, .inl hp'⟩).mpr ?_, htask⟩
  show ¬ (throws (s.pc 3) (.conn (.task .ok)) = true ∧ _)
  rw [hp]
  rintro ⟨hthrows, -⟩
  cases hthrows

/-- A send that throws leaves the callback of the invocation in the table. -/
theorem throwing_send_registered : ¬ ∀ s s' a, prog.Reachable s → prog.step s a = some s' →
    (s'.pc a.thread).Handled → ¬ s'.mem.Waits a.thread := by
  intro hall
  obtain ⟨s, h, hf⟩ := prog.exists_of_run Test.all
    (started ++ [invoking 3] ++ tasks 3 4)
    (fun s => (prog.step s (task 3 .throws)).map fun s' => (s'.pc 3, s'.mem.callbackManager.find "0"))
    (some (.invoke ⟨false, "hub", "method", .array []⟩ .thrown, some ⟨3, false⟩)) rfl
  obtain ⟨s', hs', hf⟩ := Option.map_eq_some_iff.mp hf
  simp only [Prod.mk.injEq] at hf
  obtain ⟨hp, hfind⟩ := hf
  exact hall s s' (task 3 .throws) h hs' ⟨_, .inr hp⟩ ⟨"0", ⟨3, false⟩, hfind, rfl⟩

end SignalRClient.Hub
