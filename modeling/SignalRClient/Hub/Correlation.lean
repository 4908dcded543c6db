import SignalRClient.Hub.Model

/-!
# Ids, table entries and tasks

`Table.Linked` and `Pc.Linked` tie together what different threads know of an invocation: the id it put
in its request, the entry under this id in the callback table, and the callback that a message or a
clear has got out of the table.  They hold in every state (`linked_holds`), and every event that
reaches a task is then one of the invocation's own (`correlated`).
-/

namespace SignalRClient.Hub

open Threads

/-- The id of an invocation. -/
def Invocation.id (v : Invocation) : String := CallbackManager.idText (BitVec.ofNat 32 v.number)

/-! ## The assertions -/

/-- `callback` is the one that the invocation with this id has registered. -/
def Table.Owns (m : Table) (id : String) (callback : Callback) : Prop :=
  ∃ v, m.invocation callback.invocation = some v ∧ v.id = id ∧ v.call.void = callback.void

structure Table.Linked (m : Table) : Prop where
  counter : m.callbackManager.id = BitVec.ofNat 32 m.issued
  number_lt : ∀ t v, m.invocation t = some v → v.number < m.issued
  number_inj : ∀ t u v w, m.invocation t = some v → m.invocation u = some w → v.number = w.number → t = u
  entry : ∀ id callback, m.callbackManager.find id = some callback → m.Owns id callback

/-- What a thread knows. -/
def Pc.Linked (t : ℕ) (m : Table) : Pc → Prop
  | .conn _ | .message _ _ _ _ | .clear _ none | .invoke _ .getId => m.invocation t = none
  | .invoke c (.insert id) | .invoke c (.request id) | .invoke c (.sending id) | .invoke c (.failed id _)
  | .invoke c (.remove id) => ∃ v, m.invocation t = some v ∧ v.call = c ∧ v.id = id
  | .invoke c (.check id request _) | .invoke c (.send id request) =>
    (∃ v, m.invocation t = some v ∧ v.call = c ∧ v.id = id) ∧ request = invocationRequest c id
  | .invoke _ _ => True
  | .calling _ _ answer _ callback =>
    m.invocation t = none ∧ ∃ id, callbackId? answer = some id ∧ m.Owns id callback
  | .clear _ (some rest) =>
    m.invocation t = none ∧ m.callbackManager.mapLock = some t ∧
      ∀ e ∈ rest, m.callbackManager.find e.1 = some e.2

/-! ## One step -/

/-- What a step of thread `t` leaves to the others. -/
structure Table.Frame (t : ℕ) (m m' : Table) : Prop where
  invocation : ∀ u, u ≠ t → m'.invocation u = m.invocation u
  locked : ∀ u, u ≠ t → m.callbackManager.mapLock = some u →
    m'.callbackManager.mapLock = some u ∧ ∀ id, m'.callbackManager.find id = m.callbackManager.find id

theorem Table.Frame.refl (t : ℕ) (m : Table) : m.Frame t m :=
  ⟨fun _ _ => rfl, fun _ _ h => ⟨h, fun _ => rfl⟩⟩

/-- The table is used with the lock that no other thread has. -/
theorem Table.Frame.of_free {t : ℕ} {m m' : Table} (h : m.callbackManager.mapLock = none)
    (hi : m'.invocation = m.invocation) : m.Frame t m' := by
  refine ⟨fun u _ => by rw [hi], fun u _ hu => ?_⟩
  rw [h] at hu
  cases hu

/-- … or with the lock that the thread itself has. -/
theorem Table.Frame.of_own {t : ℕ} {m m' : Table} (h : m.callbackManager.mapLock = some t)
    (hi : m'.invocation = m.invocation) : m.Frame t m' := by
  refine ⟨fun u _ => by rw [hi], fun u hut hu => ?_⟩
  rw [h] at hu
  exact absurd (Option.some.inj hu).symm hut

/-- Entries that stay are still those of their invocations. -/
theorem Table.Linked.of_find {m m' : Table} (h : m.Linked)
    (hid : m'.callbackManager.id = m.callbackManager.id) (his : m'.issued = m.issued)
    (hi : m'.invocation = m.invocation)
    (hf : ∀ id callback, m'.callbackManager.find id = some callback →
      m.callbackManager.find id = some callback ∨ m.Owns id callback) : m'.Linked := by
  refine ⟨?_, ?_, ?_, fun id callback he => ?_⟩
  · rw [hid, his]
    exact h.counter
  · rw [hi, his]
    exact h.number_lt
  · rw [hi]
    exact h.number_inj
  · unfold Table.Owns
    rw [hi]
    rcases hf id callback he with he | he
    · exact h.entry id callback he
    · exact he

/-- What a step does to the assertions on the table and on the thread that steps. -/
structure Table.Kept (t : ℕ) (m m' : Table) (p' : Pc) : Prop where
  linked : m'.Linked
  pc : p'.Linked t m'
  frame : m.Frame t m'
  mono : ∀ u v, m.invocation u = some v → m'.invocation u = some v

theorem Table.Kept.same {t : ℕ} {m : Table} {p' : Pc} (h : m.Linked) (hp : p'.Linked t m) : m.Kept t m p' :=
  ⟨h, hp, .refl t m, fun _ _ hv => hv⟩

theorem getId_kept {t : ℕ} {m : Table} (h : m.Linked) (ht : m.invocation t = none) (c : Call) :
    m.Kept t { m with callbackManager := m.callbackManager.getCallbackId.2
                      issued := m.issued + 1
                      invocation := Function.update m.invocation t (some ⟨c, m.issued⟩) }
      (.invoke c (.insert m.callbackManager.getCallbackId.1)) := by
  have hmono : ∀ u v, m.invocation u = some v →
      Function.update m.invocation t (some ⟨c, m.issued⟩) u = some v := by
    intro u v hv
    have hut : u ≠ t := by
      rintro rfl
      rw [ht] at hv
      cases hv
    rw [Function.update_of_ne hut, hv]
  have hcases : ∀ u v, Function.update m.invocation t (some ⟨c, m.issued⟩) u = some v →
      (u = t ∧ v.number = m.issued) ∨ (u ≠ t ∧ v.number < m.issued ∧ m.invocation u = some v) := by
    intro u v hv
    by_cases hut : u = t
    · subst hut
      rw [Function.update_self] at hv
      cases hv
      exact .inl ⟨rfl, rfl⟩
    · rw [Function.update_of_ne hut] at hv
      exact .inr ⟨hut, h.number_lt u v hv, hv⟩
  refine ⟨⟨?_, fun u v hv => ?_, fun u u' v w hv hw hn => ?_, fun id callback hf => ?_⟩, ?_, ⟨fun u hut => ?_, ?_⟩, hmono⟩
  · show m.callbackManager.id + 1 = BitVec.ofNat 32 (m.issued + 1)
    rw [h.counter, BitVec.ofNat_add]
    rfl
  · show v.number < m.issued + 1
    rcases hcases u v hv with ⟨-, he⟩ | ⟨-, hlt, -⟩ <;> omega
  · rcases hcases u v hv with ⟨hu, he⟩ | ⟨-, hlt, hv'⟩ <;> rcases hcases u' w hw with ⟨hu', he'⟩ | ⟨-, hlt', hw'⟩
    · rw [hu, hu']
    · omega
    · omega
    · exact h.number_inj u u' v w hv' hw' hn
  · obtain ⟨v, hv, hid, hvoid⟩ := h.entry id callback hf
    exact ⟨v, hmono _ v hv, hid, hvoid⟩
  · refine ⟨⟨c, m.issued⟩, Function.update_self .., rfl, ?_⟩
    show CallbackManager.idText _ = CallbackManager.idText m.callbackManager.id
    rw [h.counter]
  · exact Function.update_of_ne hut ..
  · exact fun u _ hu => ⟨hu, fun _ => rfl⟩

/-- **Step lemma.** -/
theorem moves_kept {t : ℕ} {m m' : Mem} {p p' : Pc} {i : Input} (h : Moves t m p i m' p')
    (hm : m.toTable.Linked) (hp : p.Linked t m.toTable) : m.toTable.Kept t m'.toTable p' := by
  cases h with
  | connection hn hi =>
    rw [afterConnection_toTable]
    exact .same hm hp
  | invoke c => exact .same hm hp
  | stop => exact .same hm hp
  | lost n k c => exact .same hm hp
  | receive n k message es => exact .same hm hp
  | getId c => exact getId_kept hm hp c
  | insert c id i hl =>
    obtain ⟨v, hv, rfl, hid⟩ := hp
    refine ⟨hm.of_find (by simp) rfl rfl fun k callback hf => ?_, ⟨v, hv, rfl, hid⟩, .of_free hl rfl,
      fun _ _ hv => hv⟩
    simp only [CallbackManager.insert_find] at hf
    split at hf
    · rename_i hk
      injection hf with hf
      refine .inr ⟨v, ?_, hid.trans hk.1.symm, ?_⟩
      · rw [← hf]
        exact hv
      · rw [← hf]
    · exact .inl hf
  | request c id => exact .same hm ⟨hp, rfl⟩
  | reject c id request transport i hr => exact .same hm hp.1
  | pass c id request n i hc => exact .same hm hp
  | sendThrows c id request => exact .same hm trivial
  | send c id request => exact .same hm hp.1
  | sent c id => exact .same hm trivial
  | fault c id => exact .same hm hp
  | faultOther c id => exact .same hm trivial
  | fail c id e => exact .same hm hp
  | remove c id i hl =>
    refine ⟨hm.of_find rfl rfl rfl fun k callback hf => ?_, trivial, .of_free hl rfl, fun _ _ hv => hv⟩
    simp only [CallbackManager.erase_find] at hf
    split at hf
    · cases hf
    · exact .inl hf
  | discard n k message es => exact .same hm hp
  | take n k message es id callback i hl hid hf =>
    have hown := hm.entry id callback hf
    refine ⟨hm.of_find ?_ rfl rfl fun k callback' hf' => ?_, ⟨hp, id, hid, hown⟩, .of_free hl rfl, fun _ _ hv => hv⟩
    · show (ite _ _ _ : CallbackManager Callback).id = _
      split <;> rfl
    · simp only at hf'
      split at hf'
      · exact .inl hf'
      · rw [CallbackManager.erase_find] at hf'
        split at hf'
        · cases hf'
        · exact .inl hf'
  | call n k message es callback =>
    rw [callback_toTable]
    exact .same hm hp.1
  | lock w i hl =>
    refine ⟨hm.of_find rfl rfl rfl fun k callback hf => .inl hf, ⟨hp, rfl, fun e he => ?_⟩, .of_free hl rfl,
      fun _ _ hv => hv⟩
    exact (CallbackManager.mem_entries m.callbackManager).mp he
  | pick w rest j e he =>
    rw [callback_toTable]
    exact .same hm ⟨hp.1, hp.2.1, fun e' he' => hp.2.2 e' (List.mem_of_mem_eraseIdx he')⟩
  | clearedStop =>
    exact ⟨hm.of_find rfl rfl rfl (fun k callback hf => by cases hf), hp.1, .of_own hp.2.1 rfl, fun _ _ hv => hv⟩
  | clearedLost n k c =>
    exact ⟨hm.of_find rfl rfl rfl (fun k callback hf => by cases hf), hp.1, .of_own hp.2.1 rfl, fun _ _ hv => hv⟩

/-- The assertions on the other threads. -/
theorem Pc.Linked.frame {t u : ℕ} {m m' : Table} {p p' : Pc} (hu : u ≠ t) (h : m.Kept t m' p')
    (hp : p.Linked u m) : p.Linked u m' := by
  have hinv := h.frame.invocation u hu
  have hown : ∀ id callback, m.Owns id callback → m'.Owns id callback := by
    rintro id callback ⟨v, hv, hid, hvoid⟩
    exact ⟨v, h.mono _ v hv, hid, hvoid⟩
  unfold Pc.Linked at hp ⊢
  rw [← hinv] at hp
  split at hp
  all_goals try exact hp
  · obtain ⟨ht, id, hid, hc⟩ := hp
    exact ⟨ht, id, hid, hown id _ hc⟩
  · obtain ⟨ht, hl, hf⟩ := hp
    obtain ⟨hl', hf'⟩ := h.frame.locked u hu hl
    exact ⟨ht, hl', fun e he => (hf' e.1).trans (hf e he)⟩

/-- **Run lemma.** -/
theorem linked_holds {s : State Mem Pc} (h : prog.Reachable s) :
    s.mem.toTable.Linked ∧ ∀ t, (s.pc t).Linked t s.mem.toTable := by
  refine h.invariant (J := fun s => s.mem.toTable.Linked ∧ ∀ t, (s.pc t).Linked t s.mem.toTable) ?_ ?_
  · refine ⟨⟨rfl, fun t v hv => ?_, fun t u v w hv => ?_, fun id callback hf => ?_⟩, fun t => rfl⟩
    · cases hv
    · cases hv
    · cases hf
  · intro s a m p _ _ hi hn
    have hk := moves_kept (next_moves hn) hi.1 (hi.2 a.thread)
    refine ⟨hk.linked, fun u => ?_⟩
    by_cases hu : u = a.thread
    · subst hu
      rw [State.set_pc_self]
      exact hk.pc
    · rw [State.set_pc_of_ne _ _ _ _ hu]
      exact (hi.2 u).frame hu hk

/-! ## The events of an invocation -/

/-- The step `a` from `s` brings the completion to the task of invocation `t`: a message that answers and
names the id of `t`, the failure of the send of `t`, or a clear of the table with the callback of `t` in
it. -/
inductive Own (s : State Mem Pc) (a : Act Input) (t : ℕ) : Completion → Prop where
  | answer {n k : ℕ} {message : Json} {es : List Effect} {callback : Callback} {v : Invocation} {c : Completion} :
      s.pc a.thread = .calling n k message es callback → callback.invocation = t → Answers message →
      s.mem.invocation t = some v → callbackId? message = some v.id →
      (invocationReply message).completion? v.call.void = some c → Own s a t c
  | sendFailed {call : Call} {id : String} {e : SendError} :
      a.thread = t → s.pc t = .invoke call (.failed id e) → Own s a t (.sendError e)
  | cleared {w : Clearing} {rest : List (Sigma fun _ : String => Callback)} {j : ℕ} {callback : Callback}
      {v : Invocation} {c : Completion} :
      s.pc a.thread = .clear w (some rest) → a.input = .pick j → rest[j]? = some ⟨v.id, callback⟩ →
      callback.invocation = t → s.mem.invocation t = some v → s.mem.callbackManager.find v.id = some callback →
      (invocationReply w.arguments).completion? v.call.void = some c → Own s a t c

/-- The step calls the `on_progress` of invocation `t`: a message with a field `P` that names its id. -/
def OnProgress (s : State Mem Pc) (a : Act Input) (t : ℕ) (data : Json) : Prop :=
  ∃ n k message es callback v, s.pc a.thread = .calling n k message es callback ∧ callback.invocation = t ∧
    message.hasField "P" = true ∧ s.mem.invocation t = some v ∧ callbackId? message = some v.id ∧
    progressData? message = some data

theorem completion?_arguments (w : Clearing) (void : Bool) :
    ∃ c, (invocationReply w.arguments).completion? void = some c := by
  cases w <;> exact ⟨_, rfl⟩

theorem progressData?_arguments (w : Clearing) : progressData? w.arguments = none := by
  cases w <;> rfl

section

variable {s : State Mem Pc} {a : Act Input} {m : Mem} {p : Pc}

/-- An event of its own completes the task, unless it is completed already. -/
theorem Own.completes {t : ℕ} {c : Completion} (h : Own s a t c) (hl : (s.pc a.thread).Linked a.thread s.mem.toTable)
    (hg : s.mem.toTable.Linked) (hn : Moves a.thread s.mem (s.pc a.thread) a.input m p) :
    m.task t = some ((s.mem.task t).getD c) := by
  cases h with
  | @answer n k message es callback v c hp ht _ hv _ hc =>
    rw [hp] at hn hl
    obtain ⟨-, id, -, v', hv', -, hvoid⟩ := hl
    rw [ht, hv] at hv'
    injection hv' with hv'
    rw [← hv'] at hvoid
    cases hn
    rw [callback_task, ← hvoid, hc, ht]
    exact Function.update_self ..
  | sendFailed ht hp =>
    rw [ht, hp] at hn
    cases hn
    exact Function.update_self ..
  | @cleared w rest j callback v c hp hi hj ht hv hf hc =>
    rw [hp, hi] at hn
    obtain ⟨v', hv', -, hvoid⟩ := hg.entry _ _ hf
    rw [ht, hv] at hv'
    injection hv' with hv'
    rw [← hv'] at hvoid
    cases hn with
    | pick _ _ _ e he =>
      rw [hj] at he
      injection he with he
      rw [callback_task, ← he]
      dsimp only
      rw [← hvoid, hc, ht]
      exact Function.update_self ..
    -- `clear` ends when there is nothing left to pick
    | clearedStop => cases hj
    | clearedLost => cases hj

/-- Nothing else changes it. -/
theorem task_eq_of_not_own {t : ℕ} (h : ∀ c, ¬ Own s a t c)
    (hl : (s.pc a.thread).Linked a.thread s.mem.toTable) (hg : s.mem.toTable.Linked)
    (hn : Moves a.thread s.mem (s.pc a.thread) a.input m p) : m.task t = s.mem.task t := by
  generalize hp : s.pc a.thread = q at hl hn
  generalize hi : a.input = i at hn
  cases hn with
  | connection hn' => rw [afterConnection_task]
  | fail c id e =>
    refine Function.update_of_ne ?_ ..
    rintro rfl
    exact h _ (.sendFailed rfl hp)
  | call n k message es callback =>
    rw [callback_task]
    split
    · rename_i c hc
      refine Function.update_of_ne ?_ ..
      rintro rfl
      obtain ⟨-, id, hid, v, hv, rfl, hvoid⟩ := hl
      rw [← hvoid] at hc
      refine h c (.answer hp rfl ?_ hv hid hc)
      rw [← completion?_isSome v.call.void, hc]
      rfl
    · rfl
  | pick w rest j e he =>
    obtain ⟨-, -, hfind⟩ := hl
    have hf := hfind e (List.mem_of_getElem? he)
    obtain ⟨v, hv, hid, hvoid⟩ := hg.entry _ _ hf
    obtain ⟨c, hc⟩ := completion?_arguments w e.2.void
    rw [callback_task, hc]
    refine Function.update_of_ne ?_ ..
    rintro rfl
    rw [← hvoid] at hc
    refine h c (.cleared hp hi ?_ rfl hv ?_ hc)
    · rw [he, hid]
    · rw [hid, hf]
  | _ => rfl

theorem OnProgress.calls {t : ℕ} {data : Json} (h : OnProgress s a t data)
    (hn : Moves a.thread s.mem (s.pc a.thread) a.input m p) : m.progress t = s.mem.progress t ++ [data] := by
  obtain ⟨n, k, message, es, callback, v, hp, ht, -, -, -, hd⟩ := h
  rw [hp] at hn
  cases hn
  rw [callback_progress, hd, ht]
  exact Function.update_self ..

theorem progress_eq_of_not_onProgress {t : ℕ} (h : ∀ data, ¬ OnProgress s a t data)
    (hl : (s.pc a.thread).Linked a.thread s.mem.toTable)
    (hn : Moves a.thread s.mem (s.pc a.thread) a.input m p) : m.progress t = s.mem.progress t := by
  generalize hp : s.pc a.thread = q at hl hn
  generalize a.input = i at hn
  cases hn with
  | connection hn' => rw [afterConnection_progress]
  | call n k message es callback =>
    rw [callback_progress]
    split
    · rename_i data hd
      refine Function.update_of_ne ?_ ..
      rintro rfl
      obtain ⟨-, id, hid, v, hv, rfl, -⟩ := hl
      refine h data ⟨n, k, message, es, callback, v, hp, rfl, ?_, hv, hid, hd⟩
      unfold progressData? at hd
      split at hd
      · cases hd
      · obtain ⟨x, hx, -⟩ := Option.map_eq_some_iff.mp hd
        rw [Json.hasField, hx]
        rfl
    · rfl
  | pick w rest j e he =>
    rw [callback_progress, progressData?_arguments]
  | _ => rfl

end

/-- Fewer than 2 ^ 32 invocations have different ids. -/
theorem Table.Linked.id_inj {m : Table} (h : m.Linked) (hlim : m.issued < 2 ^ 32) {t u : ℕ} {v w : Invocation}
    (hv : m.invocation t = some v) (hw : m.invocation u = some w) (he : v.id = w.id) : t = u := by
  have hlt := h.number_lt t v hv
  have hlt' := h.number_lt u w hw
  exact h.number_inj t u v w hv hw (CallbackManager.idText_ofNat_inj (by omega) (by omega) he)

/-- The request that a thread is about to send. -/
def Pc.request? : Pc → Option Json
  | .invoke _ (.check _ request _) | .invoke _ (.send _ request) => some request
  | _ => none

/-- **Correlation.**  In every step of every run with fewer than 2 ^ 32 invocations, a task is completed by
the first event of its own, with what that event brings, and by nothing else; `on_progress` is called for
the progress messages of its own and for nothing else; and no two invocations have the same id, which is
the one in their request. -/
theorem correlated {s s' : State Mem Pc} {a : Act Input} (h : prog.Reachable s) (hs : prog.step s a = some s')
    (hlim : s'.mem.issued < 2 ^ 32) :
    (∀ t c, s.mem.task t = some c → s'.mem.task t = some c) ∧
    (∀ t c, Own s a t c → s'.mem.task t = some ((s.mem.task t).getD c)) ∧
    (∀ t, (∀ c, ¬ Own s a t c) → s'.mem.task t = s.mem.task t) ∧
    (∀ t data, OnProgress s a t data → s'.mem.progress t = s.mem.progress t ++ [data]) ∧
    (∀ t, (∀ data, ¬ OnProgress s a t data) → s'.mem.progress t = s.mem.progress t) ∧
    (∀ t u v w, s'.mem.invocation t = some v → s'.mem.invocation u = some w → v.id = w.id → t = u) ∧
    (∀ t request, (s'.pc t).request? = some request →
      ∃ v, s'.mem.invocation t = some v ∧ request.stringField? "I" = some v.id) := by
  have h' : prog.Reachable s' := h.step trivial hs
  obtain ⟨m, p, hn, rfl⟩ := Program.step_eq_some.mp hs
  have hmoves := next_moves hn
  obtain ⟨hg, hl⟩ := linked_holds h
  obtain ⟨hg', hl'⟩ := linked_holds h'
  have hcomplete : ∀ t c, Own s a t c → m.task t = some ((s.mem.task t).getD c) :=
    fun t c ho => ho.completes (hl a.thread) hg hmoves
  have hkeep : ∀ t, (∀ c, ¬ Own s a t c) → m.task t = s.mem.task t :=
    fun t ho => task_eq_of_not_own ho (hl a.thread) hg hmoves
  refine ⟨fun t c hc => ?_, hcomplete, hkeep, fun t data ho => ?_, fun t ho => ?_, ?_, fun t request hr => ?_⟩
  · show m.task t = some c
    by_cases ho : ∃ d, Own s a t d
    · obtain ⟨d, ho⟩ := ho
      rw [hcomplete t d ho, hc]
      rfl
    · rw [hkeep t fun d hd => ho ⟨d, hd⟩, hc]
  · exact ho.calls hmoves
  · exact progress_eq_of_not_onProgress ho (hl a.thread) hmoves
  · exact fun t u v w hv hw he => hg'.id_inj hlim hv hw he
  · have ht := hl' t
    unfold Pc.request? at hr
    split at hr
    · rename_i c id r tr hp
      rw [hp] at ht
      obtain ⟨⟨v, hv, -, rfl⟩, rfl⟩ := ht
      injection hr with hr
      rw [← hr]
      exact ⟨v, hv, rfl⟩
    · rename_i c id r hp
      rw [hp] at ht
      obtain ⟨⟨v, hv, -, rfl⟩, rfl⟩ := ht
      injection hr with hr
      rw [← hr]
      exact ⟨v, hv, rfl⟩
    · cases hr

/-- The answer to the invocation with the id 0. -/
def sampleAnswer : Json := .object [("I", .string "0"), ("R", .integer 42)]

/-- It arrives while the invocation (thread 3) waits for it. -/
theorem correlated_answer :
    ∃ s s', prog.step s (task 4 .ok) = some s' ∧ s.mem.task 3 = none ∧
      s'.mem.task 3 = some (.result (.integer 42)) := by
  obtain ⟨s, hr, hf⟩ := prog.exists_of_run Test.all
    (started ++ [invoking 3] ++ tasks 3 6 ++ [lift (Connection.call 4 (.message 1 (some sampleAnswer)))] ++ tasks 4 3)
    (fun s => (s.pc 4, s.mem.invocation 3, s.mem.task 3, (prog.step s (task 4 .ok)).map (·.mem.issued)))
    (.calling 1 1 sampleAnswer [] ⟨3, false⟩, some ⟨⟨false, "hub", "method", .array []⟩, 0⟩, none, some 1) rfl
  simp only [Prod.mk.injEq, Option.map_eq_some_iff] at hf
  obtain ⟨hp, hv, ht, s', hs', hlim⟩ := hf
  obtain ⟨-, hcomplete, -⟩ := correlated hr hs' (by rw [hlim]; decide)
  have hown : Own s (task 4 .ok) 3 (.result (.integer 42)) :=
    .answer hp rfl (.inl rfl) hv rfl rfl
  refine ⟨s, s', hs', ht, ?_⟩
  rw [hcomplete 3 _ hown, ht]
  rfl

end SignalRClient.Hub
