import SignalRClient.Hub.Rest

/-!
# The destruction of a hub connection

The callbacks that are still in the table when the last shared pointer goes are called by `~callback_manager`.
Nobody else is in the table then: whoever registers, answers or clears has a shared pointer.

* `destruction_settles` — when the destructor is through, the task of every invocation is completed;
* `goes_out_of_scope` — once the user's `hub_connection` is gone, what is under way brings the destructor about.
-/

namespace SignalRClient.Hub.Lifetime

open Threads

/-! ## Without a shared pointer -/

/-- The thread runs the destructor. -/
def Pc.destroys : Pc → Bool
  | .destroy _ _ => true
  | _ => false

section

variable {t : ℕ}

theorem toTable_of_hub {m m' : Hub.Mem} {p p' : Hub.Pc} {i : Hub.Input} (h : Hub.Moves t m p i m' p')
    (hp : holding p = false) : m'.toTable = m.toTable := by
  cases h with
  | connection => exact afterConnection_toTable ..
  | invoke | stop | lost | receive | sent | fault | faultOther | fail => rfl
  | _ => cases hp

variable {m m' : Mem} {p p' : Pc} {i : Input}

/-- The table is left alone by whoever has no shared pointer and is not in the destructor. -/
theorem toTable_of_moves (h : Moves t m p i m' p') (hp : p.holds = false) (hd : p.destroys = false) :
    m'.hub.toTable = m.hub.toTable ∧ p'.destroys = false := by
  cases h with
  | keep hn => exact ⟨toTable_of_hub (next_moves hn) hp, rfl⟩
  | acquire hn => exact ⟨toTable_of_hub (next_moves hn) hp, rfl⟩
  | leave hn hold => exact absurd (hold.symm.trans hp) (by decide)
  | fail hn => exact ⟨toTable_of_hub (next_moves hn) rfl, rfl⟩
  | release | last => cases hp
  | destroyLock | destroyPick | destroyed => cases hd
  | _ => exact ⟨rfl, rfl⟩

/-- The destructor is begun with the last shared pointer. -/
theorem refs_of_destroys (h : Moves t m p i m' p') (hp : p'.destroys = true) : p.destroys = true ∨ m.refs = 1 := by
  cases h with
  | last q i he => exact .inr he
  | destroyLock | destroyPick => exact .inl rfl
  | _ => cases hp

theorem issued_of_moves (h : Moves t m p i m' p') : m.hub.issued ≤ m'.hub.issued := by
  cases h with
  | keep hn => exact issued_mono (next_moves hn)
  | acquire hn => exact issued_mono (next_moves hn)
  | leave hn => exact issued_mono (next_moves hn)
  | fail hn => exact issued_mono (next_moves hn)
  | destroyPick =>
    rw [callback_toTable]
  | _ => exact le_rfl

end

theorem Accounted.destroys {s : State Mem Pc} (h : Accounted s) {t : ℕ} (ht : (s.pc t).destroys = true) :
    s.mem.refs = 0 := by
  cases hp : s.pc t with
  | destroy p rest => exact (h.destroyed t p rest hp).2
  | _ =>
    rw [hp] at ht
    cases ht

/-- Whoever lets go of the last shared pointer is the only one who has one. -/
theorem Accounted.holding_eq {s : State Mem Pc} (h : Accounted s) {t : ℕ} {q : Hub.Pc} (ht : s.pc t = .release q)
    (hrefs : s.mem.refs = 1) {u : ℕ} {p : Hub.Pc} (hu : s.pc u = .hub p) : holding p = false := by
  by_contra hold
  have hne : t ≠ u := by
    rintro rfl
    rw [ht] at hu
    cases hu
  have hholds : (s.pc u).holds = true := by
    rw [hu]
    exact eq_true_of_ne_false hold
  obtain ⟨S, hS, hcard⟩ := h.count
  have htwo : 1 < S.card := Finset.one_lt_card.mpr ⟨t, (hS t).mpr (by rw [ht]; rfl), u, (hS u).mpr hholds, hne⟩
  omega

/-- A thread that is inside the hub connection has a shared pointer, unless it has its weak pointer to lock. -/
theorem Accounted.hub_of_holding {s : State Mem Pc} (h : Accounted s) {u : ℕ}
    (hold : holding (s.pc u).toHub = true) (hremove : ∀ c id, (s.pc u).toHub ≠ .invoke c (.remove id)) :
    ∃ p, s.pc u = .hub p := by
  cases hp : s.pc u with
  | hub p => exact ⟨p, rfl⟩
  | lock c id =>
    rw [hp] at hremove
    exact absurd rfl (hremove c id)
  | release p =>
    rw [hp] at hold
    exact absurd (hold.symm.trans (h.released u p hp)) (by decide)
  | destroy p rest =>
    rw [hp] at hold
    exact absurd (hold.symm.trans (h.destroyed u p rest hp).1) (by decide)

/-! ## What the destructor owes -/

/-- The destructor will call the callback of invocation `u`. -/
def Pc.Attends (m : Hub.Mem) (u : ℕ) : Pc → Prop
  | .destroy _ none => m.Waits u
  | .destroy _ (some rest) => ∃ e ∈ rest, e.2.invocation = u
  | _ => False

/-- The task of invocation `u` is completed, or the destructor will do it. -/
def Cared (s : State Mem Pc) (u : ℕ) : Prop := s.mem.hub.task u ≠ none ∨ ∃ t, (s.pc t).Attends s.mem.hub u

theorem Pc.destroys_of_attends {m : Hub.Mem} {u : ℕ} {p : Pc} (h : p.Attends m u) : p.destroys = true := by
  cases p with
  | destroy => rfl
  | _ => exact h.elim

/-- It does, callback by callback. -/
theorem attends_of_moves {t : ℕ} {m m' : Mem} {p p' : Pc} {i : Input} (h : Moves t m p i m' p') {u : ℕ}
    (hu : p.Attends m.hub u) : m'.hub.task u ≠ none ∨ p'.Attends m'.hub u := by
  cases h with
  | destroyLock q =>
    obtain ⟨id, callback, hf, hinv⟩ := hu
    exact .inr ⟨⟨id, callback⟩, (CallbackManager.mem_entries _).mpr hf, hinv⟩
  | destroyPick q rest j e he =>
    obtain ⟨e', hmem, rfl⟩ := hu
    by_cases hee : e' = e
    · subst hee
      exact .inl (callback_task_self answers_dtorClearArguments)
    · obtain ⟨k, hk⟩ := List.mem_iff_getElem?.mp hmem
      refine .inr ⟨e', List.mem_eraseIdx_iff_getElem?.mpr ⟨k, ?_, hk⟩, rfl⟩
      rintro rfl
      rw [he] at hk
      exact hee (Option.some.inj hk).symm
  | destroyed q =>
    obtain ⟨e, hmem, -⟩ := hu
    cases hmem
  | _ => exact hu.elim

/-- **When the last shared pointer goes**, the task of every invocation is completed or its callback in the
table. -/
theorem waits_of_last {s : State Mem Pc} (h : prog.Reachable s) (hlim : s.mem.hub.issued < 2 ^ 32) {t : ℕ} {q : Hub.Pc}
    (ht : s.pc t = .release q) (hrefs : s.mem.refs = 1) {u : ℕ} (hu : s.mem.hub.invocation u ≠ none) :
    s.mem.hub.task u ≠ none ∨ s.mem.hub.Waits u := by
  have hacc := accounted_holds h
  have hhub : Hub.prog.Reachable (toHub s) := reach_hub (h.mono fun s a _ => fun _ _ _ _ => trivial) (by omega)
  have hi := orderly_holds hhub hlim
  have hnot : ∀ v, holding (s.pc v).toHub = true → ∃ c id, (s.pc v).toHub = .invoke c (.remove id) := by
    intro v hv
    by_contra hremove
    obtain ⟨p, hp⟩ := hacc.hub_of_holding hv fun c id he => hremove ⟨c, id, he⟩
    rw [hp] at hv
    exact absurd (hv.symm.trans (hacc.holding_eq ht hrefs hp)) (by decide)
  have hregistered : s.mem.hub.registered u = true := by
    rcases entered_of_linked ((linked_holds hhub).2 u) hu with hentered | ⟨c, id, hp⟩
    · exact hi.entered u hentered
    · have hp : (s.pc u).toHub = .invoke c (.insert id) := hp
      obtain ⟨c', id', hr⟩ := hnot u (by rw [hp]; rfl)
      rw [hp] at hr
      cases hr
  rcases hi.settled u hregistered with htask | hw | ⟨v, hv⟩
  · exact .inl htask
  · exact .inr hw
  · -- whoever has taken a callback out of the table has a shared pointer
    have hv : (s.pc v).toHub.Takes u := hv
    obtain ⟨c, id, hr⟩ := hnot v (by
      revert hv
      cases (s.pc v).toHub with
      | calling => exact fun _ => rfl
      | _ => exact fun hv => hv.elim)
    rw [hr] at hv
    exact hv.elim

theorem sole_holds {s : State Mem Pc} (h : prog.Reachable s) :
    ∀ t u, (s.pc t).destroys = true → (s.pc u).destroys = true → t = u := by
  refine h.invariant (J := fun s => ∀ t u, (s.pc t).destroys = true → (s.pc u).destroys = true → t = u) ?_ ?_
  · intro t u ht
    cases ht
  · intro s a m p hr _ ih hn t u ht hu
    have hmoves := moves_of_next hn
    -- when it begins there is no other one
    have hother : ∀ v, v ≠ a.thread → p.destroys = true → (s.pc v).destroys = true → v = a.thread := by
      intro v hv hp hd
      rcases refs_of_destroys hmoves hp with hold | hrefs
      · exact ih v a.thread hd hold
      · have hzero := (accounted_holds hr).destroys hd
        omega
    by_cases hta : t = a.thread
    · by_cases hua : u = a.thread
      · rw [hta, hua]
      · subst hta
        rw [State.set_pc_self] at ht
        rw [State.set_pc_of_ne _ _ _ _ hua] at hu
        exact (hother u hua ht hu).symm
    · rw [State.set_pc_of_ne _ _ _ _ hta] at ht
      by_cases hua : u = a.thread
      · subst hua
        rw [State.set_pc_self] at hu
        exact hother t hta hu ht
      · rw [State.set_pc_of_ne _ _ _ _ hua] at hu
        exact ih t u ht hu

theorem invocation_of_moves {t : ℕ} {m m' : Mem} {p p' : Pc} {i : Input} (h : Moves t m p i m' p')
    (hp : p.holds = false) : m'.hub.invocation = m.hub.invocation := by
  cases hd : p.destroys with
  | false => rw [(toTable_of_moves h hp hd).1]
  | true =>
    cases h with
    | destroyPick => exact congrArg Table.invocation (callback_toTable ..)
    | destroyLock | destroyed => rfl
    | _ => cases hd

/-- The last shared pointer goes with the step that begins the destructor. -/
theorem last_of_moves {t : ℕ} {m m' : Mem} {p p' : Pc} {i : Input} (h : Moves t m p i m' p') (hrefs : m.refs ≠ 0)
    (hrefs' : m'.refs = 0) : ∃ q, p = .release q ∧ p' = .destroy q none ∧ m.refs = 1 ∧ m'.hub = m.hub := by
  cases h with
  | last q i he => exact ⟨q, rfl, rfl, he, rfl⟩
  | release q i hne =>
    have hle : m.refs - 1 = 0 := hrefs'
    omega
  | acquire | lock => cases hrefs'
  | _ => exact absurd hrefs' hrefs

/-- What the destructor has done and has still to do. -/
structure Destroyed (s : State Mem Pc) : Prop where
  cared : s.mem.hub.issued < 2 ^ 32 → ∀ u, s.mem.hub.invocation u ≠ none → Cared s u
  empty : (∀ t, (s.pc t).destroys = false) → ∀ u, ¬ s.mem.hub.Waits u

theorem destroyed_holds {s : State Mem Pc} (h : prog.Reachable s) : s.mem.refs = 0 → Destroyed s := by
  refine h.invariant (J := fun s => s.mem.refs = 0 → Destroyed s) (fun h0 => (by cases h0)) ?_
  intro s a m p hr _ ih hn hzero
  have hmoves := moves_of_next hn
  have hacc := accounted_holds hr
  by_cases hrefs : s.mem.refs = 0
  · obtain ⟨hcared, hempty⟩ := ih hrefs
    have hfree : (s.pc a.thread).holds = false := by
      by_contra hold
      exact hacc.refs_ne (eq_true_of_ne_false hold) hrefs
    refine ⟨fun hlim u hu => ?_, fun hnone u => ?_⟩
    · rw [State.set_mem, invocation_of_moves hmoves hfree] at hu
      rcases hcared ((issued_of_moves hmoves).trans_lt hlim) u hu with htask | ⟨v, hv⟩
      · exact .inl ((task_of_moves hmoves).mpr (.inl htask))
      by_cases hva : v = a.thread
      · subst hva
        refine (attends_of_moves hmoves hv).imp_right fun hp => ⟨a.thread, ?_⟩
        rwa [State.set_pc_self]
      · -- there is no second destructor, so that this step leaves the table alone
        have hnot : (s.pc a.thread).destroys = false := by
          by_contra hd
          exact hva (sole_holds hr v a.thread (Pc.destroys_of_attends hv) (eq_true_of_ne_false hd))
        refine .inr ⟨v, ?_⟩
        rw [State.set_pc_of_ne _ _ _ _ hva]
        unfold Pc.Attends at hv ⊢
        rw [State.set_mem, (toTable_of_moves hmoves hfree hnot).1]
        exact hv
    · rw [State.set_mem]
      have hp : p.destroys = false := by
        have hself := hnone a.thread
        rwa [State.set_pc_self] at hself
      cases hd : (s.pc a.thread).destroys with
      | false =>
        rw [(toTable_of_moves hmoves hfree hd).1]
        refine hempty (fun v => ?_) u
        by_cases hva : v = a.thread
        · rw [hva, hd]
        · have hother := hnone v
          rwa [State.set_pc_of_ne _ _ _ _ hva] at hother
      | true =>
        -- the destructor comes to its end
        generalize s.pc a.thread = q at hmoves hd
        generalize a.input = i at hmoves
        cases hmoves with
        | destroyed q =>
          rintro ⟨id, callback, hf, -⟩
          cases hf
        | destroyLock | destroyPick => cases hp
        | _ => cases hd
  · obtain ⟨q, hp, rfl, hone, hhub⟩ := last_of_moves hmoves hrefs hzero
    refine ⟨fun hlim u hu => ?_, fun hnone => ?_⟩
    · rw [State.set_mem, hhub] at hlim hu
      rcases waits_of_last hr hlim hp hone hu with htask | hw
      · exact .inl (by rwa [State.set_mem, hhub])
      · refine .inr ⟨a.thread, ?_⟩
        rw [State.set_pc_self, State.set_mem, hhub]
        exact hw
    · have hself := hnone a.thread
      rw [State.set_pc_self] at hself
      cases hself

/-- The hub connection is gone: there is no shared pointer, and the destructor is through. -/
def Gone (s : State Mem Pc) : Prop := s.mem.refs = 0 ∧ ∀ t p rest, s.pc t ≠ .destroy p rest

/-- Every invocation that has got its id is completed, and the table is empty. -/
structure AllSettled (s : State Mem Pc) : Prop where
  completed : ∀ u, s.mem.hub.invocation u ≠ none → s.mem.hub.task u ≠ none
  empty : ∀ u, ¬ s.mem.hub.Waits u

/-- **The destruction of a hub connection leaves no invocation pending.** -/
theorem destruction_settles {s : State Mem Pc} (h : prog.Reachable s) (hlim : s.mem.hub.issued < 2 ^ 32)
    (hgone : Gone s) : AllSettled s := by
  have hnone : ∀ t, (s.pc t).destroys = false := by
    intro t
    cases hp : s.pc t with
    | destroy p rest => exact absurd hp (hgone.2 t p rest)
    | _ => rfl
  obtain ⟨hcared, hempty⟩ := destroyed_holds h hgone.1
  refine ⟨fun u hu => ?_, hempty hnone⟩
  refine (hcared hlim u hu).resolve_right fun ⟨t, ht⟩ => ?_
  exact absurd ((Pc.destroys_of_attends ht).symm.trans (hnone t)) (by decide)

/-! ## The lock of the table -/

/-- The thread has `m_map_lock`. -/
def Pc.locks : Pc → Bool
  | .hub p => p.locks
  | .destroy _ (some _) => true
  | _ => false

/-- Who calls the callbacks has a shared pointer or is in the destructor. -/
theorem locks_eq {q : Hub.Pc} (h : holding q = false) : q.locks = false := by
  cases q with
  | clear => cases h
  | _ => rfl

theorem lockStep_of_moves {t : ℕ} {m m' : Mem} {p p' : Pc} {i : Input} (h : Moves t m p i m' p')
    (hreleased : ∀ q, p = .release q → holding q = false)
    (hdestroyed : ∀ q rest, p = .destroy q rest → holding q = false) :
    LockStep m.hub.locked m'.hub.locked p.locks p'.locks := by
  cases h with
  | keep hn => exact Hub.lockStep_of_moves (next_moves hn)
  | acquire hn => exact Hub.lockStep_of_moves (next_moves hn)
  | @leave q q' j hub hn hold hnew =>
    have hstep := Hub.lockStep_of_moves (next_moves hn)
    rw [locks_eq hnew] at hstep
    exact hstep
  | fail hn => exact Hub.lockStep_of_moves (next_moves hn)
  | release q i =>
    have hfree : (Pc.hub q).locks = false := locks_eq (hreleased q rfl)
    rw [hfree]
    exact .stay ..
  | destroyLock q i hl =>
    unfold Table.locked
    rw [hl]
    exact .take
  | destroyPick q rest j e =>
    unfold Table.locked
    rw [callback_toTable]
    exact .stay ..
  | destroyed q =>
    have hfree : (Pc.hub q).locks = false := locks_eq (hdestroyed q _ rfl)
    rw [hfree]
    exact .leave _
  | _ => exact .stay ..

/-- A lock that is held is held by a thread that is calling the callbacks. -/
theorem exists_locks {s : State Mem Pc} (h : prog.Reachable s) : Owned (fun m : Mem => m.hub.locked) Pc.locks s := by
  refine h.invariant (J := Owned (fun m : Mem => m.hub.locked) Pc.locks) (fun hl => (by cases hl)) ?_
  intro s a m p hr _ ih hn
  have hacc := accounted_holds hr
  exact ih.step (lockStep_of_moves (moves_of_next hn) (hacc.released a.thread) fun q rest hp =>
    (hacc.destroyed a.thread q rest hp).1)

/-! ## What is under way comes to its end -/

/-- The thread has a shared pointer or runs the destructor. -/
def Pc.busy (p : Pc) : Bool := p.holds || p.destroys

/-- Thread `t` alone gets to where it has no shared pointer. -/
abbrev Finishes (t : ℕ) (m : Mem) (p : Pc) : Prop :=
  prog.Solo (fun p _ => p.busy = true) (fun _ p => p.busy = false) t m p

theorem busy_eq {q : Hub.Pc} (h : holding q = false) : (Pc.hub q).busy = false := by
  show (holding q || false) = false
  rw [h]
  rfl

section

variable {t : ℕ} {m : Mem}

theorem finishes_destroy_some (hc : m.hub.connection.crashed = false) {q : Hub.Pc} (hq : holding q = false)
    (rest : List (Sigma fun _ : String => Callback)) : Finishes t m (.destroy q (some rest)) := by
  induction rest generalizing m with
  | nil =>
    have hn : prog.next t m (.destroy q (some [])) .drop =
        some ({ m with hub := { m.hub with callbackManager := m.hub.callbackManager.clear } }, .hub q) := by
      show next t m (.destroy q (some [])) .drop = _
      unfold next
      rw [hc]
      rfl
    exact .next .drop rfl hn (.done (busy_eq hq))
  | cons e rest ih =>
    have hn : prog.next t m (.destroy q (some (e :: rest))) (.hub (.pick 0)) =
        some ({ m with hub := m.hub.callback e.2 dtorClearArguments }, .destroy q (some rest)) := by
      show next t m (.destroy q (some (e :: rest))) (.hub (.pick 0)) = _
      unfold next
      rw [hc]
      rfl
    refine .next (.hub (.pick 0)) rfl hn (ih ?_)
    rwa [callback_connection]

theorem finishes_destroy (hc : m.hub.connection.crashed = false) (hl : m.hub.callbackManager.mapLock = none)
    {q : Hub.Pc} (hq : holding q = false) : Finishes t m (.destroy q none) := by
  have hn : prog.next t m (.destroy q none) .drop =
      some ({ m with hub := { m.hub with callbackManager := m.hub.callbackManager.lock t } },
        .destroy q (some m.hub.callbackManager.callbacks.entries)) := by
    show next t m (.destroy q none) .drop = _
    simp only [next, runDestroy, hc, hl]
    rfl
  refine .next .drop rfl hn (finishes_destroy_some ?_ hq _)
  exact hc

/-- Letting go of the last shared pointer ends in the destructor. -/
theorem finishes_release (hc : m.hub.connection.crashed = false) (hl : m.hub.callbackManager.mapLock = none)
    {q : Hub.Pc} (hq : holding q = false) : Finishes t m (.release q) := by
  have hn : prog.next t m (.release q) .drop =
      some ({ m with refs := m.refs - 1 }, if m.refs = 1 then .destroy q none else .hub q) := by
    show next t m (.release q) .drop = _
    unfold next
    rw [hc]
    rfl
  refine .next .drop rfl hn ?_
  split
  · exact finishes_destroy (m := { m with refs := m.refs - 1 }) hc hl hq
  · exact .done (busy_eq hq)

/-- A step of a thread that has a shared pointer. -/
theorem next_of_holding {p p' : Hub.Pc} {i : Hub.Input} {hub : Hub.Mem} (hn : Hub.next t m.hub p i = some (hub, p'))
    (hp : holding p = true) :
    prog.next t m (.hub p) (.hub i) = some ({ m with hub }, if holding p' then .hub p' else .release p') := by
  have hc : m.hub.connection.crashed = false := by
    by_contra hcrash
    unfold Hub.next at hn
    rw [if_pos (eq_true_of_ne_false hcrash)] at hn
    cases hn
  have hrun : next t m (.hub p) (.hub i) = runStep t m p i := by
    unfold next
    rw [hc, if_neg Bool.false_ne_true]
    cases p with
    | conn => cases hp
    | _ => rfl
  have hgoto : m.goto p hub p' = ({ m with hub }, if holding p' then .hub p' else .release p') := by
    unfold Mem.goto
    split
    · cases hp
    · rw [if_pos hp]
  show next t m (.hub p) (.hub i) = _
  rw [hrun, runStep, hn, Option.map_some, hgoto]

/-- It comes out of the hub connection, and lets go of the shared pointer. -/
theorem finishes_of_leaves {hub : Hub.Mem} {p : Hub.Pc} (h : Leaves t hub p) (hm : m.hub = hub)
    (hc : hub.connection.crashed = false) (hp : holding p = true) : Finishes t m (.hub p) := by
  induction h generalizing m with
  | done hq => exact absurd (hp.symm.trans hq.1) (by decide)
  | @next hub hub' p p' i hok hn hrest ih =>
    have hbusy : (Pc.hub p).busy = true := by
      show (holding p || false) = true
      rw [hp]
      rfl
    have hcrash : hub'.connection.crashed = false := by
      rw [(exit_of_moves (next_moves hn) (rests_of_holding hp)).1]
      exact hc
    subst hm
    refine .next (.hub i) hbusy (next_of_holding hn hp) ?_
    split
    · rename_i hnew
      exact ih rfl hcrash hnew
    · rename_i hnew
      have hnew : holding p' = false := by simpa using hnew
      cases hrest with
      | done hq => exact finishes_release (m := { m with hub := hub' }) hcrash hq.2 hnew
      | next _ hok => exact absurd (hok.1.symm.trans hnew) (by decide)

end

/-- The steps of threads that have a shared pointer or run the destructor. -/
def Busy (s : State Mem Pc) (a : Act Input) : Prop := (s.pc a.thread).busy = true

/-- They leave the connection alone, and whether the user's `hub_connection` is there. -/
theorem connection_of_busy {t : ℕ} {m m' : Mem} {p p' : Pc} {i : Input} (h : Moves t m p i m' p') (hp : p.busy = true) :
    m'.hub.connection = m.hub.connection ∧ m'.owned = m.owned := by
  have hhub : ∀ {q q' : Hub.Pc} {j : Hub.Input} {hub : Hub.Mem}, Hub.next t m.hub q j = some (hub, q') →
      (Pc.hub q).busy = true → hub.connection = m.hub.connection := by
    intro q q' j hub hn hold
    rcases connection_of_moves (next_moves hn) with he | ⟨r, r', rfl, -⟩
    · exact he
    · cases hold
  cases h with
  | keep hn => exact ⟨hhub hn hp, rfl⟩
  | acquire hn => exact ⟨hhub hn hp, rfl⟩
  | leave hn => exact ⟨hhub hn hp, rfl⟩
  | destroyPick => exact ⟨callback_connection .., rfl⟩
  | drop | fail => cases hp
  | _ => exact ⟨rfl, rfl⟩

theorem connection_of_runs {s s' : State Mem Pc} (hr : prog.Runs Busy s s') :
    s'.mem.hub.connection = s.mem.hub.connection ∧ s'.mem.owned = s.mem.owned := by
  induction hr with
  | refl => exact ⟨rfl, rfl⟩
  | step _ hbusy hs ih =>
    obtain ⟨m, p, hn, rfl⟩ := Program.step_eq_some.mp hs
    obtain ⟨hcon, howned⟩ := connection_of_busy (moves_of_next hn) hbusy
    exact ⟨hcon.trans ih.1, howned.trans ih.2⟩

/-- Of the busy threads one can always get to its end: the one that has the lock, or any if nobody has. -/
theorem exists_finishes {s : State Mem Pc} (h : prog.Reachable s) (hc : s.mem.hub.connection.crashed = false)
    (hbusy : ∃ t, (s.pc t).busy = true) : ∃ t, (s.pc t).busy = true ∧ Finishes t s.mem (s.pc t) := by
  have hacc := accounted_holds h
  cases hl : s.mem.hub.locked with
  | true =>
    obtain ⟨t, ht⟩ := exists_locks h hl
    refine ⟨t, ?_⟩
    have hdestroyed := hacc.destroyed t
    cases hp : s.pc t with
    | hub q =>
      rw [hp] at ht
      have ht : q.locks = true := ht
      unfold Hub.Pc.locks at ht
      split at ht
      · rename_i w rest _
        exact ⟨rfl, finishes_of_leaves (leaves_clear_some hc w rest) rfl hc rfl⟩
      · cases ht
    | destroy q rest =>
      cases rest with
      | none =>
        rw [hp] at ht
        cases ht
      | some rest => exact ⟨rfl, finishes_destroy_some hc (hdestroyed q _ hp).1 rest⟩
    | lock | release =>
      rw [hp] at ht
      cases ht
  | false =>
    obtain ⟨t, ht⟩ := hbusy
    refine ⟨t, ht, ?_⟩
    have hl : s.mem.hub.callbackManager.mapLock = none := by simpa [Table.locked] using hl
    cases hp : s.pc t with
    | hub q =>
      rw [hp] at ht
      have hq : holding q = true := by simpa [Pc.busy, Pc.holds, Pc.destroys] using ht
      exact finishes_of_leaves (leaves hc hl hq) rfl hc hq
    | lock c id =>
      rw [hp] at ht
      cases ht
    | release q => exact finishes_release hc hl (hacc.released t q hp)
    | destroy q rest =>
      have hq := (hacc.destroyed t q rest hp).1
      cases rest with
      | none => exact finishes_destroy hc hl hq
      | some rest => exact finishes_destroy_some hc hq rest

/-- **A hub connection that its user has let go of is destroyed**, as soon as the calls that have a shared pointer
have come to their end: they can, without another message or response. -/
theorem goes_out_of_scope {s : State Mem Pc} (h : prog.Reachable s) (ho : s.mem.owned = false)
    (hc : s.mem.hub.connection.crashed = false) :
    ∃ s', prog.Runs Busy s s' ∧ Gone s' ∧ (s'.mem.hub.issued < 2 ^ 32 → AllSettled s') := by
  have hstep : ∀ s, prog.Reachable s → ¬ s.mem.hub.connection.crashed = true → (∃ t, (s.pc t).busy.toNat ≠ 0) →
      ∃ s', prog.Runs Busy s s' ∧ (s'.mem.hub.connection.crashed = true ∨ Lower (fun p => p.busy.toNat) s s') := by
    intro s hs hcrash hbusy
    obtain ⟨t, ht, hfinishes⟩ := exists_finishes hs (by simpa using hcrash) (by simpa using hbusy)
    obtain ⟨m, p, hr, hp⟩ := hfinishes.runs
    refine ⟨s.set t m p, hr, .inr (Lower.set ?_)⟩
    rw [hp, ht]
    decide
  obtain ⟨s', hr, hend⟩ := h.exists_rest (fun p => p.busy.toNat) _ rfl (fun _ _ _ => trivial) hstep
  obtain ⟨hcon, howned⟩ := connection_of_runs hr
  have hidle : ∀ t, (s'.pc t).busy = false := by
    rcases hend with hcrash | hend
    · rw [hcon, hc] at hcrash
      cases hcrash
    · simpa using hend
  have h' := h.runs hr fun _ _ _ => trivial
  have hgone : Gone s' := by
    refine ⟨?_, fun t p rest hp => ?_⟩
    · obtain ⟨S, hS, hcard⟩ := (accounted_holds h').count
      have hempty : S = ∅ := Finset.eq_empty_of_forall_notMem fun t ht => by
        have hfree := hidle t
        unfold Pc.busy at hfree
        rw [(hS t).mp ht] at hfree
        cases hfree
      rw [hcard, hempty, howned, ho]
      rfl
    · have hfree := hidle t
      rw [hp] at hfree
      cases hfree
  exact ⟨s', hr, hgone, fun hlim => destruction_settles h' hlim hgone⟩

/-! ## Runs -/

/-- An invocation (thread 3) is sent; thread 5 destroys the `hub_connection` and calls the callback. -/
def abandoned : List (Act Input) :=
  (started ++ [invoking 3] ++ tasks 3 7).map lift ++ [⟨5, .drop⟩] ++
    (tasks 5 2 ++ [(⟨5, .pick 0⟩ : Act Hub.Input)] ++ tasks 5 1).map lift

theorem destruction_settles_abandoned : ∃ s, AllSettled s ∧ s.mem.hub.invocation 3 ≠ none ∧ s.mem.owned = false := by
  obtain ⟨s, h, hf, hidle⟩ := prog.exists_of_run_lt Test.all abandoned 6 (by decide)
    (fun s => (s.mem.refs, s.mem.hub.issued, s.mem.owned, (s.mem.hub.invocation 3).isSome,
      (List.range 6).all fun t => !(s.pc t).destroys)) (0, 1, false, true, true) rfl
  simp only [Prod.mk.injEq, List.all_eq_true, List.mem_range] at hf
  obtain ⟨hrefs, hissued, howned, hinv, hdone⟩ := hf
  refine ⟨s, destruction_settles h (by rw [hissued]; decide) ⟨hrefs, fun t p rest hp => ?_⟩, ?_, howned⟩
  · by_cases ht : t < 6
    · have hfree := hdone t ht
      rw [hp] at hfree
      cases hfree
    · rw [hidle t (by omega)] at hp
      cases hp
  · rwa [← Option.isSome_iff_ne_none]

/-- … and thread 4 still has a message for it. -/
theorem goes_out_of_scope_progressing : ∃ s : State Mem Pc, (s.pc 4).holds = true ∧ s.mem.refs = 1 ∧
    ∃ s', prog.Runs Busy s s' ∧ Gone s' ∧ (s'.mem.hub.issued < 2 ^ 32 → AllSettled s') := by
  obtain ⟨s, h, hf⟩ := prog.exists_of_run Test.all
    (progressing ++ [⟨5, .drop⟩] ++ (tasks 5 1).map lift)
    (fun s => (s.mem.owned, s.mem.hub.connection.crashed, s.mem.refs, (s.pc 4).holds)) (false, false, 1, true) rfl
  simp only [Prod.mk.injEq] at hf
  exact ⟨s, hf.2.2.2, hf.2.2.1, goes_out_of_scope h hf.1 hf.2.1⟩

end SignalRClient.Hub.Lifetime
