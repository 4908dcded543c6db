import SignalRClient.Transport.Attempts

/-!
# When the transport can be connected

`connect()` goes on when the token of `m_receive_loop_cts` is cancelled, and throws otherwise.

* `Refers`: the token sources that are still in use; `Numbered`: all but the one in place are cancelled, outside of
  the critical section of `connect()`.
* `Stir`: what is seen of the calls and of the failures; `Shut`: what holds from a failure on until the next
  `connect()` is accepted.
* `connectable`: so the transport can be connected again after every failure, provided that a connect fails with
  std exceptions only; `unhandled_wedges`: otherwise it cannot.
-/

namespace SignalRClient.Transport

open Threads

variable {R : Type}

/-! ## The token sources in use -/

/-- The loop of a continuation, by its token source. -/
def Frame.loop? : Frame R → Option ℕ
  | .idle => none
  | .connected k _ => some k
  | .message i _ _ | .observe i _ => some i.loop

/-- A task that is pending, or not yet observed, has captured the token source. -/
def Mem.refers (m : Mem) (k : ℕ) : Prop :=
  m.connecting k = true ∨ (∃ r i, m.receiving r = some i ∧ i.loop = k) ∨ ∃ e i f, m.ended e = some (i, f) ∧ i.loop = k

/-- A task or a continuation has the token source `k`. -/
def Refers (s : State Mem (Pc R)) (k : ℕ) : Prop :=
  s.mem.refers k ∨ ∃ u, (s.pc u).frame.loop? = some k

section

variable {t k : ℕ} {m m' : Mem} {p p' : Pc R} {i : Input R} {f : Option Fault}

theorem refers_mono (hc : ∀ k, m'.connecting k = true → m.connecting k = true)
    (hr : ∀ r i, m'.receiving r = some i → m.receiving r = some i)
    (he : ∀ e x, m'.ended e = some x → m.ended e = some x) (h : m'.refers k) : m.refers k := by
  rcases h with h | ⟨r, i, h, hk⟩ | ⟨e, i, f, h, hk⟩
  · exact .inl (hc k h)
  · exact .inr (.inl ⟨r, i, hr r i h, hk⟩)
  · exact .inr (.inr ⟨e, i, f, he e _ h, hk⟩)

/-- What is left of a table when an entry is taken out. -/
theorem of_update_none {α : Type} {g : ℕ → Option α} {j n : ℕ} {x : α} (h : Function.update g j none n = some x) :
    g n = some x := by
  by_cases hn : n = j
  · subst hn
    simp at h
  · rwa [Function.update_of_ne hn] at h

theorem refers_receive {j : Iteration} (h : (m.receive j).refers k) : m.refers k ∨ j.loop = k := by
  rcases h with h | ⟨r, i, hr, hk⟩ | h
  · exact .inl (.inl h)
  · by_cases hn : r = m.receives
    · subst hn
      simp only [Mem.receive, Function.update_self, Option.some.injEq] at hr
      subst hr
      exact .inr hk
    · simp only [Mem.receive, Function.update_of_ne hn] at hr
      exact .inl (.inr (.inl ⟨r, i, hr, hk⟩))
  · exact .inl (.inr (.inr h))

theorem refers_finish {j : Iteration} (h : (m.finish j f).refers k) : m.refers k ∨ j.loop = k := by
  rcases h with h | h | ⟨e, i, g, he, hk⟩
  · exact .inl (.inl h)
  · exact .inl (.inr (.inl h))
  · by_cases hn : e = m.endings
    · subst hn
      simp only [Mem.finish, Function.update_self, Option.some.injEq, Prod.mk.injEq] at he
      obtain ⟨rfl, -⟩ := he
      exact .inr hk
    · simp only [Mem.finish, Function.update_of_ne hn] at he
      exact .inl (.inr (.inr ⟨e, i, g, he, hk⟩))

/-- A continuation hands on its own token source only. -/
theorem runFrame_refers {q : Frame R} (h : runFrame m q f = some (m', p')) :
    (∀ k, m'.refers k → m.refers k ∨ q.loop? = some k) ∧ ∀ k, p'.frame.loop? = some k → q.loop? = some k := by
  cases runFrame_step h with
  | receiveFirst | receive =>
    exact ⟨fun k hk => (refers_receive hk).imp id (congrArg some), fun k hk => hk⟩
  | skip | expired => exact ⟨fun k hk => (refers_finish hk).imp id (congrArg some), fun k hk => (by cases hk)⟩
  | @finish _ g i =>
    refine ⟨fun k hk => ?_, fun k hk => (by cases hk)⟩
    have hk : (m.finish i g).refers k := hk
    exact (refers_finish hk).imp id (congrArg some)
  | release | quiet | noClose | gone | reported => exact ⟨fun k hk => .inl hk, fun k hk => (by cases hk)⟩
  | _ => exact ⟨fun k hk => .inl hk, fun k hk => hk⟩

/-- A continuation that begins takes its token source from the task. -/
theorem enter_refers (h : enter m i = some (m', p')) :
    (∀ k, m'.refers k → m.refers k) ∧ ∀ k, p'.frame.loop? = some k → m.refers k := by
  have hconnecting : ∀ j k, Mem.refers { m with connecting := Function.update m.connecting j false } k →
      m.refers k := by
    refine fun j k => refers_mono (fun n hn => ?_) (fun _ _ h => h) fun _ _ h => h
    have hn : Function.update m.connecting j false n = true := hn
    by_cases hnj : n = j
    · subst hnj
      simp at hn
    · rwa [Function.update_of_ne hnj] at hn
  have hreceiving : ∀ r k, Mem.refers { m with receiving := Function.update m.receiving r none } k → m.refers k :=
    fun r k => refers_mono (fun _ h => h) (fun _ _ => of_update_none) fun _ _ h => h
  have hended : ∀ e k, Mem.refers { m with ended := Function.update m.ended e none } k → m.refers k :=
    fun e k => refers_mono (fun _ h => h) (fun _ _ h => h) fun _ _ => of_update_none
  have hfinish : ∀ {r j f k}, m.receiving r = some j →
      (Mem.finish { m with receiving := Function.update m.receiving r none } j f).refers k → m.refers k := by
    intro r j f k hj hk
    rcases refers_finish hk with hk | rfl
    · exact hreceiving r k hk
    · exact .inr (.inl ⟨r, j, hj, rfl⟩)
  cases enter_step h with
  | drop => exact ⟨fun k hk => hk, fun k hk => (by cases hk)⟩
  | connected hj | connectFailed _ hj | connectUnhandled hj =>
    exact ⟨hconnecting _, fun k hk => .inl (Option.some.inj hk ▸ hj)⟩
  | receiveFailed hj => exact ⟨fun k hk => hfinish hj hk, fun k hk => (by cases hk)⟩
  | received hj => exact ⟨hreceiving _, fun k hk => Option.some.inj hk ▸ .inr (.inl ⟨_, _, hj, rfl⟩)⟩
  | observed => exact ⟨hended _, fun k hk => (by cases hk)⟩
  | observeCanceled hj | observeFailed _ hj =>
    exact ⟨hended _, fun k hk => Option.some.inj hk ▸ .inr (.inr ⟨_, _, _, hj, rfl⟩)⟩

/-- A call makes a token source known when the connect task of the client is there. -/
theorem runCall_refers {c : Call} {q : Option Call} (h : runCall m c f = some (m', q)) (hk : m'.refers k) :
    m.refers k ∨ (c = .connect (.connect k) ∧ q = some (.connect (.setCts k))) := by
  cases runCall_step h with
  | @attach j =>
    rcases hk with hk | hk
    · by_cases hkj : k = j
      · subst hkj
        exact .inr ⟨rfl, rfl⟩
      · exact .inl (.inl (by simpa [hkj] using hk))
    · exact .inl (.inr hk)
  | _ => exact .inl hk

/-- Where a token source comes to be in use. -/
theorem next_refers {s : State Mem (Pc R)} (h : next t s.mem (s.pc t) i = some (m', p'))
    (hk : Refers (s.set t m' p') k) :
    Refers s k ∨ ((s.pc t).call = some (.connect (.connect k)) ∧ p'.call = some (.connect (.setCts k))) := by
  -- what the other threads have, they had before
  have hsplit : m'.refers k ∨ p'.frame.loop? = some k ∨ Refers s k := by
    rcases hk with hk | ⟨u, hu⟩
    · exact .inl hk
    · by_cases hut : u = t
      · subst hut
        rw [State.set_pc_self] at hu
        exact .inr (.inl hu)
      · rw [State.set_pc_of_ne _ _ _ _ hut] at hu
        exact .inr (.inr (.inr ⟨u, hu⟩))
  rcases next_cases h with ⟨c, f, c', hc, -, hr, rfl⟩ | ⟨-, -, -, rfl, hp⟩ | ⟨f, hc, rfl, hr⟩ | ⟨hpc, he⟩
  · rcases hsplit with hk | hk | hk
    · rcases runCall_refers hr hk with hk | ⟨rfl, rfl⟩
      · exact .inl (.inl hk)
      · exact .inr ⟨hc, rfl⟩
    · exact .inl (.inr ⟨t, hk⟩)
    · exact .inl hk
  · rcases hsplit with hk | hk | hk
    · exact .inl (.inl hk)
    · refine .inl (.inr ⟨t, ?_⟩)
      rcases hp with ⟨-, rfl⟩ | ⟨-, rfl⟩ <;> exact hk
    · exact .inl hk
  · obtain ⟨hmem, hframe⟩ := runFrame_refers hr
    rcases hsplit with hk | hk | hk
    · exact .inl ((hmem k hk).imp id fun hk => ⟨t, hk⟩)
    · exact .inl (.inr ⟨t, hframe k hk⟩)
    · exact .inl hk
  · obtain ⟨hmem, hframe⟩ := enter_refers he
    rcases hsplit with hk | hk | hk
    · exact .inl (.inl (hmem k hk))
    · exact .inl (.inl (hframe k hk))
    · exact .inl hk

end

/-! ## The numbers of the token sources -/

/-- The client, and the token source, that `connect()` is about to put in place. -/
def Call.making : Call → Option ℕ
  | .connect (.setClient k) | .connect (.connect k) | .connect (.setCts k) => some k
  | _ => none

def Pc.making (p : Pc R) : Option ℕ := p.call.bind Call.making

/-- The token source in place is the last one, unless `connect()` is about to put that in place; and those before
it are cancelled. -/
structure Numbered (s : State Mem (Pc R)) : Prop where
  cts : s.mem.receiveLoopCts ≤ s.mem.connects
  making : ∀ t k, (s.pc t).making = some k → k = s.mem.connects ∧ s.mem.receiveLoopCts < k
  refers : ∀ k, Refers s k → k = s.mem.receiveLoopCts ∨ (∃ u, (s.pc u).call = some (.connect (.setCts k))) ∨
    (k < s.mem.receiveLoopCts ∧ s.mem.cancelled k = true)

theorem release_making (m : Mem) : m.release.2.bind Call.making = none := by
  rcases release_call m with h | h <;> rw [h] <;> rfl

section

variable {s : State Mem (Pc R)} {t : ℕ} {m : Mem} {p : Pc R} {i : Input R}

/-- What a step does to the numbers: nothing, or `connect()` makes a client or puts a token source in place. -/
theorem next_number (ha : Attempt s t m p) (h : next t s.mem (s.pc t) i = some (m, p)) :
    (m.receiveLoopCts = s.mem.receiveLoopCts ∧ m.connects = s.mem.connects ∧
      (∀ k, p.making = some k → (s.pc t).making = some k) ∧ ∀ k, (s.pc t).call ≠ some (.connect (.setCts k))) ∨
    ((s.pc t).call = some (.connect .factory) ∧ p.making = some (s.mem.connects + 1) ∧
      m.receiveLoopCts = s.mem.receiveLoopCts ∧ m.connects = s.mem.connects + 1) ∨
    ∃ k, (s.pc t).call = some (.connect (.setCts k)) ∧ p.making = none ∧ m.receiveLoopCts = k ∧
      m.connects = s.mem.connects := by
  rcases next_apart h with ⟨c, f, q, hc, hr, rfl⟩ | ⟨hc, -, -, hcts, hp⟩
  · have hrel : ∀ {m' : Mem} {k : ℕ}, Pc.making (⟨(s.pc t).frame, m'.release.2⟩ : Pc R) = some k →
        (s.pc t).making = some k := by
      intro m' k hk
      have hk : m'.release.2.bind Call.making = some k := hk
      rw [release_making] at hk
      cases hk
    cases runCall_step hr with
    | make => exact .inr (.inl ⟨hc, rfl, rfl, rfl⟩)
    | @setCts _ j => exact .inr (.inr ⟨j, hc, rfl, rfl, rfl⟩)
    | setClient | attach => exact .inl ⟨rfl, rfl, fun k hk => by rw [Pc.making, hc]; exact hk, by simp [hc]⟩
    | returned | thrown | stopped => exact .inl ⟨rfl, rfl, fun k hk => hrel hk, by simp [hc]⟩
    | _ => exact .inl ⟨rfl, rfl, fun k hk => (by cases hk), by simp [hc]⟩
  · have hn : m.connects = s.mem.connects := by
      cases ha with
      | make hf _ _ _ => rw [hc] at hf; cases hf
      | quiet _ _ hn | pass _ _ _ _ _ _ hn | refuse _ _ _ _ _ _ hn | finish _ _ _ _ hn => exact hn
    refine .inl ⟨hcts, hn, fun k hk => ?_, by simp [hc]⟩
    rcases hp with hp | hp | ⟨d, hp⟩ <;> simp [Pc.making, hp, Call.making] at hk

theorem making_of_setCts {k : ℕ} (h : (s.pc t).call = some (.connect (.setCts k))) : (s.pc t).making = some k := by
  simp [Pc.making, h, Call.making]

/-- Who has a client to put in place has the lock. -/
theorem locked_of_making {p : Pc R} {k : ℕ} (h : p.making = some k) : locked p = true := by
  obtain ⟨c, hc, hk⟩ := Option.bind_eq_some_iff.mp h
  rw [locked, hc, Option.any_some]
  cases c with
  | connect q => cases q <;> first | rfl | cases hk
  | disconnect => cases hk

theorem numbered_step {ok : State Mem (Pc R) → Act (Input R) → Prop} (hs : prog.Reach ok s) (hnum : Numbered s)
    (h : next t s.mem (s.pc t) i = some (m, p)) : Numbered (s.set t m p) := by
  have ha := attempt_holds hs h
  have hmut := mutex_holds hs
  have hmono : ∀ k, s.mem.cancelled k = true → m.cancelled k = true := fun k =>
    (next_hands (bounded_holds hs) (unique_holds hs) h).cancelled_mono
  -- only one thread has the lock
  have halone : ∀ {k}, locked (s.pc t) = true → ∀ u, u ≠ t → (s.pc u).making ≠ some k := fun hl u hu hk =>
    hu (hmut.excl u t (locked_of_making hk) hl)
  rcases next_number ha h with ⟨hcts, hn, hmk, hnot⟩ | ⟨hc, hmk, hcts, hn⟩ | ⟨j, hc, hmk, hcts, hn⟩
  · refine ⟨?_, fun u k hk => ?_, fun k hk => ?_⟩
    · rw [State.set_mem, hcts, hn]
      exact hnum.cts
    · rw [State.set_mem, hcts, hn]
      by_cases hut : u = t
      · subst hut
        rw [State.set_pc_self] at hk
        exact hnum.making u k (hmk k hk)
      · rw [State.set_pc_of_ne _ _ _ _ hut] at hk
        exact hnum.making u k hk
    · rw [State.set_mem, hcts]
      rcases next_refers h hk with hk | ⟨-, hq⟩
      · rcases hnum.refers k hk with e | ⟨u, hu⟩ | ⟨hlt, hcan⟩
        · exact .inl e
        · have hut : u ≠ t := fun e => hnot k (e ▸ hu)
          exact .inr (.inl ⟨u, by rw [State.set_pc_of_ne _ _ _ _ hut]; exact hu⟩)
        · exact .inr (.inr ⟨hlt, hmono k hcan⟩)
      · exact .inr (.inl ⟨t, by rw [State.set_pc_self]; exact hq⟩)
  · -- a client is made
    have hl : locked (s.pc t) = true := by simp [locked, hc, Call.locked]
    refine ⟨?_, fun u k hk => ?_, fun k hk => ?_⟩
    · rw [State.set_mem, hcts, hn]
      exact hnum.cts.trans (Nat.le_succ _)
    · rw [State.set_mem, hcts, hn]
      by_cases hut : u = t
      · subst hut
        rw [State.set_pc_self, hmk, Option.some.injEq] at hk
        exact ⟨hk.symm, by have := hnum.cts; omega⟩
      · rw [State.set_pc_of_ne _ _ _ _ hut] at hk
        exact absurd hk (halone hl u hut)
    · rw [State.set_mem, hcts]
      rcases next_refers h hk with hk | ⟨hc', -⟩
      · rcases hnum.refers k hk with e | ⟨u, hu⟩ | ⟨hlt, hcan⟩
        · exact .inl e
        · by_cases hut : u = t
          · rw [hut, hc] at hu
            cases hu
          · exact absurd (making_of_setCts hu) (halone hl u hut)
        · exact .inr (.inr ⟨hlt, hmono k hcan⟩)
      · rw [hc] at hc'
        cases hc'
  · -- a token source is put in place, when the one before is cancelled
    have hl : locked (s.pc t) = true := by simp [locked, hc, Call.locked]
    obtain ⟨hj, hlt⟩ := hnum.making t j (making_of_setCts hc)
    have hold : s.mem.cancelled s.mem.receiveLoopCts = true := ((current_holds hs).guard t _ hc).1
    refine ⟨?_, fun u k hk => ?_, fun k hk => ?_⟩
    · rw [State.set_mem, hcts, hn]
      exact hj.le
    · by_cases hut : u = t
      · subst hut
        rw [State.set_pc_self, hmk] at hk
        cases hk
      · rw [State.set_pc_of_ne _ _ _ _ hut] at hk
        exact absurd hk (halone hl u hut)
    · rw [State.set_mem, hcts]
      rcases next_refers h hk with hk | ⟨hc', -⟩
      · rcases hnum.refers k hk with e | ⟨u, hu⟩ | ⟨hlt', hcan⟩
        · rw [e]
          exact .inr (.inr ⟨hlt, hmono _ hold⟩)
        · by_cases hut : u = t
          · rw [hut, hc] at hu
            cases hu
            exact .inl rfl
          · exact absurd (making_of_setCts hu) (halone hl u hut)
        · exact .inr (.inr ⟨by omega, hmono k hcan⟩)
      · rw [hc] at hc'
        cases hc'

end

theorem numbered_holds {ok : State Mem (Pc R) → Act (Input R) → Prop} {s : State Mem (Pc R)} (h : prog.Reach ok s) :
    Numbered s := by
  refine h.invariant ?_ ?_
  · refine ⟨le_rfl, fun t k hk => (by cases hk), fun k hk => ?_⟩
    rcases hk with (hk | ⟨r, i, hr, -⟩ | ⟨e, i, f, he, -⟩) | ⟨u, hu⟩
    · cases hk
    · cases hr
    · cases he
    · cases hu
  · intro s a m p hr _ hnum hn
    exact numbered_step hr hnum hn

/-! ## What is seen of the calls -/

inductive Stir where
  /-- `connect()` is accepted; its client gets the number `k`, if the factory makes one -/
  | accepted (k : ℕ)
  /-- `connect()` throws "transport already connected" -/
  | rejected
  /-- the factory or `connect()` of the client throws -/
  | threw
  /-- `disconnect()` goes on to cancel the token source -/
  | stopping
  /-- `disconnect()` has nothing to do -/
  | idle
  /-- `disconnect()` cancels a token source -/
  | disconnected (k : ℕ)
  /-- the connect task of client `k`, or the `receive()` of its continuation, has failed -/
  | failed (k : ℕ)
  /-- loop `k` has ended with an error -/
  | ended (k : ℕ)
  deriving DecidableEq

def callStirs (m : Mem) (c : Call) (i : Input R) : List Stir :=
  match c with
  | .connect .check => if m.cancelled m.receiveLoopCts then [.accepted (m.connects + 1)] else [.rejected]
  | .connect .factory | .connect (.connect _) =>
    match i with
    | .go (some _) => [.threw]
    | _ => []
  | .disconnect _ .check => if m.cancelled m.receiveLoopCts then [.idle] else [.stopping]
  | .disconnect _ .cancel => [.disconnected m.receiveLoopCts]
  | _ => []

def frameStirs (p : Frame R) (i : Input R) : List Stir :=
  match p, i with
  | .connected k .cancel, .go _ => [.failed k]
  | .connected k (.receive _), .go (some .other) => [.failed k]
  | .idle, .connected k (some .other) => [.failed k]
  | .observe i .cancel, .go _ => [.ended i.loop]
  | _, _ => []

def stirs (_ : ℕ) (m : Mem) (p : Pc R) (i : Input R) (_ : Mem) (_ : Pc R) : List Stir :=
  match p.call with
  | some c => callStirs m c i
  | none => frameStirs p.frame i

/-- From here on the transport can be connected: an attempt or a loop has failed, which is that of the last
`connect()` to be accepted, or `disconnect()` has done its work. -/
def Stir.Closes (l : List Stir) : Stir → Prop
  | .threw | .idle | .disconnected _ => True
  | .failed k | .ended k => ∀ j, .accepted j ∈ l → j ≤ k
  | _ => False

/-- No connect fails with an exception that is not a std exception. -/
def Handled (s : State Mem (Pc R)) (a : Act (Input R)) : Prop :=
  (∀ k, a.input ≠ .connected k (some .other)) ∧
    ∀ k client, (s.pc a.thread).frame = .connected k (.receive client) → a.input ≠ .go (some .other)

/-! ## The transport is shut -/

/-- The call is not on its way to a loop that goes on. -/
def Call.shut (m : Mem) : Call → Prop
  | .connect p => match p with
    | .factory | .setClient _ | .connect _ => False
    | .setCts k => m.cancelled k = true
    | _ => True
  | .disconnect _ _ => True

structure Shut (s : State Mem (Pc R)) : Prop where
  cts : s.mem.cancelled s.mem.receiveLoopCts = true
  calls : ∀ u c, (s.pc u).call = some c → c.shut s.mem

theorem Call.shut_of_unlocked {m : Mem} {c : Call} (h : c.locked = false) : c.shut m := by
  cases c with
  | connect p => cases p <;> trivial
  | disconnect => trivial

section

variable {s : State Mem (Pc R)} {t : ℕ} {m : Mem} {p : Pc R} {i : Input R}

/-- A thread that has the lock leaves the transport shut. -/
theorem shut_of_lock (hmut : Mutex Mem.startStopLock locked s) (hl : locked (s.pc t) = true)
    (hcts : m.cancelled m.receiveLoopCts = true) (hp : ∀ c, p.call = some c → c.shut m) : Shut (s.set t m p) := by
  refine ⟨hcts, fun u c hc => ?_⟩
  by_cases hut : u = t
  · subst hut
    rw [State.set_pc_self] at hc
    exact hp c hc
  · rw [State.set_pc_of_ne _ _ _ _ hut] at hc
    refine Call.shut_of_unlocked ?_
    by_contra hlc
    exact hut (hmut.excl u t (by simpa [locked, hc] using hlc) hl)

/-- A call whose `connect()` is not accepted goes on with nothing that would put a loop in place. -/
theorem runCall_shut {m₀ : Mem} {c c' : Call} {f : Option Fault} (h : runCall m₀ c f = some (m, some c'))
    (hcts : m₀.cancelled m₀.receiveLoopCts = true) (hsh : c.shut m₀) (hno : c ≠ .connect .check) : c'.shut m := by
  have hrelease : m₀.release.2 = some c' → c'.shut m := by
    intro hq
    rcases release_call m₀ with hn | hd
    · rw [hn] at hq; cases hq
    · rw [hd] at hq; cases hq; trivial
  generalize hq : some c' = q at h
  cases runCall_step h with
  | accept => exact absurd rfl hno
  | make | setClient | attach | noClient | noTask => exact hsh.elim
  | returned | thrown | stopped => exact hrelease hq.symm
  | _ => cases hq <;> trivial

/-- It stays so until `connect()` is accepted. -/
theorem shut_step {ok : State Mem (Pc R) → Act (Input R) → Prop} (hs : prog.Reach ok s) (hsh : Shut s)
    (h : next t s.mem (s.pc t) i = some (m, p)) (hno : ∀ k, .accepted k ∉ stirs t s.mem (s.pc t) i m p) :
    Shut (s.set t m p) ∧ .rejected ∉ stirs t s.mem (s.pc t) i m p ∧ .stopping ∉ stirs t s.mem (s.pc t) i m p := by
  have hmono : ∀ k, s.mem.cancelled k = true → m.cancelled k = true := fun k =>
    (next_hands (bounded_holds hs) (unique_holds hs) h).cancelled_mono
  have hcts : m.cancelled m.receiveLoopCts = true := by
    rcases next_cts h with ⟨e, -⟩ | ⟨k, hk, e⟩
    · rw [e]
      exact hmono _ hsh.cts
    · rw [e]
      exact hmono k (hsh.calls t _ hk)
  have hown : ∀ c, p.call = some c → c.shut m := by
    intro c' hc'
    rcases next_apart h with ⟨c, f, q, hc, hr, rfl⟩ | ⟨-, -, -, -, hp⟩
    · obtain rfl : q = some c' := hc'
      exact runCall_shut hr hsh.cts (hsh.calls t c hc) fun hcheck => by
        refine absurd ?_ (hno (s.mem.connects + 1))
        simp [stirs, hc, hcheck, callStirs, hsh.cts]
    · rcases hp with hp | hp | ⟨d, hp⟩
      · rw [hp] at hc'; cases hc'
      · rw [hp] at hc'; cases hc'; trivial
      · rw [hp] at hc'; cases hc'; trivial
  refine ⟨⟨hcts, fun u c hc => ?_⟩, ?_, ?_⟩
  · by_cases hut : u = t
    · subst hut
      rw [State.set_pc_self] at hc
      exact hown c hc
    · rw [State.set_pc_of_ne _ _ _ _ hut] at hc
      have := hsh.calls u c hc
      rcases c with q | ⟨d, q⟩
      · cases q with
        | setCts k => exact hmono k this
        | factory | setClient | connect => exact this.elim
        | _ => trivial
      · trivial
  · intro hmem
    cases hc : (s.pc t).call with
    | none =>
      simp only [stirs, hc, frameStirs] at hmem
      split at hmem <;> simp at hmem
    | some c =>
      simp only [stirs, hc, callStirs, hsh.cts, if_true] at hmem
      split at hmem <;> first | simp at hmem | (split at hmem <;> simp at hmem)
  · intro hmem
    cases hc : (s.pc t).call with
    | none =>
      simp only [stirs, hc, frameStirs] at hmem
      split at hmem <;> simp at hmem
    | some c =>
      simp only [stirs, hc, callStirs, hsh.cts, if_true] at hmem
      split at hmem <;> first | simp at hmem | (split at hmem <;> simp at hmem)

/-- `connect()` goes on to the factory when it has been accepted. -/
theorem next_factory (h : next t s.mem (s.pc t) i = some (m, p)) (hp : p.call = some (.connect .factory)) :
    (s.pc t).call = some (.connect .check) ∧ m.connects = s.mem.connects ∧
      stirs t s.mem (s.pc t) i m p = [.accepted (s.mem.connects + 1)] := by
  rcases next_apart h with ⟨c, f, q, hc, hr, rfl⟩ | ⟨-, -, -, -, hp'⟩
  · have hrelease : s.mem.release.2 ≠ some (.connect .factory) := by
      rcases release_call s.mem with h | h <;> simp [h]
    obtain rfl : q = some (.connect .factory) := hp
    generalize hq : some (Call.connect .factory) = q at hr
    cases runCall_step hr with
    | accept hcan => exact ⟨hc, rfl, by simp [stirs, hc, callStirs, hcan]⟩
    | returned | thrown | stopped => exact absurd hq.symm hrelease
    | _ => cases hq
  · rcases hp' with hp' | hp' | ⟨d, hp'⟩ <;> rw [hp'] at hp <;> cases hp

end

/-- Every token source in place, or on its way there, is that of a `connect()` that was accepted. -/
structure Accounted (s : State Mem (Pc R)) (l : List Stir) : Prop where
  cts : s.mem.receiveLoopCts = 0 ∨ .accepted s.mem.receiveLoopCts ∈ l
  factory : ∀ t, (s.pc t).call = some (.connect .factory) → .accepted (s.mem.connects + 1) ∈ l
  making : ∀ t k, (s.pc t).making = some k → .accepted k ∈ l

theorem accounted_holds {ok : State Mem (Pc R) → Act (Input R) → Prop} {s : State Mem (Pc R)} {l : List Stir}
    (h : prog.Trace ok stirs s l) : Accounted s l := by
  refine h.invariant (J := Accounted) ⟨.inl rfl, fun t ht => (by cases ht), fun t k hk => (by cases hk)⟩ ?_
  intro s a l m p hr _ hacc hn
  have ha := attempt_holds hr.reach hn
  have hmut := mutex_holds hr.reach
  have hmem : ∀ {k}, Stir.accepted k ∈ l → .accepted k ∈ l ++ stirs a.thread s.mem (s.pc a.thread) a.input m p :=
    fun hk => List.mem_append_left _ hk
  -- a thread at the factory is alone, so that no other one makes a client meanwhile
  have hfac : m.connects = s.mem.connects ∨ (s.pc a.thread).call = some (.connect .factory) := by
    rcases next_number ha hn with ⟨-, hcon, -⟩ | ⟨hc, -⟩ | ⟨j, -, -, -, hcon⟩
    · exact .inl hcon
    · exact .inr hc
    · exact .inl hcon
  refine ⟨?_, fun u hu => ?_, fun u k hk => ?_⟩
  · rcases next_number ha hn with ⟨hcts, -⟩ | ⟨-, -, hcts, -⟩ | ⟨j, hc, -, hcts, -⟩
    · rw [State.set_mem, hcts]
      exact hacc.cts.imp id hmem
    · rw [State.set_mem, hcts]
      exact hacc.cts.imp id hmem
    · rw [State.set_mem, hcts]
      exact .inr (hmem (hacc.making _ j (making_of_setCts hc)))
  · by_cases hut : u = a.thread
    · subst hut
      rw [State.set_pc_self] at hu
      obtain ⟨-, hcon, hst⟩ := next_factory hn hu
      rw [State.set_mem, hcon, hst]
      simp
    · rw [State.set_pc_of_ne _ _ _ _ hut] at hu
      rcases hfac with hcon | hc
      · rw [State.set_mem, hcon]
        exact hmem (hacc.factory u hu)
      · exact absurd (hmut.excl u a.thread (by simp [locked, hu, Call.locked]) (by simp [locked, hc, Call.locked])) hut
  · by_cases hut : u = a.thread
    · subst hut
      rw [State.set_pc_self] at hk
      rcases next_number ha hn with ⟨-, -, hmk, -⟩ | ⟨hc, hmk, -⟩ | ⟨j, -, hmk, -⟩
      · exact hmem (hacc.making _ k (hmk k hk))
      · rw [hmk, Option.some.injEq] at hk
        exact hk ▸ hmem (hacc.factory _ hc)
      · rw [hmk] at hk
        cases hk
    · rw [State.set_pc_of_ne _ _ _ _ hut] at hk
      exact hmem (hacc.making u k hk)

section

variable {ok : State Mem (Pc R) → Act (Input R) → Prop} {s : State Mem (Pc R)} {l : List Stir} {t : ℕ} {m : Mem}
  {p : Pc R} {i : Input R}

/-- The token source of the last `connect()` to be accepted is cancelled. -/
theorem shut_of_cancel (h : prog.Trace ok stirs s l) {k : ℕ} (hk : Refers s k)
    (hlast : ∀ j, .accepted j ∈ l → j ≤ k) (hp : p.call = none) (hm : m = s.mem.cancel k) : Shut (s.set t m p) := by
  have hacc := accounted_holds h
  have hnum := numbered_holds h.reach
  have hmut := mutex_holds h.reach
  have hmono : ∀ j, s.mem.cancelled j = true ∨ j = k → m.cancelled j = true := by
    rintro j hj
    rw [hm]
    by_cases hjk : j = k
    · subst hjk; simp [Mem.cancel]
    · simpa [Mem.cancel, hjk] using hj.resolve_right hjk
  have hcts : m.receiveLoopCts = s.mem.receiveLoopCts := by rw [hm]; rfl
  have hbound : k ≤ s.mem.connects := by
    rcases hnum.refers k hk with e | ⟨u, hu⟩ | ⟨hlt, -⟩
    · exact e ▸ hnum.cts
    · exact (hnum.making u k (making_of_setCts hu)).1.le
    · exact hlt.le.trans hnum.cts
  -- a client that is to be put in place is that of `k`
  have hown : ∀ u j, (s.pc u).making = some j → j = k ∧ (s.pc u).call = some (.connect (.setCts k)) := by
    intro u j hj
    obtain ⟨hje, hlt⟩ := hnum.making u j hj
    have hjk := hlast j (hacc.making u j hj)
    obtain rfl : j = k := by omega
    refine ⟨rfl, ?_⟩
    rcases hnum.refers j hk with e | ⟨v, hv⟩ | ⟨hlt', -⟩
    · omega
    · rwa [hmut.excl u v (locked_of_making hj) (locked_of_making (making_of_setCts hv))]
    · omega
  refine ⟨?_, fun u c hc => ?_⟩
  · rw [State.set_mem, hcts]
    rcases hnum.refers k hk with e | ⟨u, hu⟩ | ⟨hlt, -⟩
    · exact hmono _ (.inr e.symm)
    · exact hmono _ (.inl ((current_holds h.reach).guard u _ hu).1)
    · rcases hacc.cts with h0 | h0
      · omega
      · have := hlast _ h0
        omega
  · by_cases hut : u = t
    · subst hut
      rw [State.set_pc_self, hp] at hc
      cases hc
    · rw [State.set_pc_of_ne _ _ _ _ hut] at hc
      have hmk : ∀ {j}, c.making = some j → (s.pc u).making = some j := fun hj => by simp [Pc.making, hc, hj]
      rcases c with q | ⟨d, q⟩
      · cases q with
        | factory =>
          have := hlast _ (hacc.factory u hc)
          omega
        | setClient j | connect j =>
          have := (hown u j (hmk rfl)).2
          rw [hc] at this
          cases this
        | setCts j => exact hmono j (.inr (hown u j (hmk rfl)).1)
        | _ => trivial
      · trivial

theorem of_mem_frameStirs {q : Frame R} {e : Stir} (he : e ∈ frameStirs q i) :
    (∃ k f, q = .connected k .cancel ∧ i = .go f ∧ e = .failed k) ∨
    (∃ k client, q = .connected k (.receive client) ∧ i = .go (some .other)) ∨ (∃ k, i = .connected k (some .other)) ∨
    ∃ j f, q = .observe j .cancel ∧ i = .go f ∧ e = .ended j.loop := by
  unfold frameStirs at he
  split at he
  · exact .inl ⟨_, _, rfl, rfl, List.mem_singleton.mp he⟩
  · exact .inr (.inl ⟨_, _, rfl, rfl⟩)
  · exact .inr (.inr (.inl ⟨_, rfl⟩))
  · exact .inr (.inr (.inr ⟨_, _, rfl, rfl, List.mem_singleton.mp he⟩))
  · cases he

/-- The steps of a call that close the transport. -/
theorem of_mem_callStirs {c : Call} {e : Stir} {m : Mem} (he : e ∈ callStirs m c i) (hcl : e.Closes l) :
    (∃ q f, c = .connect q ∧ (q = .factory ∨ ∃ k, q = .connect k) ∧ i = .go (some f)) ∨
    (∃ d, c = .disconnect d .check ∧ m.cancelled m.receiveLoopCts = true) ∨ ∃ d, c = .disconnect d .cancel := by
  unfold callStirs at he
  split at he
  · split at he <;> (obtain rfl := List.mem_singleton.mp he; exact hcl.elim)
  · split at he
    · exact .inl ⟨_, _, rfl, .inl rfl, rfl⟩
    · cases he
  · split at he
    · exact .inl ⟨_, _, rfl, .inr ⟨_, rfl⟩, rfl⟩
    · cases he
  · split at he
    · rename_i hcan
      exact .inr (.inl ⟨_, rfl, hcan⟩)
    · obtain rfl := List.mem_singleton.mp he
      exact hcl.elim
  · exact .inr (.inr ⟨_, rfl⟩)
  · cases he

/-- A step that closes the transport leaves it shut. -/
theorem shut_of_closes (h : prog.Trace Handled stirs s l) (ha : Handled s ⟨t, i⟩)
    (hn : next t s.mem (s.pc t) i = some (m, p)) {e : Stir} (he : e ∈ stirs t s.mem (s.pc t) i m p)
    (hcl : e.Closes l) : Shut (s.set t m p) := by
  have hmut := mutex_holds h.reach
  cases hc : (s.pc t).call with
  | none =>
    simp only [stirs, hc] at he
    rcases of_mem_frameStirs he with ⟨k, f, hq, rfl, rfl⟩ | ⟨k, client, hq, hi⟩ | ⟨k, hi⟩ | ⟨j, f, hq, rfl, rfl⟩
    · have hpc : s.pc t = ⟨.connected k .cancel, none⟩ := Pc.ext hq hc
      rw [hpc] at hn
      cases hn
      exact shut_of_cancel h (.inr ⟨t, by rw [hq]; rfl⟩) hcl rfl rfl
    · exact absurd hi (ha.2 k client hq)
    · exact absurd hi (ha.1 k)
    · have hpc : s.pc t = ⟨.observe j .cancel, none⟩ := Pc.ext hq hc
      rw [hpc] at hn
      cases hn
      exact shut_of_cancel h (.inr ⟨t, by rw [hq]; rfl⟩) hcl rfl rfl
  | some c =>
    simp only [stirs, hc] at he
    rcases next_cases hn with ⟨c', f, q, hc', rfl, hr, rfl⟩ | ⟨hc', -⟩ | ⟨f, hc', -⟩ | ⟨hpc, -⟩
    · rw [hc, Option.some.injEq] at hc'
      subst hc'
      rcases of_mem_callStirs he hcl with ⟨q', g, rfl, hq, hi⟩ | ⟨d, rfl, hcan⟩ | ⟨d, rfl⟩
      · -- the one in place was cancelled as `connect()` was accepted
        obtain rfl := Input.go.inj hi
        have hg := (current_holds h.reach).guard t _ hc
        rcases hq with rfl | ⟨k, rfl⟩
        · cases hr
          exact shut_of_lock hmut (by simp [locked, hc, Call.locked]) hg fun c hc => by cases hc; trivial
        · cases hr
          exact shut_of_lock hmut (by simp [locked, hc, Call.locked]) hg.1 fun c hc => by cases hc; trivial
      · cases runCall_step hr with
        | idle => exact shut_of_lock hmut (by simp [locked, hc, Call.locked]) hcan fun c hc => by cases hc; trivial
        | stopping hnot =>
          rw [hcan] at hnot
          cases hnot
        | destroyed hd | stopped hd => rcases hd with hd | hd <;> cases hd
      · cases hr
        exact shut_of_lock hmut (by simp [locked, hc, Call.locked]) (by simp [Mem.cancel])
          fun c hc => by cases hc; trivial
    · rw [hc] at hc'
      cases hc'
    · rw [hc] at hc'
      cases hc'
    · rw [hpc] at hc
      cases hc

end

/-- A step shows one thing at most. -/
theorem stirs_alone {t : ℕ} {m m' : Mem} {p p' : Pc R} {i : Input R} {e : Stir} {o₁ o₂ : List Stir}
    (h : stirs t m p i m' p' = o₁ ++ e :: o₂) : o₁ = [] ∧ o₂ = [] := by
  have hlen : (stirs t m p i m' p').length ≤ 1 := by
    unfold stirs
    split
    · unfold callStirs
      split <;> (try split) <;> simp
    · unfold frameStirs
      split <;> simp
  rw [h, List.length_append, List.length_cons] at hlen
  exact ⟨List.length_eq_zero_iff.mp (by omega), List.length_eq_zero_iff.mp (by omega)⟩

/-- From a step that closes the transport on, it is shut until `connect()` is accepted. -/
theorem shut_since {s : State Mem (Pc R)} {l l₁ l₂ : List Stir} {e : Stir} (h : prog.Trace Handled stirs s l)
    (hl : l = l₁ ++ e :: l₂) (hcl : e.Closes l₁) (hno : ∀ k, .accepted k ∉ l₂) :
    Shut s ∧ .rejected ∉ l₂ ∧ .stopping ∉ l₂ := by
  obtain ⟨s₀, a, m, p, o₁, o₂, l₀, l', h₀, ha, hn, ho, rfl, rfl, hK⟩ := h.exists_since hl
  obtain ⟨rfl, rfl⟩ := stirs_alone ho
  rw [List.append_nil] at hcl
  have hshut : Shut (s₀.set a.thread m p) := shut_of_closes h₀ ha hn (by rw [ho]; simp) hcl
  refine hK (fun s l => (∀ k, .accepted k ∉ l) → Shut s ∧ .rejected ∉ l ∧ .stopping ∉ l)
    (fun _ => ⟨hshut, List.not_mem_nil, List.not_mem_nil⟩) ?_ hno
  intro s b l m p hr _ hi hn hno
  simp only [List.mem_append, not_or] at hno ⊢
  obtain ⟨hsh, hrej, hstop⟩ := hi fun k => (hno k).1
  obtain ⟨hsh', hrej', hstop'⟩ := shut_step hr hsh hn fun k => (hno k).2
  exact ⟨hsh', ⟨hrej, hrej'⟩, hstop, hstop'⟩

/-- `connect()` looks at the token source in place. -/
theorem next_check {s : State Mem (Pc R)} {t : ℕ} {i : Input R} {m : Mem} {p : Pc R}
    (hc : (s.pc t).call = some (.connect .check)) (h : next t s.mem (s.pc t) i = some (m, p)) :
    p.call = some (.connect (if s.mem.cancelled s.mem.receiveLoopCts then .factory else .unlockThrow)) := by
  rcases next_cases h with ⟨c, f, q, hc', -, hr, rfl⟩ | ⟨hc', -⟩ | ⟨f, hc', -⟩ | ⟨hpc, -⟩
  · rw [hc, Option.some.injEq] at hc'
    subst hc'
    cases runCall_step hr with
    | accept hcan => rw [hcan]; rfl
    | reject hcan => rw [hcan]; rfl
  · rw [hc] at hc'
    cases hc'
  · rw [hc] at hc'
    cases hc'
  · rw [hpc] at hc
    cases hc

/-! ## The results -/

/-- No thread is in the critical section of `connect()`. -/
def Outside (s : State Mem (Pc R)) : Prop :=
  ∀ t q, (s.pc t).call = some (.connect q) → Call.locked (.connect q) = false

/-- **The transport can be connected again after every failure.**  Outside of the critical section of `connect()`
the only token source that may not be cancelled is the one in place; `connect()` is accepted exactly when that one
is; and from a failure on, or from a `disconnect()`, the next `connect()` is accepted, and `disconnect()` has
nothing to do until then. -/
theorem connectable {s : State Mem (Pc R)} {l : List Stir} (h : prog.Trace Handled stirs s l) :
    (Outside s → (∀ k, Refers s k → s.mem.cancelled k = false → k = s.mem.receiveLoopCts) ∧
      ∀ k k', Refers s k → Refers s k' → s.mem.cancelled k = false → s.mem.cancelled k' = false → k = k') ∧
    (∀ t i m p, (s.pc t).call = some (.connect .check) → next t s.mem (s.pc t) i = some (m, p) →
      (p.call = some (.connect .factory) ↔ s.mem.cancelled s.mem.receiveLoopCts = true) ∧
      (p.call = some (.connect .unlockThrow) ↔ s.mem.cancelled s.mem.receiveLoopCts = false)) ∧
    ∀ l₁ e l₂, l = l₁ ++ e :: l₂ → e.Closes l₁ → (∀ k, .accepted k ∉ l₂) →
      .rejected ∉ l₂ ∧ .stopping ∉ l₂ ∧ s.mem.cancelled s.mem.receiveLoopCts = true := by
  refine ⟨fun hout => ?_, fun t i m p hc hn => ?_, fun l₁ e l₂ hl hcl hno => ?_⟩
  · have hone : ∀ k, Refers s k → s.mem.cancelled k = false → k = s.mem.receiveLoopCts := by
      intro k hk hcan
      rcases (numbered_holds h.reach).refers k hk with e | ⟨u, hu⟩ | ⟨-, hcan'⟩
      · exact e
      · cases hout u _ hu
      · rw [hcan] at hcan'
        cases hcan'
    exact ⟨hone, fun k k' hk hk' hcan hcan' => (hone k hk hcan).trans (hone k' hk' hcan').symm⟩
  · have hp := next_check hc hn
    cases hcan : s.mem.cancelled s.mem.receiveLoopCts <;> simp [hp, hcan]
  · obtain ⟨hsh, hrej, hstop⟩ := shut_since h hl hcl hno
    exact ⟨hrej, hstop, hsh.cts⟩

/-! ## Schedules -/

def handled : Test (Handled (R := R)) where
  test s a :=
    match a.input with
    | .connected _ (some .other) => false
    | .go (some .other) =>
      match (s.pc a.thread).frame with
      | .connected _ (.receive _) => false
      | _ => true
    | _ => true
  sound h := ⟨fun k hi => by simp [hi] at h, fun k client hf hi => by simp [hf, hi] at h⟩

/-- Client 1 is made, and its connect task fails with `f`. -/
def failing (f : Fault) : List (Act (Input Unit)) :=
  [⟨0, .connect⟩] ++ going 0 8 ++ [⟨1, .connected 1 (some f)⟩] ++ going 1 1

/-- … then `connect()` is called again. -/
def again : List (Act (Input Unit)) := [⟨0, .connect⟩] ++ going 0 2

/-- A failure that is handled leaves the transport connectable. -/
theorem connectable_failing : ∃ (s : State Mem (Pc Unit)) (l : List Stir),
    prog.Trace Handled stirs s l ∧ .failed 1 ∈ l ∧ s.mem.cancelled s.mem.receiveLoopCts = true := by
  obtain ⟨s, l, h, hl⟩ := Program.exists_of_history prog stirs handled (failing .std)
    (fun _ l => l) [.accepted 1, .failed 1] rfl
  subst hl
  have hlast : ∀ j, .accepted j ∈ [Stir.accepted 1] → j ≤ 1 := by simp
  exact ⟨s, _, h, by simp, ((connectable h).2.2 [.accepted 1] (.failed 1) [] rfl hlast (by simp)).2.2⟩

/-- The continuation has no handler for other exceptions: nothing cancels the token source, and no further
`connect()` is accepted. -/
theorem unhandled_wedges : ¬ ∀ (s : State Mem (Pc Unit)) (l : List Stir), prog.Trace (fun _ _ => True) stirs s l →
    ∀ l₁ e l₂, l = l₁ ++ e :: l₂ → e.Closes l₁ → (∀ k, .accepted k ∉ l₂) → .rejected ∉ l₂ := by
  intro hall
  obtain ⟨s, l, h, hl⟩ := Program.exists_of_history prog stirs Test.all
    (failing .other ++ again) (fun _ l => l) [.accepted 1, .failed 1, .rejected] rfl
  subst hl
  have hlast : ∀ j, .accepted j ∈ [Stir.accepted 1] → j ≤ 1 := by simp
  exact hall s _ h [.accepted 1] (.failed 1) [.rejected] rfl hlast (by simp) (by simp)

end SignalRClient.Transport
