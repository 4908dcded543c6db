import SignalRClient.Session.Model

/-!
# One token in a session

In a session one thing at a time can bring a message: a receive loop that is under way, or the thread that is
to call `connect()`, of `start()` or of a `reconnect()`.  There is one token for all of these (`Has`): `start()`
takes it as it begins the session, `connect()` hands it to the loop of the client it makes, the loop hands it to
the error callback, an attempt that fails hands it back to the `try_reconnect()` that waits for it.
-/

namespace SignalRClient.Session

open Threads

/-! ## The token -/

/-- The connection is at a call of `connect()`. -/
def connecting : Connection.Pc → Bool
  | .start _ _ .connect | .error _ _ _ .tryConnect => true
  | _ => false

/-- The connection is on its way to a call of `connect()`. -/
def mayConnect : Connection.Pc → Bool
  | .start _ _ q => match q with
    | .newCts | .reset | .fields | .unlock | .attach | .negotiate | .negotiating | .startTransport _ | .create
    | .connect => true
    | _ => false
  | .error _ _ _ q => match q with
    | .check | .setException | .lock | .wait | .cas | .capture | .unlock | .callback | .relock | .recheckCts
    | .recheckState | .reset | .release | .quit | .build | .tryCheck | .tryConnect | .tryFailed | .tryWindow
    | .retryCheck => true
    | _ => false
  | _ => false

/-- … and no loop belongs to its call yet. -/
def Entitled (p : Pc) : Prop := mayConnect p.conn = true ∧ (connecting p.conn = true → p.trans.made = none)

/-- The attempt of `try_reconnect()` that is to be repeated when it fails. -/
def retries (p : Pc) : Option ℕ :=
  match p.conn with
  | .error _ _ _ .tryConnect => p.trans.made
  | .error _ _ _ .tryWait => some p.attempt
  | _ => none

/-- `start()` before it begins the session, a thread of the connection, a holder of a loop. -/
inductive Holder where
  | origin | conn (t : ℕ) | trans (w : Transport.Holder)
  deriving DecidableEq

/-- The transport in a session. -/
abbrev transport (s : State Mem Pc) : State Transport.Mem (Transport.Pc (Option Json)) := s.project Mem.trans Pc.trans

/-- Who has the token. -/
def Has (s : State Mem Pc) : Holder → Prop
  | .origin => s.mem.conn.sessions = 0
  | .conn t => Entitled (s.pc t) ∨ ∃ k, retries (s.pc t) = some k ∧ Transport.Refused (transport s) k
  | .trans w => Transport.Holds (transport s) w

/-! ## Steps of the connection -/

section

variable {t : ℕ} {m m' : Connection.Mem} {p p' : Connection.Pc} {i : Connection.Input}

theorem mayConnect_start {n c : ℕ} {q : Connection.StartPc} {o : Connection.Outcome}
    (h : Connection.runStart m n c q o = some (m', p')) (hm : mayConnect p' = true) :
    mayConnect (.start n c q) = true ∨ q = .cas ∧ m.connState = .disconnected := by
  cases q <;> simp only [Connection.runStart] at h <;> repeat' (split at h)
  all_goals simp only [reduceCtorEq, Option.some.injEq, Prod.mk.injEq] at h
  all_goals obtain ⟨-, rfl⟩ := h
  all_goals first | exact .inl rfl | (simp [mayConnect] at hm; done) | exact .inr ⟨rfl, by assumption⟩

theorem mayConnect_error {n k c : ℕ} {q : Connection.ErrorPc} {o : Connection.Outcome}
    (h : Connection.runError m n k c q o = some (m', p')) (hm : mayConnect p' = true) :
    mayConnect (.error n k c q) = true ∨ q = .tryWait ∧ o = .fault := by
  cases q <;> simp only [Connection.runError] at h <;> repeat' (split at h)
  all_goals simp only [reduceCtorEq, Option.some.injEq, Prod.mk.injEq] at h
  all_goals obtain ⟨-, rfl⟩ := h
  all_goals first | exact .inl rfl | (simp [mayConnect] at hm; done) | exact .inr ⟨rfl, rfl⟩

/-- How the connection gets on its way to a `connect()`. -/
theorem mayConnect_next (h : Connection.next t m p i = some (m', p')) (hm : mayConnect p' = true) :
    mayConnect p = true ∨ (∃ n c, p = .start n c .cas ∧ m.connState = .disconnected) ∨
      (∃ n k c, p = .error n k c .tryWait ∧ i = .task .fault) ∨ ∃ n, p = .idle ∧ i = .call (.error n) := by
  cases Connection.next_leads h with
  | @enter k _ _ _ _ hp =>
    subst hp
    cases k with
    | error n => exact .inr (.inr (.inr ⟨n, rfl, rfl⟩))
    | _ => cases hm
  | start hr =>
    rcases mayConnect_start hr hm with h | ⟨rfl, hd⟩
    · exact .inl h
    · exact .inr (.inl ⟨_, _, rfl, hd⟩)
  | error hr =>
    rcases mayConnect_error hr hm with h | ⟨rfl, rfl⟩
    · exact .inl h
    · exact .inr (.inr (.inl ⟨_, _, _, rfl, rfl⟩))
  | _ => cases hm

/-- Only a call of `connect()` leads to the wait for its attempt. -/
theorem next_tryWait {n k c : ℕ} (h : Connection.next t m p i = some (m', .error n k c .tryWait)) :
    p = .error n k c .tryConnect ∧ m.transport ≠ none := by
  cases Connection.next_leads h with
  | @enter k _ _ _ _ hp => cases k <;> cases hp
  | @error n k c k' c' q q' o _ hr =>
    cases q <;> simp only [Connection.runError] at hr <;> repeat' (split at hr)
    all_goals simp only [reduceCtorEq, Option.some.injEq, Prod.mk.injEq] at hr
    all_goals simp_all

end

/-! ## The token is passed on -/

/-- A call of the transport is one that the connection is at. -/
def AtSite (c : Transport.Call) (q : Connection.Pc) : Prop :=
  match c with
  | .connect _ => connecting q = true
  | .disconnect false _ => ∃ g, q = .stop g .disconnect
  | .disconnect true _ => True

/-- What holds in every session. -/
structure Tokens (s : State Mem Pc) : Prop where
  sole : Sole (Has s)
  unique : ∀ t u k, retries (s.pc t) = some k → retries (s.pc u) = some k → t = u
  bound : ∀ t k, retries (s.pc t) = some k → k ≤ s.mem.trans.connects
  sites : ∀ t c, (s.pc t).trans.call = some c → AtSite c (s.pc t).conn

section

variable {s : State Mem Pc} {t : ℕ} {m : Mem} {p : Pc}

theorem transport_set : transport (s.set t m p) = (transport s).set t m.trans p.trans := State.project_set ..

/-- The rule for a step in which no loop and no attempt is touched. -/
theorem transport_still (hm : m.trans = s.mem.trans) (hp : p.trans = (s.pc t).trans) :
    transport (s.set t m p) = transport s := by
  rw [transport_set, hm, hp]
  exact State.set_self (transport s) t

/-- The numbers of the attempts, after a step of thread `t`. -/
theorem Tokens.numbers (h : Tokens s) (hle : s.mem.trans.connects ≤ m.trans.connects)
    (hp : ∀ k, retries p = some k →
      retries (s.pc t) = some k ∨ (k = s.mem.trans.connects + 1 ∧ k ≤ m.trans.connects)) :
    (∀ u v k, retries ((s.set t m p).pc u) = some k → retries ((s.set t m p).pc v) = some k → u = v) ∧
      ∀ u k, retries ((s.set t m p).pc u) = some k → k ≤ m.trans.connects := by
  have hother : ∀ u, u ≠ t → ∀ k, retries ((s.set t m p).pc u) = some k → retries (s.pc u) = some k := by
    intro u hu k hk
    rwa [State.set_pc_of_ne _ _ _ _ hu] at hk
  have hown : ∀ k, retries ((s.set t m p).pc t) = some k →
      retries (s.pc t) = some k ∨ (k = s.mem.trans.connects + 1 ∧ k ≤ m.trans.connects) := by
    intro k hk
    rw [State.set_pc_self] at hk
    exact hp k hk
  have hne : ∀ u, u ≠ t → ∀ k, retries ((s.set t m p).pc u) = some k → retries ((s.set t m p).pc t) = some k →
      False := by
    intro u hu k hk hk'
    have hk := hother u hu k hk
    rcases hown k hk' with hk' | ⟨rfl, -⟩
    · exact hu (h.unique u t k hk hk')
    · have := h.bound u _ hk
      omega
  refine ⟨fun u v k hu hv => ?_, fun u k hk => ?_⟩
  · by_cases hut : u = t
    · by_cases hvt : v = t
      · rw [hut, hvt]
      · exact (hne v hvt k hv (hut ▸ hu)).elim
    · by_cases hvt : v = t
      · exact (hne u hut k hu (hvt ▸ hv)).elim
      · exact h.unique u v k (hother u hut k hu) (hother v hvt k hv)
  · by_cases hut : u = t
    · rcases hown k (hut ▸ hk) with hk | ⟨-, hk⟩
      · exact (h.bound t k hk).trans hle
      · exact hk
    · exact (h.bound u k (hother u hut k hk)).trans hle

/-- Which calls there are, after a step of thread `t`. -/
theorem Tokens.calls (h : Tokens s) (hp : ∀ c, p.trans.call = some c → AtSite c p.conn) :
    ∀ u c, ((s.set t m p).pc u).trans.call = some c → AtSite c ((s.set t m p).pc u).conn := by
  intro u c hc
  by_cases hut : u = t
  · subst hut
    rw [State.set_pc_self] at hc ⊢
    exact hp c hc
  · rw [State.set_pc_of_ne _ _ _ _ hut] at hc ⊢
    exact h.sites u c hc

/-- Who has the token after a step of thread `t` and had it not before: the thread itself, a holder of a loop,
or one whose attempt is refused by the step. -/
theorem has_set {w : Holder} (hse : m.conn.sessions = 0 → s.mem.conn.sessions = 0) (hw : Has (s.set t m p) w)
    (hold : ¬ Has s w) :
    (w = .conn t ∧ (Entitled p ∨ ∃ k, retries p = some k ∧ Transport.Refused (transport (s.set t m p)) k)) ∨
    (∃ v, w = .trans v ∧ Transport.Holds (transport (s.set t m p)) v ∧ ¬ Transport.Holds (transport s) v) ∨
    (∃ u k, w = .conn u ∧ u ≠ t ∧ retries (s.pc u) = some k ∧ Transport.Refused (transport (s.set t m p)) k ∧
      ¬ Transport.Refused (transport s) k) := by
  cases w with
  | origin => exact absurd (hse hw) hold
  | trans v => exact .inr (.inl ⟨v, rfl, hw, hold⟩)
  | conn u =>
    by_cases hut : u = t
    · subst hut
      simp only [Has, State.set_pc_self] at hw
      exact .inl ⟨rfl, hw⟩
    · simp only [Has, State.set_pc_of_ne _ _ _ _ hut] at hw
      rcases hw with hw | ⟨k, hk, hr⟩
      · exact absurd (.inl hw) hold
      · exact .inr (.inr ⟨u, k, rfl, hut, hk, hr, fun hr' => hold (.inr ⟨k, hk, hr'⟩)⟩)

/-- A session does not begin again. -/
theorem sessions_mono {i : Connection.Input} {q : Connection.Pc} {c : Connection.Mem} {p₀ : Connection.Pc}
    (h : Connection.next t s.mem.conn p₀ i = some (c, q)) (h0 : c.sessions = 0) : s.mem.conn.sessions = 0 := by
  rcases (Connection.next_writes h).sessions with e | ⟨e, -⟩
  · rw [← e]; exact h0
  · omega

/-- A step of the connection alone. -/
theorem Tokens.conn (h : Tokens s) {i : Connection.Input} {c : Connection.Mem} {q : Connection.Pc}
    (hok : ∀ n c, (s.pc t).conn = .start n c .cas → s.mem.conn.connState = .disconnected → s.mem.conn.sessions = 0)
    (ha : alone s.mem (s.pc t) i = true) (hn : Connection.next t s.mem.conn (s.pc t).conn i = some (c, q)) :
    Tokens (s.set t { s.mem with conn := c } { s.pc t with conn := q }) := by
  simp only [alone, Bool.and_eq_true, Option.isNone_iff_eq_none] at ha
  obtain ⟨⟨hcall, hsite⟩, hi⟩ := ha
  have hmade : (s.pc t).trans.made = none := by simp [Transport.Pc.made, hcall]
  have hstill : transport (s.set t { s.mem with conn := c } { s.pc t with conn := q }) = transport s :=
    transport_still rfl rfl
  -- the thread does not come to wait for an attempt
  have hretry : retries { s.pc t with conn := q } = none := by
    cases hq : q with
    | error n k d r =>
      cases r with
      | tryConnect => exact hmade
      | tryWait =>
        rw [hq] at hn
        obtain ⟨hp, htr⟩ := next_tryWait hn
        simp [site, hp, htr] at hsite
      | _ => rfl
    | _ => rfl
  have hnum := h.numbers (t := t) (m := { s.mem with conn := c }) (p := { s.pc t with conn := q }) le_rfl
    fun k hk => by rw [hretry] at hk; cases hk
  refine ⟨?_, hnum.1, hnum.2, h.calls fun c' hc' => ?_⟩
  swap
  · have hc' : (s.pc t).trans.call = some c' := hc'
    rw [hcall] at hc'
    cases hc'
  -- who has the token now had it before, or has begun the session
  have hgain : ∀ w, Has (s.set t { s.mem with conn := c } { s.pc t with conn := q }) w → ¬ Has s w →
      w = .conn t ∧ ∃ n d, (s.pc t).conn = .start n d .cas ∧ s.mem.conn.connState = .disconnected := by
    intro w hw hold
    rcases has_set (sessions_mono hn) hw hold with ⟨rfl, hent | ⟨k, hk, -⟩⟩ | ⟨v, -, hv, hv'⟩ | ⟨u, k, -, -, -, hk, hk'⟩
    · refine ⟨rfl, ?_⟩
      rcases mayConnect_next hn hent.1 with hm | hcas | ⟨n, k, d, hp, rfl⟩ | ⟨n, hp, rfl⟩
      · exact absurd (.inl ⟨hm, fun _ => hmade⟩) hold
      · exact hcas
      · have hi' : s.mem.trans.connectTce (s.pc t).attempt = .failed := by simpa [hp] using hi
        exact absurd (.inr ⟨(s.pc t).attempt, by simp [retries, hp], .inl hi'⟩) hold
      · simp at hi
    · rw [hretry] at hk
      cases hk
    · rw [hstill] at hv
      exact absurd hv hv'
    · rw [hstill] at hk
      exact absurd hk hk'
  by_cases hcas : ∃ n d, (s.pc t).conn = .start n d .cas ∧ s.mem.conn.connState = .disconnected
  · obtain ⟨n, d, hp, hd⟩ := hcas
    refine h.sole.pass (.conn t) .origin (fun w hw => ?_) (hok n d hp hd) ?_
    · by_cases hold : Has s w
      · exact .inl hold
      · exact .inr (hgain w hw hold).1
    · intro h0
      rw [hp] at hn
      obtain ⟨o, -, hr⟩ := Connection.next_start hn
      rw [Connection.runStart, if_pos hd] at hr
      cases hr
      simp [Has] at h0
  · refine h.sole.mono fun w hw => ?_
    by_contra hold
    exact hcas (hgain w hw hold).2

theorem connecting_of_site {m : Connection.Mem} {q : Connection.Pc} (h : site m q = some .connect) :
    connecting q = true := by
  cases q with
  | start n c r => cases r <;> first | rfl | cases h
  | error n k c r => cases r <;> first | rfl | cases h
  | stop g r =>
    cases r <;> simp only [site, reduceCtorEq] at h
    split at h <;> cases h
  | _ => cases h

theorem stop_of_site {m : Connection.Mem} {q : Connection.Pc} (h : site m q = some .disconnect) :
    ∃ g, q = .stop g .disconnect := by
  cases q with
  | start n c r => cases r <;> cases h
  | error n k c r =>
    cases r <;> simp only [site, reduceCtorEq] at h
    split at h <;> cases h
  | stop g r => cases r <;> first | exact ⟨g, rfl⟩ | cases h
  | _ => cases h

theorem sync_connect {m : Mem} {p : Pc} {o : Connection.Outcome} (hc : p.trans.call = none)
    (h : sync m p .connect o = .alone) : site m.conn p.conn = some .connect := by
  simp only [sync, hc] at h
  split at h
  · assumption
  · cases h

theorem sync_disconnect {m : Mem} {p : Pc} {o : Connection.Outcome} (hc : p.trans.call = none)
    (h : sync m p .disconnect o = .alone) : site m.conn p.conn = some .disconnect := by
  simp only [sync, hc] at h
  split at h
  · assumption
  · cases h

/-- A step of the transport, seen from the session. -/
structure Moves (s : State Mem Pc) (t : ℕ) (i : Transport.Input (Option Json)) (c : Transport.Mem)
    (q : Transport.Pc (Option Json)) : Prop where
  attempt : Transport.Attempt (transport s) t c q
  refused : ∀ k, Transport.Refused ((transport s).set t c q) k →
    Transport.Refused (transport s) k ∨ ((s.pc t).trans = ⟨.connected k .cancel, none⟩ ∧ ∃ f, i = .go f)
  bound : ∀ k, Transport.Refused (transport s) k → k ≤ s.mem.trans.connects

theorem moves_holds {ok : State Mem Pc → Act Input → Prop} (hs : prog.Reach ok s)
    {i : Transport.Input (Option Json)} {c : Transport.Mem} {q : Transport.Pc (Option Json)}
    (hn : Transport.next t s.mem.trans (s.pc t).trans i = some (c, q)) : Moves s t i c q := by
  have hr := reachable_transport hs
  have hn' : Transport.next t (transport s).mem ((transport s).pc t) i = some (c, q) := hn
  exact ⟨Transport.attempt_holds hr hn', fun k hk => Transport.next_refused hn' hk,
    fun k hk => Transport.refused_bound hr k hk⟩

/-- A holder that loses its loop loses the token. -/
theorem not_has_of_lost {w : Transport.Holder} (h : ¬ Transport.Holds ((transport s).set t m.trans p.trans) w) :
    ¬ Has (s.set t m p) (.trans w) := by
  intro hw
  have hw : Transport.Holds (transport (s.set t m p)) w := hw
  rw [transport_set] at hw
  exact h hw

/-! ## Steps of the transport alone -/

section

variable {i : Transport.Input (Option Json)} {o : Connection.Outcome} {c : Transport.Mem}
  {q : Transport.Pc (Option Json)}

/-- The session after a step of the transport alone. -/
abbrev stepped (s : State Mem Pc) (t : ℕ) (c : Transport.Mem) (q : Transport.Pc (Option Json)) : State Mem Pc :=
  s.set t { s.mem with trans := c } { s.pc t with trans := q }

theorem mayConnect_of_connecting {q : Connection.Pc} (h : connecting q = true) : mayConnect q = true := by
  cases q with
  | start n d r => cases r <;> first | rfl | cases h
  | error n k d r => cases r <;> first | rfl | cases h
  | _ => cases h

/-- What a thread waits for after the step: the attempt of its own call, or the one that it waited for before. -/
theorem retries_stepped {p : Pc} {k : ℕ} (h : retries { p with trans := q } = some k) :
    (q.made = some k ∧ retries p = p.trans.made) ∨ (connecting p.conn = false ∧ retries p = some k) := by
  cases hp : p.conn with
  | error n k' d r =>
    cases r with
    | tryConnect => exact .inl ⟨by simpa [retries, hp] using h, by simp [retries, hp]⟩
    | tryWait => exact .inr ⟨rfl, by simpa [retries, hp] using h⟩
    | _ => simp [retries, hp] at h
  | _ => simp [retries, hp] at h

/-- The client of a call stays, is made, or is none of its any more. -/
theorem Moves.made (hm : Moves s t i c q) :
    q.made = (s.pc t).trans.made ∨ q.made = none ∨
      (q.made = some (s.mem.trans.connects + 1) ∧ c.connects = s.mem.trans.connects + 1) := by
  cases hm.attempt with
  | quiet hq _ _ | pass _ _ hq _ _ _ _ => exact .inl hq
  | make _ hq _ hn => exact .inr (.inr ⟨hq, hn⟩)
  | refuse _ _ hq _ _ _ _ | finish _ _ hq _ _ => exact .inr (.inl hq)

theorem Moves.waits (hm : Moves s t i c q) {k : ℕ} (hk : retries { s.pc t with trans := q } = some k) :
    retries (s.pc t) = some k ∨ (k = s.mem.trans.connects + 1 ∧ k ≤ c.connects) := by
  rcases retries_stepped hk with ⟨hk, hr⟩ | ⟨-, hk⟩
  · rw [hr]
    rcases hm.made with e | e | ⟨e, hc⟩
    · exact .inl (e.symm.trans hk)
    · rw [e] at hk; cases hk
    · rw [e] at hk
      cases hk
      exact .inr ⟨rfl, hc.ge⟩
  · exact .inl hk

/-- A new call is one that the connection is at. -/
theorem Tokens.atSite (h : Tokens s) (hs : sync s.mem (s.pc t) i o = .alone)
    (hn : Transport.next t s.mem.trans (s.pc t).trans i = some (c, q)) {d : Transport.Call} (hd : q.call = some d) :
    AtSite d (s.pc t).conn := by
  have hn' : Transport.next t (transport s).mem ((transport s).pc t) i = some (c, q) := hn
  rcases Transport.next_call hn' hd with ⟨d₀, hd₀, hsame⟩ | ⟨hnone, hi⟩
  · have hat := h.sites t d₀ hd₀
    rcases d with r | ⟨b, r⟩
    · obtain ⟨r₀, rfl⟩ := hsame
      exact hat
    · cases b with
      | false => obtain ⟨r₀, rfl⟩ := hsame; exact hat
      | true => trivial
  · have hnone : (s.pc t).trans.call = none := hnone
    rcases d with r | ⟨b, r⟩
    · obtain rfl : i = .connect := hi
      exact connecting_of_site (sync_connect hnone hs)
    · cases b with
      | true => trivial
      | false =>
        obtain rfl : i = .disconnect := hi
        exact stop_of_site (sync_disconnect hnone hs)

/-- The attempt of a loop that is given up fails: the thread that waits for it, if there is one, has the token. -/
theorem Tokens.refuse (h : Tokens s) (hm : Moves s t i c q) {k : ℕ} {f : Option Transport.Fault}
    (hpc : (s.pc t).trans = ⟨.connected k .cancel, none⟩)
    (hn : Transport.next t s.mem.trans (s.pc t).trans (.go f) = some (c, q)) : Sole (Has (stepped s t c q)) := by
  obtain ⟨⟨hhad, hlost, hkeep⟩, -, hq⟩ := Transport.refuse_ends (s := transport s) hpc hn
  have hsame : q.made = (s.pc t).trans.made := by rw [hq, hpc]; rfl
  have hret : retries { s.pc t with trans := q } = retries (s.pc t) := by simp only [retries, hsame]
  -- no other attempt fails
  have honly : ∀ j, Transport.Refused (transport (stepped s t c q)) j → Transport.Refused (transport s) j ∨ j = k := by
    intro j hj
    rw [transport_set] at hj
    rcases hm.refused j hj with h | ⟨h, -⟩
    · exact .inl h
    · rw [hpc] at h
      cases h
      exact .inr rfl
  have hgain : ∀ w, Has (stepped s t c q) w → ¬ Has s w → ∃ u, w = .conn u ∧ retries (s.pc u) = some k := by
    intro w hw hold
    rcases has_set (m := { s.mem with trans := c }) id hw hold with
      ⟨rfl, hent | ⟨j, hj, href⟩⟩ | ⟨v, rfl, hv, hv'⟩ | ⟨u, j, rfl, -, hj, href, href'⟩
    · exact absurd (.inl ⟨hent.1, fun hcn => hsame ▸ hent.2 hcn⟩) hold
    · rw [hret] at hj
      rcases honly j href with href | rfl
      · exact absurd (.inr ⟨j, hj, href⟩) hold
      · exact ⟨t, rfl, hj⟩
    · rw [transport_set] at hv
      exact absurd (hkeep v hv) hv'
    · exact ⟨u, rfl, (honly j href).resolve_left href' ▸ hj⟩
  by_cases hwait : ∃ u, retries (s.pc u) = some k
  · obtain ⟨u, hu⟩ := hwait
    refine h.sole.pass (.conn u) (.trans (.frame t)) (fun w hw => ?_) hhad (not_has_of_lost hlost)
    by_cases hold : Has s w
    · exact .inl hold
    · obtain ⟨v, rfl, hv⟩ := hgain w hw hold
      exact .inr (by rw [h.unique v u k hv hu])
  · refine h.sole.mono fun w hw => ?_
    by_contra hold
    obtain ⟨u, -, hu⟩ := hgain w hw hold
    exact hwait ⟨u, hu⟩

/-- When no attempt fails, the token comes to a holder of a loop, or to a thread whose call is done with its own. -/
theorem has_stepped (hkeep : ∀ k, Transport.Refused ((transport s).set t c q) k → Transport.Refused (transport s) k)
    {w : Holder} (hw : Has (stepped s t c q) w) (hold : ¬ Has s w) :
    (∃ v, w = .trans v ∧ Transport.Holds ((transport s).set t c q) v ∧ ¬ Transport.Holds (transport s) v) ∨
    (w = .conn t ∧ q.made ≠ (s.pc t).trans.made ∧
      ((connecting (s.pc t).conn = true → q.made = none) ∨
        ∃ k, q.made = some k ∧ Transport.Refused (transport s) k)) := by
  have hset : transport (stepped s t c q) = (transport s).set t c q := transport_set
  rcases has_set (m := { s.mem with trans := c }) id hw hold with
    ⟨rfl, hent | ⟨j, hj, href⟩⟩ | ⟨v, rfl, hv, hv'⟩ | ⟨u, j, rfl, -, hj, href, href'⟩
  · refine .inr ⟨rfl, fun hsame => hold (.inl ⟨hent.1, fun hcn => ?_⟩), .inl hent.2⟩
    exact hsame ▸ hent.2 hcn
  · rw [hset] at href
    have href := hkeep j href
    rcases retries_stepped hj with ⟨hj, hr⟩ | ⟨-, hj⟩
    · exact .inr ⟨rfl, fun hsame => hold (.inr ⟨j, by rw [hr, ← hsame, hj], href⟩), .inr ⟨j, hj, href⟩⟩
    · exact absurd (.inr ⟨j, hj, href⟩) hold
  · rw [hset] at hv
    exact .inl ⟨v, rfl, hv, hv'⟩
  · rw [hset] at href
    exact absurd (hkeep j href) href'

/-- `connect()` hands the token to the loop of the client that it has made. -/
theorem Tokens.make (h : Tokens s) (hm : Moves s t i c q)
    (hkeep : ∀ k, Transport.Refused ((transport s).set t c q) k → Transport.Refused (transport s) k)
    (hcall : (s.pc t).trans.call = some (.connect .factory)) (hq : q.made = some (s.mem.trans.connects + 1))
    (hholds : ∀ v, Transport.Holds ((transport s).set t c q) v → Transport.Holds (transport s) v ∨ v = .call t) :
    Sole (Has (stepped s t c q)) := by
  have hcon : connecting (s.pc t).conn = true := h.sites t _ hcall
  have hfresh : ∀ k, q.made = some k → ¬ Transport.Refused (transport s) k := by
    intro k hk href
    have hle := hm.bound k href
    rw [hq] at hk
    cases hk
    have : s.mem.trans.connects + 1 ≤ s.mem.trans.connects := hle
    omega
  have hent : Entitled (s.pc t) :=
    ⟨mayConnect_of_connecting hcon, fun _ => by simp [Transport.Pc.made, hcall, Transport.Call.made]⟩
  refine h.sole.pass (.trans (.call t)) (.conn t) (fun w hw => ?_) (.inl hent) fun hw => ?_
  · by_cases hold : Has s w
    · exact .inl hold
    · rcases has_stepped hkeep hw hold with ⟨v, rfl, hv, hv'⟩ | ⟨-, -, hnone | ⟨k, hk, href⟩⟩
      · exact .inr (by rw [(hholds v hv).resolve_left hv'])
      · rw [hnone hcon] at hq; cases hq
      · exact absurd href (hfresh k hk)
  · -- the thread waits for an attempt that has just begun
    simp only [Has, State.set_pc_self] at hw
    rcases hw with hw | ⟨k, hk, href⟩
    · have hnone : q.made = none := hw.2 hcon
      rw [hq] at hnone
      cases hnone
    · rw [transport_set] at href
      rcases retries_stepped hk with ⟨hk, -⟩ | ⟨hnot, -⟩
      · exact hfresh k hk (hkeep k href)
      · rw [hcon] at hnot
        cases hnot

/-- The token after a step in which no attempt fails. -/
theorem Tokens.pass (h : Tokens s) (hm : Moves s t i c q) (hs : sync s.mem (s.pc t) i o = .alone)
    (hkeep : ∀ k, Transport.Refused ((transport s).set t c q) k → Transport.Refused (transport s) k) :
    Sole (Has (stepped s t c q)) := by
  cases hm.attempt with
  | quiet hsame hholds _ =>
    refine h.sole.mono fun w hw => ?_
    by_contra hold
    rcases has_stepped hkeep hw hold with ⟨v, -, hv, hv'⟩ | ⟨-, hne, -⟩
    · exact hv' (hholds v hv)
    · exact hne hsame
  | pass a b hsame hhad hlost hholds _ =>
    refine h.sole.pass (.trans b) (.trans a) (fun w hw => ?_) hhad (not_has_of_lost hlost)
    by_cases hold : Has s w
    · exact .inl hold
    · rcases has_stepped hkeep hw hold with ⟨v, rfl, hv, hv'⟩ | ⟨-, hne, -⟩
      · exact .inr (by rw [(hholds v hv).resolve_left hv'])
      · exact absurd hsame hne
  | make hcall hq hholds _ => exact h.make hm hkeep hcall hq hholds
  | refuse k _ _ hhad hlost hholds _ =>
    refine h.sole.pass (.conn t) (.trans (.call t)) (fun w hw => ?_) hhad (not_has_of_lost hlost)
    by_cases hold : Has s w
    · exact .inl hold
    · rcases has_stepped hkeep hw hold with ⟨v, rfl, hv, hv'⟩ | ⟨rfl, -⟩
      · exact absurd (hholds v hv) hv'
      · exact .inr rfl
  | finish k hcall _ _ _ =>
    -- the connection steps as well when its call is over
    have hcall : (s.pc t).trans.call = some (.connect (.returned k)) := hcall
    simp only [sync, hcall, ended] at hs
    split at hs <;> cases hs

/-- A step of the transport alone. -/
theorem Tokens.trans (h : Tokens s) (hm : Moves s t i c q) (hs : sync s.mem (s.pc t) i o = .alone)
    (hn : Transport.next t s.mem.trans (s.pc t).trans i = some (c, q)) : Tokens (stepped s t c q) := by
  have hnum := h.numbers (t := t) (m := { s.mem with trans := c }) (p := { s.pc t with trans := q })
    (Transport.connects_mono hm.attempt) fun k hk => hm.waits hk
  refine ⟨?_, hnum.1, hnum.2, h.calls fun d hd => h.atSite hs hn hd⟩
  by_cases hcancel : ∃ k f, (s.pc t).trans = ⟨.connected k .cancel, none⟩ ∧ i = .go f
  · obtain ⟨k, f, hpc, rfl⟩ := hcancel
    exact h.refuse hm hpc hn
  · exact h.pass hm hs fun k hk =>
      (hm.refused k hk).resolve_right fun ⟨hpc, f, hi⟩ => hcancel ⟨k, f, hpc, hi⟩

end

/-! ## Steps of both -/

/-- When the two step together: a call is over, or the transport makes one of its callbacks. -/
inductive Meeting (m : Mem) (p : Pc) (i : Transport.Input (Option Json)) : Connection.Input → Prop
  | returned (k : ℕ) : p.trans.call = some (.connect (.returned k)) → (site m.conn p.conn).isSome = true →
      Meeting m p i (.task .ok)
  | thrown (o : Connection.Outcome) : p.trans.call = some (.connect .thrown) → throws o = true →
      (site m.conn p.conn).isSome = true → Meeting m p i (.task o)
  | closed (q : Transport.DisconnectPc) (o : Connection.Outcome) : p.trans.call = some (.disconnect false q) →
      q = .returned ∨ q = .thrown → (site m.conn p.conn).isSome = true → Meeting m p i (.task o)
  | message (j : Transport.Iteration) (x : Option Json) : p.trans = ⟨.message j x .process, none⟩ → i = .go none →
      Meeting m p i (.call (.message 1 x))
  | error (j : Transport.Iteration) (f : Option Transport.Fault) : p.trans = ⟨.observe j .error, none⟩ →
      i = .go f → Meeting m p i (.call (.error 1))

theorem sync_both {m : Mem} {p : Pc} {i : Transport.Input (Option Json)} {o : Connection.Outcome}
    {k : Connection.Input} (h : sync m p i o = .both k) : Meeting m p i k := by
  have hended : ∀ {o}, ended m p o = .both k → (site m.conn p.conn).isSome = true ∧ k = .task o := by
    intro o h
    simp only [ended] at h
    split at h
    · cases h
      exact ⟨by assumption, rfl⟩
    · cases h
  cases hc : p.trans.call with
  | some c =>
    rcases c with q | ⟨d, q⟩
    · cases q with
      | returned j =>
        simp only [sync, hc] at h
        obtain ⟨hs, rfl⟩ := hended h
        exact .returned j hc hs
      | thrown =>
        simp only [sync, hc] at h
        split at h
        · rename_i ho
          obtain ⟨hs, rfl⟩ := hended h
          exact .thrown o hc ho hs
        · cases h
      | _ => simp [sync, hc] at h
    · cases d with
      | true => cases q <;> simp [sync, hc] at h
      | false =>
        cases q with
        | returned =>
          simp only [sync, hc] at h
          obtain ⟨hs, rfl⟩ := hended h
          exact .closed _ _ hc (.inl rfl) hs
        | thrown =>
          simp only [sync, hc] at h
          split at h
          · obtain ⟨hs, rfl⟩ := hended h
            exact .closed _ _ hc (.inr rfl) hs
          · cases h
        | _ => simp [sync, hc] at h
  | none =>
    cases i with
    | connect | disconnect => simp only [sync, hc] at h; split at h <;> cases h
    | go f =>
      simp only [sync, hc] at h
      cases hf : p.trans.frame with
      | idle | connected j q => rw [hf] at h; cases h
      | message j x q =>
        rw [hf] at h
        cases q with
        | process =>
          simp only at h
          split at h
          · rename_i he
            cases h
            exact .message j x (Transport.Pc.ext hf hc) (by rw [he])
          · cases h
        | processing => simp only at h; split at h <;> cases h
        | _ => cases h
      | observe j q =>
        rw [hf] at h
        cases q with
        | error => cases h; exact .error j f (Transport.Pc.ext hf hc) rfl
        | erroring => simp only at h; split at h <;> cases h
        | _ => cases h
    | _ => simp only [sync, hc] at h; split at h <;> cases h

/-- After a call of `connect()` the connection waits for its attempt, or does no more connect. -/
theorem connect_over {n : ℕ} {m m' : Connection.Mem} {p p' : Connection.Pc} {o : Connection.Outcome}
    (hp : connecting p = true) (hs : (site m p).isSome = true) (ho : o = .ok ∨ throws o = true)
    (h : Connection.next n m p (.task o) = some (m', p')) :
    mayConnect p' = false ∧
      ((∃ n k c, p = .error n k c .tryConnect ∧ o = .ok ∧ p' = .error n k c .tryWait) ∨
        ∀ n k c, p' ≠ .error n k c .tryConnect ∧ p' ≠ .error n k c .tryWait) := by
  cases p with
  | start n c q =>
    cases q with
    | connect =>
      obtain ⟨o', e, hr⟩ := Connection.next_start h
      cases e
      cases o <;> simp [throws] at ho <;> (cases hr; exact ⟨rfl, .inr fun _ _ _ => ⟨by simp, by simp⟩⟩)
    | _ => cases hp
  | error n k c q =>
    cases q with
    | tryConnect =>
      obtain ⟨o', e, hr⟩ := Connection.next_error h
      cases e
      have hne : m.transport.isNone = false := by
        cases htr : m.transport with
        | none => simp [site, htr] at hs
        | some k => rfl
      simp only [Connection.runError, hne] at hr
      cases o <;> simp [throws] at ho
      · cases hr; exact ⟨rfl, .inl ⟨n, k, c, rfl, rfl, rfl⟩⟩
      · cases hr; exact ⟨rfl, .inr fun _ _ _ => ⟨by simp, by simp⟩⟩
      · cases hr; exact ⟨rfl, .inr fun _ _ _ => ⟨by simp, by simp⟩⟩
    | _ => cases hp
  | _ => cases hp

/-- A step of both that is not the call of the error callback: the connection gets nothing by it. -/
theorem Tokens.meet (h : Tokens s) {i : Transport.Input (Option Json)} {m : Mem} {p : Pc}
    (hm : Moves s t i m.trans p.trans) (hse : m.conn.sessions = 0 → s.mem.conn.sessions = 0)
    (hmay : mayConnect p.conn = false)
    (hretry : ∀ k, retries p = some k → retries (s.pc t) = some k)
    (hcancel : ∀ k, (s.pc t).trans ≠ ⟨.connected k .cancel, none⟩)
    (hmade : ∀ q, (s.pc t).trans.call = some (.connect q) → q ≠ .factory ∧ ∀ k, q ≠ .connect k) :
    Sole (Has (s.set t m p)) := by
  have hset : transport (s.set t m p) = (transport s).set t m.trans p.trans := transport_set
  have hgain : ∀ w, Has (s.set t m p) w → ¬ Has s w →
      ∃ v, w = .trans v ∧ Transport.Holds ((transport s).set t m.trans p.trans) v ∧
        ¬ Transport.Holds (transport s) v := by
    have hrefused : ∀ k, Transport.Refused (transport (s.set t m p)) k → Transport.Refused (transport s) k := by
      intro k hk
      rw [hset] at hk
      exact (hm.refused k hk).resolve_right fun hr => hcancel k hr.1
    intro w hw hold
    rcases has_set hse hw hold with ⟨rfl, hent | ⟨j, hj, href⟩⟩ | ⟨v, rfl, hv, hv'⟩ | ⟨u, j, rfl, -, hj, href, href'⟩
    · rw [hent.1] at hmay
      cases hmay
    · exact absurd (.inr ⟨j, hretry j hj, hrefused j href⟩) hold
    · rw [hset] at hv
      exact ⟨v, rfl, hv, hv'⟩
    · exact absurd (hrefused j href) href'
  have hmono : (∀ w, Transport.Holds ((transport s).set t m.trans p.trans) w → Transport.Holds (transport s) w) →
      Sole (Has (s.set t m p)) := by
    intro hkeep
    refine h.sole.mono fun w hw => ?_
    by_contra hold
    obtain ⟨v, -, hv, hv'⟩ := hgain w hw hold
    exact hv' (hkeep v hv)
  cases hm.attempt with
  | quiet _ hkeep _ => exact hmono hkeep
  | finish _ _ _ hkeep _ => exact hmono hkeep
  | pass a b _ hhad hlost hkeep _ =>
    refine h.sole.pass (.trans b) (.trans a) (fun w hw => ?_) hhad (not_has_of_lost hlost)
    by_cases hold : Has s w
    · exact .inl hold
    · obtain ⟨v, rfl, hv, hv'⟩ := hgain w hw hold
      exact .inr (by rw [(hkeep v hv).resolve_left hv'])
  | make hcall _ _ _ => exact absurd rfl (hmade _ hcall).1
  | refuse k hcall _ _ _ _ _ => exact absurd rfl ((hmade _ hcall).2 k)

/-- The error callback gets the token of the loop. -/
theorem Tokens.error (h : Tokens s) {j : Transport.Iteration} {f : Option Transport.Fault} {m : Mem} {p : Pc}
    (hm : Moves s t (.go f) m.trans p.trans) (hse : m.conn.sessions = 0 → s.mem.conn.sessions = 0)
    (hpc : (s.pc t).trans = ⟨.observe j .error, none⟩)
    (hn : Transport.next t s.mem.trans (s.pc t).trans (.go f) = some (m.trans, p.trans)) :
    Sole (Has (s.set t m p)) := by
  have hset : transport (s.set t m p) = (transport s).set t m.trans p.trans := transport_set
  obtain ⟨⟨hhad, hlost, hkeep⟩, -, -⟩ := Transport.error_ends (s := transport s) hpc hn
  refine h.sole.pass (.conn t) (.trans (.frame t)) (fun w hw => ?_) hhad (not_has_of_lost hlost)
  by_cases hold : Has s w
  · exact .inl hold
  · rcases has_set hse hw hold with ⟨rfl, -⟩ | ⟨v, rfl, hv, hv'⟩ | ⟨u, j', rfl, -, hj, href, href'⟩
    · exact .inr rfl
    · rw [hset] at hv
      exact absurd (hkeep v hv) hv'
    · rw [hset] at href
      rcases hm.refused j' href with hr | ⟨hr, -⟩
      · exact absurd hr href'
      · rw [hpc] at hr
        cases hr

/-- A call that is over leaves at most the one of the destructor. -/
theorem call_over {i : Transport.Input (Option Json)} {c : Transport.Mem} {q : Transport.Pc (Option Json)}
    {m : Transport.Mem} {p : Transport.Pc (Option Json)}
    (hc : (∃ k, p.call = some (.connect (.returned k))) ∨ p.call = some (.connect .thrown) ∨
      ∃ d r, p.call = some (.disconnect d r) ∧ (r = .returned ∨ r = .thrown))
    (hn : Transport.next t m p i = some (c, q)) : q.call = none ∨ q.call = some (.disconnect true .lock) := by
  rcases Transport.next_apart hn with ⟨c₀, f, c', hc₀, hr, rfl⟩ | ⟨hnone, -⟩
  · rw [hc₀] at hc
    rcases hc with ⟨k, hc⟩ | hc | ⟨d, r, hc, hd⟩
    · cases hc
      cases Transport.runCall_step hr
      exact Transport.release_call m
    · cases hc
      cases Transport.runCall_step hr
      exact Transport.release_call m
    · cases hc
      rcases hd with rfl | rfl
      all_goals
        cases Transport.runCall_step hr with
        | destroyed => exact .inl rfl
        | stopped => exact Transport.release_call m
  · rcases hc with ⟨k, hc⟩ | hc | ⟨d, r, hc, -⟩ <;> rw [hnone] at hc <;> cases hc

theorem next_begin {m m' : Connection.Mem} {p p' : Connection.Pc} {k : Connection.Call}
    (h : Connection.next t m p (.call k) = some (m', p')) :
    p = .idle ∧ p' = k.entry := by
  cases Connection.next_leads h with
  | enter _ _ hp => exact ⟨rfl, hp⟩

/-- A connection that is at no `connect()` of `try_reconnect()`, nor waits for one. -/
theorem retries_of_conn {p p' : Pc}
    (h : ∀ n k c, p.conn ≠ .error n k c .tryConnect ∧ p.conn ≠ .error n k c .tryWait) :
    ∀ k, retries p = some k → retries p' = some k := by
  intro k hk
  cases hc : p.conn with
  | error n' k' d r =>
    rw [hc] at h
    cases r with
    | tryConnect => exact absurd rfl (h n' k' d).1
    | tryWait => exact absurd rfl (h n' k' d).2
    | _ => simp [retries, hc] at hk
  | _ => simp [retries, hc] at hk

/-- When both step, it is enough to say who gets the token, which attempt is waited for and which calls there
are. -/
theorem Tokens.join (h : Tokens s) {i : Transport.Input (Option Json)} (hm : Moves s t i m.trans p.trans)
    (hretry : ∀ k, retries p = some k → retries (s.pc t) = some k)
    (hcall : p.trans.call = none ∨ p.trans.call = some (.disconnect true .lock))
    (hsole : Sole (Has (s.set t m p))) : Tokens (s.set t m p) := by
  have hnum := h.numbers (t := t) (m := m) (p := p) (Transport.connects_mono hm.attempt) fun k hk => .inl (hretry k hk)
  refine ⟨hsole, hnum.1, hnum.2, h.calls fun d hd => ?_⟩
  rcases hcall with e | e <;> rw [e] at hd <;> cases hd
  trivial

/-- A step of both. -/
theorem Tokens.both (h : Tokens s) {i : Transport.Input (Option Json)} {k : Connection.Input} {c : Connection.Mem}
    {q : Connection.Pc} {c' : Transport.Mem} {q' : Transport.Pc (Option Json)} {n : ℕ}
    (hm : Moves s t i c' q') (hmeet : Meeting s.mem (s.pc t) i k)
    (hn : Connection.next t s.mem.conn (s.pc t).conn k = some (c, q))
    (hn' : Transport.next t s.mem.trans (s.pc t).trans i = some (c', q')) :
    Tokens (s.set t ⟨c, c', n⟩ ⟨q, q', attemptOf (s.pc t).trans.call (s.pc t).attempt⟩) := by
  have hse : c.sessions = 0 → s.mem.conn.sessions = 0 := sessions_mono hn
  cases hmeet with
  | returned k hc hs =>
    have hcon : connecting (s.pc t).conn = true := h.sites t _ hc
    obtain ⟨hmay, hnext⟩ := connect_over hcon hs (.inl rfl) hn
    have hretry : ∀ j, retries ⟨q, q', attemptOf (s.pc t).trans.call (s.pc t).attempt⟩ = some j →
        retries (s.pc t) = some j := by
      rcases hnext with ⟨n', k', d, hp, -, rfl⟩ | hnext
      · intro j hj
        have hj : k = j := by simpa [retries, attemptOf, hc] using hj
        simp [retries, hp, Transport.Pc.made, hc, Transport.Call.made, hj]
      · exact retries_of_conn hnext
    refine h.join hm hretry (call_over (.inl ⟨k, hc⟩) hn') ?_
    refine h.meet hm hse hmay hretry (fun j hj => ?_) fun r hr => ?_
    · rw [hj] at hc
      cases hc
    · rw [hc] at hr
      cases hr
      exact ⟨by simp, by simp⟩
  | thrown o hc ho hs =>
    have hcon : connecting (s.pc t).conn = true := h.sites t _ hc
    obtain ⟨hmay, hnext⟩ := connect_over hcon hs (.inr ho) hn
    have hnext : ∀ n k c, q ≠ .error n k c .tryConnect ∧ q ≠ .error n k c .tryWait := by
      refine hnext.resolve_left ?_
      rintro ⟨_, _, _, -, rfl, -⟩
      cases ho
    refine h.join hm (retries_of_conn hnext) (call_over (.inr (.inl hc)) hn') ?_
    refine h.meet hm hse hmay (retries_of_conn hnext) (fun j hj => ?_) fun r hr => ?_
    · rw [hj] at hc
      cases hc
    · rw [hc] at hr
      cases hr
      exact ⟨by simp, by simp⟩
  | closed r o hc hr _ =>
    obtain ⟨g, hp⟩ : ∃ g, (s.pc t).conn = .stop g .disconnect := h.sites t _ hc
    rw [hp] at hn
    obtain ⟨o', -, hn⟩ := Connection.next_stop hn
    obtain ⟨r', rfl⟩ := Connection.runStop_pc hn
    have hnext : ∀ n k c, Connection.Pc.stop g r' ≠ .error n k c .tryConnect ∧
        Connection.Pc.stop g r' ≠ .error n k c .tryWait := fun _ _ _ => ⟨by simp, by simp⟩
    refine h.join hm (retries_of_conn hnext) (call_over (.inr (.inr ⟨false, r, hc, hr⟩)) hn') ?_
    refine h.meet hm hse rfl (retries_of_conn hnext) (fun j hj => ?_) fun r₀ hr₀ => ?_
    · rw [hj] at hc
      cases hc
    · rw [hc] at hr₀
      cases hr₀
  | message j x hpc hi =>
    subst hi
    obtain rfl : q = .message 1 x := (next_begin hn).2
    have hnext : ∀ n k c, Connection.Pc.message 1 x ≠ .error n k c .tryConnect ∧
        Connection.Pc.message 1 x ≠ .error n k c .tryWait := fun _ _ _ => ⟨by simp, by simp⟩
    have hcall : q'.call = none := by
      rw [hpc] at hn'
      cases hn'
      rfl
    refine h.join hm (retries_of_conn hnext) (.inl hcall) ?_
    refine h.meet hm hse rfl (retries_of_conn hnext) (fun j' hj => ?_) fun r₀ hr₀ => ?_
    · rw [hpc] at hj
      cases hj
    · rw [hpc] at hr₀
      cases hr₀
  | error j f hpc hi =>
    subst hi
    obtain rfl : q = .error 1 0 0 .check := (next_begin hn).2
    have hnext : ∀ n k c, Connection.Pc.error 1 0 0 .check ≠ .error n k c .tryConnect ∧
        Connection.Pc.error 1 0 0 .check ≠ .error n k c .tryWait := fun _ _ _ => ⟨by simp, by simp⟩
    have hcall : q'.call = none := by
      rw [hpc] at hn'
      cases hn'
      rfl
    exact h.join hm (retries_of_conn hnext) (.inl hcall) (h.error hm hse hpc hn')

end

/-- **One token, in every session.** -/
theorem tokens_holds {s : State Mem Pc} (h : prog.Reach OneStart s) : Tokens s := by
  refine h.invariant (J := Tokens) ?_ ?_
  · refine ⟨fun w w' hw hw' => ?_, fun _ _ _ hk => (by cases hk), fun _ _ hk => (by cases hk),
      fun _ _ hc => (by cases hc)⟩
    have horigin : ∀ w, Has prog.init w → w = .origin := by
      intro w hw
      cases w with
      | origin => rfl
      | conn t =>
        rcases hw with hw | ⟨k, hk, -⟩
        · cases hw.1
        · cases hk
      | trans v => cases v <;> exact absurd rfl hw
    rw [horigin w hw, horigin w' hw']
  · intro s a m p hr hok ih hn
    rcases next_cases (t := a.thread) hn with ⟨j, c, q, -, ha, hc, rfl, rfl⟩ | ⟨j, o, c, q, -, hs, hc, rfl, rfl⟩ |
      ⟨j, o, k, c, q, c', q', -, hs, hc, hc', rfl, rfl⟩
    · exact ih.conn hok ha hc
    · exact ih.trans (moves_holds hr hc) hs hc
    · exact ih.both (moves_holds hr hc') (sync_both hs) hc hc'

end SignalRClient.Session
