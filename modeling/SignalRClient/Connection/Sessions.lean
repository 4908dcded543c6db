import SignalRClient.Connection.Lifecycle

/-!
# The sessions of a connection

Every start that gets to connecting begins a session.  `Ledger.Sound` says what the state, the token
sources and the transports have to do with the numbers of the sessions, and a `Share` what one thread
knows of them.

The rules (`Tallies.begin`, …) are the moves of the life cycle again, now with what they do to the
ledger.  They leave out which threads may step, which is what `life` is about; what they take from it
is that the other thread is not in the lock or not in a start or an attempt.  `ledger_holds` is the
ledger over all runs without a late signal.
-/

namespace SignalRClient.Connection

open Threads

/-! ## The ledger -/

/-- The sessions and the members that belong to the current one. -/
structure Ledger.Sound (l : Ledger) : Prop where
  current : l.connState ≠ .connecting → l.disconnectCts = l.sessions ∧ l.epoch = l.sessions
  reset : l.epoch ≤ l.sessions
  created : ∀ n k, l.created n = some k → k = n ∧ 1 ≤ n ∧ n ≤ l.epoch
  /-- a session that is over has failed or its token source is cancelled -/
  ended : ∀ n, 1 ≤ n → n ≤ l.sessions → (n = l.sessions → l.connState = .disconnected) →
    l.failed n = true ∨ l.cancelled n = true
  stopping : l.connState = .disconnecting → l.cancelled l.sessions = true
  failed : ∀ n, l.failed n = true → n ≤ l.sessions ∧ (n = l.sessions → l.connState = .disconnected)
  carried : l.connState = .connected ∨ l.connState = .reconnecting → l.transport ≠ none
  bare : l.connState = .disconnected → l.stopLock = false → l.transport = none

/-- What a thread knows of the sessions, with the part of its role that this rests on. -/
structure Share where
  locked : Bool := false
  phase : Option Phase := none
  session : Option ℕ := none            -- it runs the start of this session
  sourced : Bool := false               -- … and has made the token source
  fresh : Bool := false                 -- … and has reset the fields
  bare : Bool := false                  -- … and there is no transport
  held : Bool := false                  -- … and there is one
  ends : Bool := false                  -- it has ended a session and is to null `m_transport`
  checked : Option (ℕ × ℕ) := none      -- a callback of session `n` that has passed its check at `k`
  retries : Option ℕ := none            -- it tries to reconnect with this token source
  origin : Option (ℕ × ℕ) := none       -- a stop of a reconnect with source `c` that signaled at `k`

structure Share.Loc (l : Ledger) (r : Share) : Prop where
  session : ∀ n, r.session = some n → r.phase = some .connecting ∧ 1 ≤ n ∧ n = l.sessions
  sourced : r.sourced = true → r.session = some l.disconnectCts
  fresh : r.fresh = true → r.session = some l.epoch
  bare : r.bare = true → r.phase = some .connecting ∧ l.transport = none
  held : r.held = true → r.phase = some .connecting ∧ l.transport ≠ none
  ends : r.ends = true → r.locked = true ∧ l.connState = .disconnected
  empty : r.locked = true → l.connState = .disconnected → r.ends = true ∨ l.transport = none
  checked : ∀ n k, r.checked = some (n, k) → n ≤ k ∧ k ≤ l.sessions ∧ (n = k ∨ l.failed n = true)
  retries : ∀ c, r.retries = some c → r.phase = some .reconnecting ∧ c = l.sessions
  origin : ∀ c k, r.origin = some (c, k) → c = k ∧ k ≤ l.sessions

/-- The ledger with a thread about to step and another thread. -/
structure Tallies (l : Ledger) (r w : Share) : Prop where
  sound : l.Sound
  loc : r.Loc l
  other : w.Loc l

section Rules

variable {l l' : Ledger} {r w : Share}

attribute [local grind] Share.Loc

theorem loc_empty : Share.Loc l {} := by
  constructor <;> simp

/-- What a thread knows that is in no start and no attempt, when sessions begin and fail. -/
theorem Share.Loc.of_idle (h : w.Loc l) (hp : w.phase = none) (hse : l.sessions ≤ l'.sessions)
    (hf : ∀ n, l.failed n = true → l'.failed n = true) (hends : w.ends = true → l'.connState = .disconnected)
    (hempty : w.locked = true → l'.connState = .disconnected → w.ends = true ∨ l'.transport = none) : w.Loc l' where
  session n hn := absurd (h.session n hn).1 (by simp [hp])
  sourced hs := absurd (h.session _ (h.sourced hs)).1 (by simp [hp])
  fresh hs := absurd (h.session _ (h.fresh hs)).1 (by simp [hp])
  bare hb := absurd (h.bare hb).1 (by simp [hp])
  held hh := absurd (h.held hh).1 (by simp [hp])
  ends he := ⟨(h.ends he).1, hends he⟩
  empty := hempty
  checked n k hk := by
    obtain ⟨hnk, hk', hn⟩ := h.checked n k hk
    exact ⟨hnk, hk'.trans hse, hn.imp_right (hf n)⟩
  retries c hc := absurd (h.retries c hc).1 (by simp [hp])
  origin c k hk := ⟨(h.origin c k hk).1, (h.origin c k hk).2.trans hse⟩

/-- … and that is not in the lock either. -/
theorem Share.Loc.of_apart (h : w.Loc l) (hp : w.phase = none) (hl : w.locked = false)
    (hse : l.sessions ≤ l'.sessions) (hf : ∀ n, l.failed n = true → l'.failed n = true) : w.Loc l' := by
  refine h.of_idle hp hse hf (fun he => ?_) fun hl' => ?_
  · rw [(h.ends he).1] at hl
    cases hl
  · rw [hl] at hl'
    cases hl'

/-- The state moves while a session goes on. -/
theorem Ledger.Sound.move {x : ConnectionState} (h : l.Sound) (hd : l.connState ≠ .disconnected)
    (hx : x ≠ .disconnected) (hcur : l.disconnectCts = l.sessions ∧ l.epoch = l.sessions)
    (hstop : x = .disconnecting → l.cancelled l.sessions = true)
    (hcar : x = .connected ∨ x = .reconnecting → l.transport ≠ none) : Ledger.Sound { l with connState := x } where
  current _ := hcur
  reset := h.reset
  created := h.created
  ended n h1 h2 hlast := h.ended n h1 h2 fun e => absurd (hlast e) hx
  stopping := hstop
  failed n hn := ⟨(h.failed n hn).1, fun e => absurd ((h.failed n hn).2 e) hd⟩
  carried := hcar
  bare hc := absurd hc hx

theorem Tallies.leave (h : Tallies l r w) : Tallies l {} w := ⟨h.sound, loc_empty, h.other⟩

/-! ### The lock and the event -/

theorem Tallies.acquire (h : Tallies l r w) (hl : l.stopLock = false) (he : r.ends = false) :
    Tallies { l with stopLock := true } { r with locked := true } w where
  sound := { h.sound with bare := fun _ hs => (by cases hs) }
  loc :=
    { h.loc with
      ends := fun he' => (by rw [he] at he'; cases he')
      empty := fun _ hc => .inr (h.sound.bare hc hl) }
  other := { h.other with }

theorem Tallies.release (h : Tallies l r w) (hl : r.locked = true) (he : r.ends = false) :
    Tallies { l with stopLock := false } { r with locked := false } w where
  sound := { h.sound with bare := fun hc _ => (h.loc.empty hl hc).resolve_left (by simp [he]) }
  loc :=
    { h.loc with
      ends := fun he' => (by rw [he] at he'; cases he')
      empty := fun hl => (by cases hl) }
  other := { h.other with }

/-- The ledger does not speak of the event. -/
theorem Tallies.event {b : Bool} (h : Tallies l r w) : Tallies { l with startCompleted := b } r w :=
  ⟨{ h.sound with }, { h.loc with }, { h.other with }⟩

/-- What a callback has seen of the token sources outlasts its attempt. -/
theorem Tallies.signal (h : Tallies l r w) :
    Tallies { l with startCompleted := true } { checked := r.checked } w :=
  ⟨{ h.sound with }, { loc_empty with checked := h.loc.checked }, { h.other with }⟩

/-! ### A start -/

/-- A new session begins: the one before is over, and nobody has a hold on it. -/
theorem Tallies.begin (h : Tallies l { locked := true } w) (hwp : w.phase = none) (hwl : w.locked = false)
    (hc : l.connState = .disconnected) :
    Tallies { l with connState := .connecting, sessions := l.sessions + 1 }
      { locked := true, phase := some .connecting, session := some (l.sessions + 1), bare := true } w := by
  obtain ⟨hl, hr, hw⟩ := h
  have hreset := hl.reset
  have htransport : l.transport = none := (hr.empty rfl hc).resolve_left (by simp)
  refine ⟨?_, ?_, hw.of_apart hwp hwl (Nat.le_succ _) fun _ => id⟩
  · exact
      { current := fun h => absurd rfl h
        reset := by
          show l.epoch ≤ l.sessions + 1
          omega
        created := hl.created
        ended := fun n h1 h2 hlast => by
          have hn : n ≠ l.sessions + 1 := fun e => (by cases hlast e)
          have h2 : n ≤ l.sessions + 1 := h2
          exact hl.ended n h1 (by omega) fun _ => hc
        stopping := fun h => (by cases h)
        failed := fun n hn => by
          have hle := (hl.failed n hn).1
          refine ⟨hle.trans (Nat.le_succ _), fun e => ?_⟩
          have e : n = l.sessions + 1 := e
          omega
        carried := fun h => by rcases h with h | h <;> cases h
        bare := fun h => (by cases h) }
  · constructor <;> grind -ring -linarith

section Start

variable (hwp : w.phase = none) (hc : l.connState = .connecting)
include hwp hc

/-- In a start no other thread has ended a session. -/
theorem Share.Loc.of_start (h : w.Loc l) (hse : l.sessions ≤ l'.sessions)
    (hf : ∀ n, l.failed n = true → l'.failed n = true) (hempty : l'.connState = .disconnected → l'.transport = none) :
    w.Loc l' := by
  refine h.of_idle hwp hse hf (fun he => ?_) fun _ hd => .inr (hempty hd)
  have hd := (h.ends he).2
  rw [hc] at hd
  cases hd

/-- The start makes the token source with its number … -/
theorem Tallies.renew {n : ℕ}
    (h : Tallies l { locked := true, phase := some .connecting, session := some n, bare := true } w) :
    Tallies { l with disconnectCts := n }
      { locked := true, phase := some .connecting, session := some n, sourced := true, bare := true } w := by
  obtain ⟨hl, hr, hw⟩ := h
  refine ⟨{ hl with current := fun hne => absurd hc hne }, ?_,
    hw.of_start hwp hc le_rfl (fun _ => id) fun hd => (by cases hc.symm.trans hd)⟩
  constructor <;> grind -ring -linarith

/-- … and resets the fields of the session before. -/
theorem Tallies.reset {n : ℕ}
    (h : Tallies l { locked := true, phase := some .connecting, session := some n, sourced := true,
                     bare := true } w) :
    Tallies { l with epoch := n }
      { locked := true, phase := some .connecting, session := some n, sourced := true, fresh := true,
        bare := true } w := by
  obtain ⟨hl, hr, hw⟩ := h
  obtain ⟨-, -, hn⟩ := hr.session n rfl
  refine ⟨?_, ?_, hw.of_start hwp hc le_rfl (fun _ => id) fun hd => (by cases hc.symm.trans hd)⟩
  · exact
      { hl with
        current := fun hne => absurd hc hne
        reset := hn.le
        created := fun i k hk => by
          obtain ⟨hki, h1, h2⟩ := hl.created i k hk
          exact ⟨hki, h1, h2.trans (hl.reset.trans hn.ge)⟩ }
  · constructor <;> grind -ring -linarith

theorem Tallies.setTransport {n k : ℕ}
    (h : Tallies l { phase := some .connecting, session := some n, sourced := true, fresh := true,
                     bare := true } w) :
    Tallies { l with transport := some k }
      { phase := some .connecting, session := some n, sourced := true, fresh := true, held := true } w := by
  obtain ⟨hl, hr, hw⟩ := h
  refine ⟨{ hl with carried := fun _ => by simp, bare := fun hd => (by cases hc.symm.trans hd) }, ?_,
    hw.of_start hwp hc le_rfl (fun _ => id) fun hd => (by cases hc.symm.trans hd)⟩
  constructor <;> grind -ring -linarith

theorem Tallies.succeed {n : ℕ}
    (h : Tallies l { phase := some .connecting, session := some n, sourced := true, fresh := true,
                     held := true } w) :
    Tallies { l with connState := .connected } { phase := some .connected } w := by
  obtain ⟨hl, hr, hw⟩ := h
  -- the token source and the fields are those of its session
  obtain ⟨-, -, hn⟩ := hr.session n rfl
  have hcts : n = l.disconnectCts := Option.some.inj (hr.sourced rfl)
  have hepoch : n = l.epoch := Option.some.inj (hr.fresh rfl)
  refine ⟨hl.move (by simp [hc]) (by simp) ⟨by omega, by omega⟩ (by simp) fun _ => (hr.held rfl).2, ?_,
    hw.of_start hwp hc le_rfl (fun _ => id) fun hd => (by cases hd)⟩
  constructor <;> simp

/-- A start that fails drops the transport … -/
theorem Tallies.fail {n : ℕ}
    (h : Tallies l { phase := some .connecting, session := some n, sourced := true, fresh := true } w) :
    Tallies { l with transport := none }
      { phase := some .connecting, session := some n, sourced := true, fresh := true, bare := true } w := by
  obtain ⟨hl, hr, hw⟩ := h
  refine ⟨{ hl with carried := fun hca => ?_, bare := fun _ _ => rfl }, ?_,
    hw.of_start hwp hc le_rfl (fun _ => id) fun _ => rfl⟩
  · rcases hca with hca | hca <;> cases hc.symm.trans hca
  · constructor <;> grind -ring -linarith

/-- … and ends its session, whose token source it does not cancel. -/
theorem Tallies.publish {n : ℕ}
    (h : Tallies l { phase := some .connecting, session := some n, sourced := true, fresh := true,
                     bare := true } w) :
    Tallies { l with connState := .disconnected, failed := Function.update l.failed n true } {} w := by
  obtain ⟨hl, hr, hw⟩ := h
  obtain ⟨-, -, hn⟩ := hr.session n rfl
  have hcts : n = l.disconnectCts := Option.some.inj (hr.sourced rfl)
  have hepoch : n = l.epoch := Option.some.inj (hr.fresh rfl)
  have hbare : l.transport = none := (hr.bare rfl).2
  have hmono : ∀ i, l.failed i = true → Function.update l.failed n true i = true := by
    intro i hi
    by_cases e : i = n
    · simp [e]
    · rwa [Function.update_of_ne e]
  refine ⟨?_, loc_empty, hw.of_start hwp hc le_rfl hmono fun _ => hbare⟩
  exact
    { current := fun _ => ⟨hcts.symm.trans hn, hepoch.symm.trans hn⟩
      reset := hl.reset
      created := hl.created
      ended := fun i h1 h2 _ => by
        by_cases e : i = n
        · exact .inl (by simp [e])
        · exact (hl.ended i h1 h2 fun e' => absurd (e'.trans hn.symm) e).imp_left (hmono i)
      stopping := fun h => (by cases h)
      failed := fun i hi => by
        refine ⟨?_, fun _ => rfl⟩
        by_cases e : i = n
        · exact (e.trans hn).le
        · have hi : Function.update l.failed n true i = true := hi
          rw [Function.update_of_ne e] at hi
          exact (hl.failed i hi).1
      carried := fun h => by rcases h with h | h <;> cases h
      bare := fun _ _ => hbare }

end Start

/-- A start creates its transport, whose callbacks capture the token source. -/
theorem Tallies.create {n : ℕ} (h : Tallies l r w) (hs : r.session = some n) (hc : r.sourced = true)
    (hf : r.fresh = true) :
    Tallies { l with created := Function.update l.created n (some l.disconnectCts) } r w := by
  obtain ⟨-, hn, -⟩ := h.loc.session n hs
  have hcts : n = l.disconnectCts := Option.some.inj (hs.symm.trans (h.loc.sourced hc))
  have hepoch : n = l.epoch := Option.some.inj (hs.symm.trans (h.loc.fresh hf))
  refine ⟨{ h.sound with created := fun i k hk => ?_ }, { h.loc with }, { h.other with }⟩
  have hk : Function.update l.created n (some l.disconnectCts) i = some k := hk
  by_cases e : i = n
  · subst e
    rw [Function.update_self, Option.some.injEq] at hk
    exact ⟨by omega, hn, hepoch.le⟩
  · rw [Function.update_of_ne e] at hk
    exact h.sound.created i k hk

/-- On the way to its failure path a start forgets what it knew of the transport. -/
theorem Tallies.forget (h : Tallies l r w) : Tallies l { r with bare := false, held := false } w :=
  ⟨h.sound, { h.loc with bare := fun hb => (by cases hb), held := fun hh => (by cases hh) }, h.other⟩

/-! ### A shutdown -/

theorem Tallies.cancel {k : ℕ} (h : Tallies l r w) :
    Tallies { l with cancelled := Function.update l.cancelled k true } r w := by
  have hmono : ∀ i, l.cancelled i = true → Function.update l.cancelled k true i = true := by
    intro i hi
    by_cases e : i = k
    · simp [e]
    · rwa [Function.update_of_ne e]
  refine ⟨?_, { h.loc with }, { h.other with }⟩
  exact
    { h.sound with
      ended := fun n h1 h2 hlast => (h.sound.ended n h1 h2 hlast).imp_right (hmono n)
      stopping := fun hc => hmono _ (h.sound.stopping hc) }

/-- The session that is being stopped has a cancelled token source. -/
theorem Tallies.exchange {t : ℕ} {g : Option (ℕ × ℕ)} (h : Tallies l { locked := true, origin := g } w)
    (hwp : w.phase = none) (hwl : w.locked = false) (hcan : l.cancelled l.disconnectCts = true)
    (hc : l.connState = .connected ∨ l.connState = .reconnecting) :
    Tallies { l with connState := .disconnecting, stopper := some t } { locked := true, origin := g } w := by
  obtain ⟨hl, hr, hw⟩ := h
  have hd : l.connState ≠ .connecting ∧ l.connState ≠ .disconnected := by
    rcases hc with hc | hc <;> simp [hc]
  have hcur := hl.current hd.1
  have hsound : Ledger.Sound { l with connState := .disconnecting } :=
    hl.move hd.2 (by simp) hcur (fun _ => hcur.1 ▸ hcan) (by simp)
  refine ⟨{ hsound with }, ?_, hw.of_apart hwp hwl le_rfl fun _ => id⟩
  constructor <;> grind -ring -linarith

/-- The session that was being stopped is over; its transport is still there. -/
theorem Tallies.finish {g : Option (ℕ × ℕ)} (h : Tallies l { locked := true, origin := g } w)
    (hwp : w.phase = none) (hwl : w.locked = false) (hlk : l.stopLock = true)
    (hc : l.connState = .disconnecting) :
    Tallies { l with connState := .disconnected } { locked := true, ends := true, origin := g } w := by
  obtain ⟨hl, hr, hw⟩ := h
  refine ⟨?_, ?_, hw.of_apart hwp hwl le_rfl fun _ => id⟩
  · exact
      { hl with
        current := fun _ => hl.current (by simp [hc])
        ended := fun n h1 h2 _ => by
          by_cases e : n = l.sessions
          · exact .inr (e ▸ hl.stopping hc)
          · exact hl.ended n h1 h2 fun e' => absurd e' e
        stopping := fun h => (by cases h)
        failed := fun n hn => ⟨(hl.failed n hn).1, fun _ => rfl⟩
        carried := fun h => by rcases h with h | h <;> cases h
        bare := fun _ hs => (by cases hlk.symm.trans hs) }
  · constructor <;> grind -ring -linarith

theorem Tallies.null {g : Option (ℕ × ℕ)} (h : Tallies l { locked := true, ends := true, origin := g } w)
    (hwp : l.connState = .disconnected → w.phase = none) :
    Tallies { l with transport := none } { locked := true, origin := g } w := by
  obtain ⟨hl, hr, hw⟩ := h
  have hc : l.connState = .disconnected := (hr.ends rfl).2
  refine ⟨{ hl with carried := fun hca => ?_, bare := fun _ _ => rfl }, ?_,
    hw.of_idle (hwp hc) le_rfl (fun _ => id) (fun _ => hc) fun _ _ => .inr rfl⟩
  · rcases hca with hca | hca <;> cases hc.symm.trans hca
  · constructor <;> grind -ring -linarith

/-! ### The callbacks of a transport and a lost connection -/

/-- What a callback of the transport of session `n` knows when its token source is not cancelled: no
later session has begun, unless the start of session `n` has failed. -/
theorem Ledger.Sound.check (hl : l.Sound) {n c : ℕ} (hn : l.created n = some c)
    (hc : l.cancelled c = false) : c = n ∧ n ≤ l.epoch ∧ (n = l.sessions ∨ l.failed n = true) := by
  obtain ⟨rfl, h1, h2⟩ := hl.created n c hn
  have h3 := hl.reset
  refine ⟨rfl, h2, ?_⟩
  by_cases e : c = l.sessions
  · exact .inl e
  · rcases hl.ended c h1 (by omega) fun e' => absurd e' e with hfl | hcl
    · exact .inr hfl
    · rw [hc] at hcl
      cases hcl

theorem Tallies.pass {n k : ℕ} (h : Tallies l r w) (hn : n ≤ k) (hk : k ≤ l.sessions)
    (hf : n = k ∨ l.failed n = true) : Tallies l { checked := some (n, k) } w :=
  ⟨h.sound, { loc_empty with checked := fun i j e => (by cases e; exact ⟨hn, hk, hf⟩) }, h.other⟩

theorem Tallies.lose {x : Option (ℕ × ℕ)} (h : Tallies l { locked := true, checked := x } w)
    (hwp : w.phase = none) (hc : l.connState = .connected) :
    Tallies { l with connState := .reconnecting } { locked := true, checked := x } w := by
  obtain ⟨hl, hr, hw⟩ := h
  have hcarried : l.transport ≠ none := hl.carried (.inl hc)
  refine ⟨hl.move (by simp [hc]) (by simp) (hl.current (by simp [hc])) (by simp) fun _ => hcarried, ?_,
    hw.of_idle hwp le_rfl (fun _ => id) (fun he => ?_) fun _ hd => (by cases hd)⟩
  · constructor <;> grind -ring -linarith
  · cases hc.symm.trans (hw.ends he).2

/-- The attempt is for the current session. -/
theorem Tallies.attempt {x : Option (ℕ × ℕ)} {k : ℕ} (h : Tallies l { locked := true, checked := x } w)
    (hk : k = l.disconnectCts) (hc : l.connState = .reconnecting) :
    Tallies { l with startCompleted := false }
      { locked := true, phase := some .reconnecting, checked := x, retries := some k } w := by
  obtain ⟨hl, hr, hw⟩ := h
  have hcur : l.disconnectCts = l.sessions := (hl.current (by simp [hc])).1
  refine ⟨{ hl with }, ?_, { hw with }⟩
  constructor <;> grind -ring -linarith

theorem Tallies.regain {x : Option (ℕ × ℕ)} {c : ℕ}
    (h : Tallies l { phase := some .reconnecting, checked := x, retries := some c } w)
    (hwp : w.phase = none) (hc : l.connState = .reconnecting) :
    Tallies { l with connState := .connected } { phase := some .connected, checked := x } w := by
  obtain ⟨hl, hr, hw⟩ := h
  have hcarried : l.transport ≠ none := hl.carried (.inr hc)
  refine ⟨hl.move (by simp [hc]) (by simp) (hl.current (by simp [hc])) (by simp) fun _ => hcarried, ?_,
    hw.of_idle hwp le_rfl (fun _ => id) (fun he => ?_) fun _ hd => (by cases hd)⟩
  · constructor <;> grind -ring -linarith
  · cases hc.symm.trans (hw.ends he).2

/-- The attempt is over, and a `stop()` of its own follows. -/
theorem Tallies.giveUp {x : Option (ℕ × ℕ)} {c : ℕ}
    (h : Tallies l { phase := some .reconnecting, checked := x, retries := some c } w) :
    Tallies { l with startCompleted := true } { origin := some (c, l.sessions) } w := by
  obtain ⟨-, hc⟩ := h.loc.retries c rfl
  refine ⟨{ h.sound with }, { loc_empty with origin := fun c' k e => ?_ }, { h.other with }⟩
  cases e
  exact ⟨hc, le_rfl⟩

end Rules

/-! ## The shares of the program counters -/

def StartPc.busy (p : StartPc) : Bool := decide (p.role.phase = some .connecting)

def StartPc.share (n : ℕ) (p : StartPc) : Share where
  locked := p.role.locked
  phase := p.role.phase
  session := if p.busy then some n else none
  sourced := p.busy && p ≠ .newCts
  fresh := p.busy && p ≠ .newCts && p ≠ .reset && p ≠ .fields
  bare := p.busy && p ≠ .startRequest && p ≠ .startRequesting && p ≠ .succeed && p ≠ .fail &&
    p ≠ .broken
  held := p = .startRequest || p = .startRequesting || p = .succeed

def Origin.reconnect? : Origin → Option (ℕ × ℕ)
  | .user => none
  | .reconnect c k => some (c, k)

def StopPc.share (g : Origin) (p : StopPc) : Share where
  locked := p.role.locked
  ends := p = .contNull
  origin := g.reconnect?

def ErrorPc.share (n k c : ℕ) (p : ErrorPc) : Share where
  locked := (p.role c).locked
  phase := (p.role c).phase
  checked := if p = .check || p = .broken then none else some (n, k)
  retries := if (p.role c).phase = some .reconnecting then some c else none

def Pc.share : Pc → Share
  | .start n _ p => p.share n
  | .stop g p => p.share g
  | .error n k c p => p.share n k c
  | .process n k _ => { checked := some (n, k) }
  | _ => {}

theorem Pc.share_locked (p : Pc) : p.share.locked = p.role.locked := by
  cases p <;> rfl

theorem Pc.share_phase (p : Pc) : p.share.phase = p.role.phase := by
  rcases p with _ | _ | ⟨g, p⟩ | _ | _ | _ | _ | _
  case stop => cases p <;> rfl
  all_goals rfl

section Steps

variable {m m' : Mem} {p' q : Pc} {o : Outcome}

theorem runStart_tallies {n c : ℕ} {p : StartPc} (h : runStart m n c p o = some (m', p'))
    (hf : Fits m.toCore p.role q.role) (ht : Tallies m.toLedger (p.share n) q.share) :
    Tallies m'.toLedger p'.share q.share := by
  have hl : p.role.locked = true → q.share.locked = false := fun hp => by
    rw [q.share_locked]; exact hf.left.lock hp
  have hq : p.role.phase = some .connecting → q.share.phase = none ∧ m.connState = .connecting := fun hp => by
    rw [q.share_phase]; exact ⟨hf.left.phase (by simp [hp]), hf.loc.phase _ hp⟩
  cases p <;> simp only [runStart] at h <;> repeat' (split at h)
  all_goals simp only [reduceCtorEq, Option.some.injEq, Prod.mk.injEq] at h
  all_goals obtain ⟨rfl, rfl⟩ := h
  case lock.isFalse hl => exact ht.acquire (by simpa using hl) rfl
  case cas.isTrue hc => exact ht.begin (q.share_phase ▸ hf.free (.inl hc)) (hl rfl) hc
  case reject => exact ht.release rfl rfl
  case newCts => exact ht.renew (hq rfl).1 (hq rfl).2
  case reset => exact ht.event
  case fields => exact ht.reset (hq rfl).1 (hq rfl).2
  case unlock => exact ht.release rfl rfl
  case setTransport => exact ht.setTransport (hq rfl).1 (hq rfl).2
  case succeed.isTrue hc => exact ht.succeed (hq rfl).1 hc
  case succeed.isFalse hc => exact absurd (hq rfl).2 hc
  case succeedSet => exact ht.event.leave
  case fail => exact ht.fail (hq rfl).1 (hq rfl).2
  case failState => exact ht.publish (hq rfl).1 (hq rfl).2
  case failSet => exact ht.event
  all_goals first | exact ht | exact ht.forget | exact ht.create rfl rfl rfl

theorem runStop_tallies {t : ℕ} {g : Origin} {p : StopPc} (h : runStop t m g p o = some (m', p'))
    (hf : Fits m.toCore p.role q.role) (ht : Tallies m.toLedger (p.share g) q.share) :
    Tallies m'.toLedger p'.share q.share := by
  have hl : p.role.locked = true → q.share.locked = false := fun hp => by
    rw [q.share_locked]; exact hf.left.lock hp
  cases p <;> simp only [runStop] at h <;> repeat' (split at h)
  all_goals simp only [reduceCtorEq, Option.some.injEq, Prod.mk.injEq] at h
  all_goals obtain ⟨rfl, rfl⟩ := h
  case lock.isFalse hl => exact ht.acquire (by simpa using hl) rfl
  case cancel => exact ht.cancel
  case exchange =>
    exact ht.exchange (q.share_phase ▸ hf.left.passed rfl) (hl rfl) (hf.loc.cancels rfl).2
      (hf.loc.closing rfl).2.2.2
  case unlock => exact ht.release rfl rfl
  case unlockIdle => exact ht.release rfl rfl
  case unlockCancelled => exact ht.release rfl rfl
  case contLock.isFalse hl => exact ht.acquire (by simpa using hl) rfl
  case contCas.isTrue hc =>
    exact ht.finish (q.share_phase ▸ hf.free (.inr hc)) (hl rfl) (hf.loc.lock rfl) hc
  case contNull => exact ht.null fun hc => q.share_phase ▸ hf.free (.inl hc)
  case contUnlock => exact ht.release rfl rfl
  all_goals exact ht

theorem runError_tallies {n k c : ℕ} {p : ErrorPc} (h : runError m n k c p o = some (m', p'))
    (hf : Fits m.toCore (p.role c) q.role) (ht : Tallies m.toLedger (p.share n k c) q.share) :
    Tallies m'.toLedger p'.share q.share := by
  have hl : (p.role c).locked = true → q.share.locked = false := fun hp => by
    rw [q.share_locked]; exact hf.left.lock hp
  cases p <;> simp only [runError] at h <;> repeat' (split at h)
  all_goals simp only [reduceCtorEq, Option.some.injEq, Prod.mk.injEq] at h
  all_goals obtain ⟨rfl, rfl⟩ := h
  case h_2.isFalse cts hn hc =>
    -- the check of the callback
    obtain ⟨-, h1, h2⟩ := ht.sound.check hn (by simpa using hc)
    exact ht.pass (h1.trans ht.sound.reset) le_rfl h2
  case lock.isFalse hl => exact ht.acquire (by simpa using hl) rfl
  case cas.isTrue hc => exact ht.lose (q.share_phase ▸ hf.left.passed rfl) hc
  case unlock => exact ht.release rfl rfl
  case relock.isFalse hl => exact ht.acquire (by simpa using hl) rfl
  case reset =>
    obtain ⟨k', hk', hc⟩ := (hf.loc.live rfl).2
    cases hk'
    exact ht.attempt (hf.loc.watch c rfl hc) (hf.loc.owns (.inr ⟨c, rfl, hc⟩))
  case release => exact ht.release rfl rfl
  case quit => exact (ht.release rfl rfl).leave
  case okCas.isTrue hc => exact ht.regain (q.share_phase ▸ hf.left.phase (by simp [ErrorPc.role])) hc
  case okCas.isFalse hc => exact absurd (hf.loc.phase _ rfl) hc
  case okSet => exact ht.signal
  case failSet => exact ht.giveUp
  all_goals first | exact ht | exact ht.leave

/-- **What a step does to the ledger.** -/
theorem next_tallies {t : ℕ} {p : Pc} {i : Input} (h : next t m p i = some (m', p'))
    (hf : Fits m.toCore p.role q.role) (ht : Tallies m.toLedger p.share q.share) :
    Tallies m'.toLedger p'.share q.share := by
  cases next_leads h with
  | @enter k _ _ _ hm hp =>
    rw [hm, hp]
    cases k <;> exact ht
  | start h' => exact runStart_tallies h' hf ht
  | stop h' => exact runStop_tallies h' hf ht
  | error h' | leave h' | giveUp h' => exact runError_tallies h' hf ht
  | check hn hc =>
    obtain ⟨-, h1, h2⟩ := ht.sound.check hn hc
    have h3 := ht.sound.reset
    exact ht.pass h1 h3 (h2.imp_left fun e => by omega)
  | effect =>
    rw [Mem.effect_toLedger]
    exact ht
  | processed => exact ht.leave
  | late | timer => exact ht

end Steps

/-! ## The ledger over runs -/

def ledger : Outline Mem Pc where
  glob m := m.toLedger.Sound
  loc _ m p := p.share.Loc m.toLedger
  pair _ _ _ := True

/-- **The ledger in every run without a late signal.** -/
theorem ledger_holds {s : State Mem Pc} (h : prog.Reach OnTime s) : ledger.Holds s := by
  refine Outline.holds_of_reach ?_ ?_ h
  · refine ⟨?_, fun t => ?_, fun _ _ _ => trivial⟩
    · constructor <;> simp [prog, Program.init]
      intro n h1 h2
      omega
    · constructor <;> simp [prog, Program.init, Pc.share]
  · intro s a m' p' hr _ hi hn
    have hl := life_holds hr
    have ht : ∀ u, u ≠ a.thread → Tallies m'.toLedger p'.share (s.pc u).share := fun u hu =>
      next_tallies hn (life_fits hl hu) ⟨hi.glob, hi.loc a.thread, hi.loc u⟩
    exact
      { glob := (ht (a.thread + 1) (by omega)).sound
        loc := (ht (a.thread + 1) (by omega)).loc
        other := fun u hu => (ht u hu).other
        left := fun _ _ => trivial
        right := fun _ _ => trivial
        others := fun _ _ _ => trivial }

/-- While the state is connecting, a start is in progress that has made its token source and reset the
fields, or it is still in the lock. -/
theorem exists_starting {s : State Mem Pc} (h : prog.Reach OnTime s) (hc : s.mem.connState = .connecting) :
    ∃ u, (s.pc u).connects ∧ ((s.pc u).role.locked = false →
      s.mem.disconnectCts = s.mem.sessions ∧ s.mem.epoch = s.mem.sessions) := by
  have hb := ledger_holds h
  obtain ⟨u, hu⟩ := exists_connects h.reachable hc
  refine ⟨u, hu, fun hl => ?_⟩
  have hs : ∃ n, (s.pc u).share.session = some n ∧ (s.pc u).share.sourced = true ∧
      (s.pc u).share.fresh = true := by
    cases hp : s.pc u with
    | start n c p =>
      rw [hp] at hu hl
      refine ⟨n, ?_⟩
      cases p <;> simp_all [Pc.connects, Pc.role, StartPc.role, Pc.share, StartPc.share, StartPc.busy]
    | stop g p => rw [hp] at hu; cases p <;> cases hu
    | error n k c p => rw [hp] at hu; cases p <;> cases hu
    | _ => rw [hp] at hu; cases hu
  obtain ⟨n, hn, hso, hfr⟩ := hs
  have hso' := (hb.loc u).sourced hso
  have hfr' := (hb.loc u).fresh hfr
  exact ⟨((hb.loc u).session _ hso').2.2, ((hb.loc u).session _ hfr').2.2⟩

/-- Who holds the lock outside a start sees the token source of the current session. -/
theorem source_of_locked {s : State Mem Pc} (h : prog.Reach OnTime s) {t : ℕ}
    (hl : (s.pc t).role.locked = true) (hp : (s.pc t).role.phase = none) :
    s.mem.disconnectCts = s.mem.sessions := by
  by_cases hc : s.mem.connState = .connecting
  · obtain ⟨u, hu, hs⟩ := exists_starting h hc
    have hne : t ≠ u := by
      rintro rfl
      rw [Pc.connects, hp] at hu
      cases hu
    exact (hs (((life_holds h).pair t u hne).lock hl)).1
  · exact ((ledger_holds h).glob.current hc).1

/-- Outside the lock the fields have been reset for the current session. -/
theorem epoch_of_unlocked {s : State Mem Pc} (h : prog.Reach OnTime s) (hl : s.mem.stopLock = false) :
    s.mem.epoch = s.mem.sessions := by
  by_cases hc : s.mem.connState = .connecting
  · obtain ⟨u, -, hs⟩ := exists_starting h hc
    refine (hs ?_).2
    by_contra hul
    have := ((life_holds h).loc u).lock (by simpa using hul)
    rw [hl] at this
    cases this
  · exact ((ledger_holds h).glob.current hc).2

end SignalRClient.Connection
