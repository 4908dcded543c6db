import SignalRClient.Transport.Clients

/-!
# The attempts to connect

What a step of the transport does to the loops under way, seen by the caller of `connect()` (`next_attempt`):
before a call has made its client no loop belongs to it, and from there on the loop has a holder of its own
until the attempt is refused, by `connect()` itself or by its continuation (`Refused`).
-/

namespace SignalRClient.Transport

open Threads

variable {R : Type}

/-- The client that a call of `connect()` has made. -/
def Call.made : Call → Option ℕ
  | .connect (.setClient k) | .connect (.connect k) | .connect (.setCts k) | .connect (.unlock k)
  | .connect (.returned k) => some k
  | _ => none

def Pc.made (p : Pc R) : Option ℕ := p.call.bind Call.made

/-- The continuation of the `connect()` of client `k` has given up its loop. -/
def Refused (s : State Mem (Pc R)) (k : ℕ) : Prop :=
  s.mem.connectTce k = .failed ∨ ∃ u, (s.pc u).frame = .connected k .setException

/-- The holder has a loop in hand. -/
def Holds (s : State Mem (Pc R)) (w : Holder) : Prop := held s.mem s.pc w ≠ none

/-! ## What a step does to the loops -/

section

variable {s : State Mem (Pc R)} {t : ℕ} {m : Mem} {p : Pc R} {i : Input R}

/-- A continuation does not take a loop from a call, nor give one to it. -/
theorem held_calls (hc : (s.pc t).call = none)
    (hp : p.call = none ∨ p.call = some (.connect .lock) ∨ ∃ d, p.call = some (.disconnect d .lock)) (u : ℕ) :
    held m (Function.update s.pc t p) (.call u) = held s.mem s.pc (.call u) := by
  by_cases hut : u = t
  · subst hut
    have hnone : p.call.bind Call.hold? = none := by
      rcases hp with hp | hp | ⟨d, hp⟩ <;> rw [hp] <;> rfl
    simp [held, hc, hnone]
  · simp [held, hut]

/-- What a step of thread `t` does to the loops under way: nothing but, perhaps, to end one; a loop is handed
on; a client is made; the call refuses it; the call is over. -/
inductive Attempt (s : State Mem (Pc R)) (t : ℕ) (m : Mem) (p : Pc R) : Prop
  | quiet : p.made = (s.pc t).made → (∀ w, Holds (s.set t m p) w → Holds s w) → m.connects = s.mem.connects →
      Attempt s t m p
  | pass (a b : Holder) : p.made = (s.pc t).made → Holds s a → ¬ Holds (s.set t m p) a →
      (∀ w, Holds (s.set t m p) w → Holds s w ∨ w = b) → m.connects = s.mem.connects → Attempt s t m p
  | make : (s.pc t).call = some (.connect .factory) → p.made = some (s.mem.connects + 1) →
      (∀ w, Holds (s.set t m p) w → Holds s w ∨ w = .call t) → m.connects = s.mem.connects + 1 → Attempt s t m p
  | refuse (k : ℕ) : (s.pc t).call = some (.connect (.connect k)) → p.made = none → Holds s (.call t) →
      ¬ Holds (s.set t m p) (.call t) → (∀ w, Holds (s.set t m p) w → Holds s w) → m.connects = s.mem.connects →
      Attempt s t m p
  | finish (k : ℕ) : (s.pc t).call = some (.connect (.returned k)) → p.made = none →
      (∀ w, Holds (s.set t m p) w → Holds s w) → m.connects = s.mem.connects → Attempt s t m p

theorem release_made (m : Mem) : m.release.2.bind Call.made = none := by
  rcases release_call m with h | h <;> rw [h] <;> rfl

/-- The steps of a call of `connect()`. -/
theorem attempt_connect {q : ConnectPc} {f : Option Fault} {c : Option Call} (hc : (s.pc t).call = some (.connect q))
    (h : CallStep s.mem (.connect q) f m c) : Attempt s t m ⟨(s.pc t).frame, c⟩ := by
  have hmade : (s.pc t).made = Call.made (.connect q) := by simp [Pc.made, hc]
  have hsame : ∀ {m' : Mem} {c' : Option Call}, inMem m' = inMem s.mem → c'.bind Call.hold? = Call.hold? (.connect q) →
      ∀ w, Holds (s.set t m' ⟨(s.pc t).frame, c'⟩) w → Holds s w := by
    intro m' c' hm hq w hw
    have hw : held m' (Function.update s.pc t ⟨(s.pc t).frame, c'⟩) w ≠ none := hw
    rwa [held_call_self hc hm hq] at hw
  cases h with
  | lock | accept | reject | noClient | setClient | setCts | unlock | unlockThrow =>
    exact .quiet (by rw [hmade]; rfl) (hsame rfl rfl) rfl
  | thrown => exact .quiet (by rw [hmade]; exact release_made _) (hsame rfl release_hold) rfl
  | @returned _ k => exact .finish k hc (release_made _) (hsame rfl release_hold) rfl
  | make =>
    refine .make hc rfl (fun w hw => ?_) rfl
    by_cases hwt : w = .call t
    · exact .inr hwt
    · have heq : held { s.mem with connects := s.mem.connects + 1 } (Function.update s.pc t
          ⟨(s.pc t).frame, some (.connect (.setClient (s.mem.connects + 1)))⟩) w = held s.mem s.pc w := by
        rw [held_call _ (show inMem { s.mem with connects := s.mem.connects + 1 } = inMem s.mem from rfl),
          Function.update_of_ne hwt]
      exact .inl (fun hn => hw (heq.trans hn))
  | @noTask g k =>
    have hholds : Holds s (.call t) := by simp [Holds, held, hc, Call.hold?]
    have hgone : ∀ w, held s.mem (Function.update s.pc t ⟨(s.pc t).frame, some (.connect .unlockThrow)⟩) w =
        Function.update (held s.mem s.pc) (.call t) none w := fun w => by
      rw [held_call _ (m := s.mem) rfl]; rfl
    refine .refuse k hc rfl hholds (fun hw => hw ?_) (fun w hw => ?_) rfl
    · exact (hgone _).trans (Function.update_self ..)
    · have hw : held s.mem (Function.update s.pc t _) w ≠ none := hw
      rw [hgone] at hw
      by_cases hwt : w = .call t
      · rw [hwt]; exact hholds
      · rwa [Function.update_of_ne hwt] at hw
  | @attach k =>
    have hholds : Holds s (.call t) := by simp [Holds, held, hc, Call.hold?]
    have hlost : ∀ m', ¬ Holds (s.set t m' ⟨(s.pc t).frame, some (.connect (.setCts k))⟩) (.call t) := by
      intro m' hw
      refine hw ?_
      simp [State.set, held, Call.hold?]
    refine .pass (.call t) (.pending k) (by rw [hmade]; rfl) hholds (hlost _) (fun w hw => ?_) rfl
    rcases w with j | r | e | u | u
    · by_cases hj : j = k
      · exact .inr (by rw [hj])
      · refine .inl ?_
        simpa [Holds, State.set, held, inMem, hj] using hw
    · exact .inl hw
    · exact .inl hw
    · refine .inl ?_
      by_cases hut : u = t
      · subst hut; simpa [Holds, State.set, held] using hw
      · simpa [Holds, State.set, held, hut] using hw
    · refine .inl ?_
      by_cases hut : u = t
      · subst hut; exact absurd hw (hlost _)
      · simpa [Holds, State.set, held, hut] using hw

/-- … and of `disconnect()`. -/
theorem attempt_disconnect {d : Bool} {q : DisconnectPc} {f : Option Fault} {c : Option Call}
    (hc : (s.pc t).call = some (.disconnect d q)) (h : CallStep s.mem (.disconnect d q) f m c) :
    Attempt s t m ⟨(s.pc t).frame, c⟩ := by
  obtain ⟨hm, hold, hn, -⟩ := disconnect_keep h
  have hmade : (s.pc t).made = none := by simp [Pc.made, hc, Call.made]
  have hmade' : c.bind Call.made = none := by
    cases h with
    | stopped => exact release_made _
    | _ => rfl
  refine .quiet (hmade'.trans hmade.symm) (fun w hw => ?_) hn
  have hw : held m (Function.update s.pc t ⟨(s.pc t).frame, c⟩) w ≠ none := hw
  rwa [held_call_self hc hm hold] at hw

theorem next_attempt (hb : Bounded s.mem) (hu : Unique fun w => (held s.mem s.pc w).map Prod.fst)
    (h : next t s.mem (s.pc t) i = some (m, p)) : Attempt s t m p := by
  rcases next_apart h with ⟨c, f, q, hc, hr, rfl⟩ | ⟨hc, -, -, -, hp⟩
  · cases c with
    | connect q' => exact attempt_connect hc (runCall_step hr)
    | disconnect d q' => exact attempt_disconnect hc (runCall_step hr)
  · have hmade : p.made = (s.pc t).made := by
      have hnone : p.made = none := by
        rcases hp with hp | hp | ⟨d, hp⟩ <;> simp [Pc.made, hp, Call.made]
      rw [hnone]
      simp [Pc.made, hc]
    cases next_hands hb hu h with
    | keep hH _ hn _ =>
      refine .quiet hmade (fun w hw => ?_) hn
      have hw : held m (Function.update s.pc t p) w ≠ none := hw
      rwa [hH] at hw
    | give u hH hfree _ _ _ =>
      have hu' := held_calls (m := m) hc hp u
      rw [hH, Function.update_self, hfree] at hu'
      cases hu'
    | move a b k x y c e ha hb' hH _ _ _ hn _ =>
      have ha' : Holds s a := by simp [Holds, ha]
      have hH' : ∀ w, Holds (s.set t m p) w → hand (held s.mem s.pc) a b (y.map fun y => (k, y)) w ≠ none := by
        intro w hw
        have hw : held m (Function.update s.pc t p) w ≠ none := hw
        rwa [hH] at hw
      by_cases hab : b = a
      · refine .quiet hmade (fun w hw => ?_) hn
        have hw := hH' w hw
        by_cases hwa : w = a
        · rw [hwa]; exact ha'
        · rw [hab, hand_self, Function.update_of_ne hwa] at hw
          exact hw
      · refine .pass a b hmade ha' (fun hw => ?_) (fun w hw => ?_) hn
        · have hw := hH' a hw
          rw [hand_of_ne (Ne.symm hab), if_pos rfl] at hw
          exact hw rfl
        · have hw := hH' w hw
          by_cases hwb : w = b
          · exact .inr hwb
          · rw [hand_of_ne hwb] at hw
            split at hw
            · exact absurd rfl hw
            · exact .inl hw

/-- A continuation ends its loop. -/
theorem holds_ended (hm : inMem m = inMem s.mem) (hc : (s.pc t).call = none) (hp : p.call = none)
    (hx : (s.pc t).frame.hold? ≠ none) (hy : p.frame.hold? = none) :
    Holds s (.frame t) ∧ ¬ Holds (s.set t m p) (.frame t) ∧ ∀ w, Holds (s.set t m p) w → Holds s w := by
  have hheld : held m (Function.update s.pc t p) = Function.update (held s.mem s.pc) (.frame t) none := by
    rw [held_frame hm (by rw [hc, hp]), hy]
  refine ⟨hx, fun hw => ?_, fun w hw => ?_⟩
  · have hw : held m (Function.update s.pc t p) (.frame t) ≠ none := hw
    rw [hheld, Function.update_self] at hw
    exact hw rfl
  · have hw : held m (Function.update s.pc t p) w ≠ none := hw
    rw [hheld] at hw
    by_cases hwt : w = .frame t
    · rw [hwt]; exact hx
    · rwa [Function.update_of_ne hwt] at hw

/-- The continuation of `connect()` gives up its loop. -/
theorem refuse_ends {k : ℕ} {f : Option Fault} (hpc : s.pc t = ⟨.connected k .cancel, none⟩)
    (h : next t s.mem (s.pc t) (.go f) = some (m, p)) :
    (Holds s (.frame t) ∧ ¬ Holds (s.set t m p) (.frame t) ∧ ∀ w, Holds (s.set t m p) w → Holds s w) ∧
      m.connects = s.mem.connects ∧ p.made = none := by
  rw [hpc] at h
  cases h
  exact ⟨holds_ended rfl (by rw [hpc]) rfl (by rw [hpc]; simp [Frame.hold?]) rfl, rfl, rfl⟩

/-- … and the task continuation, when it calls the error callback. -/
theorem error_ends {j : Iteration} {f : Option Fault} (hpc : s.pc t = ⟨.observe j .error, none⟩)
    (h : next t s.mem (s.pc t) (.go f) = some (m, p)) :
    (Holds s (.frame t) ∧ ¬ Holds (s.set t m p) (.frame t) ∧ ∀ w, Holds (s.set t m p) w → Holds s w) ∧
      m.connects = s.mem.connects ∧ p.made = none := by
  rw [hpc] at h
  cases h
  exact ⟨holds_ended rfl (by rw [hpc]) rfl (by rw [hpc]; simp [Frame.hold?]) rfl, rfl, rfl⟩

theorem runCall_connectTce {c : Call} {f : Option Fault} {q : Option Call} {m₀ : Mem}
    (h : runCall m₀ c f = some (m, q)) : m.connectTce = m₀.connectTce := by
  cases runCall_step h <;> rfl

theorem enter_attempt {m₀ : Mem} (h : enter m₀ i = some (m, p)) :
    m.connectTce = m₀.connectTce ∧ ∀ k, p.frame ≠ .connected k .setException := by
  cases enter_step h <;> exact ⟨rfl, by simp⟩

/-- An attempt fails as its continuation gives up the loop. -/
theorem next_refused {k : ℕ} (h : next t s.mem (s.pc t) i = some (m, p)) (hk : Refused (s.set t m p) k) :
    Refused s k ∨ (s.pc t = ⟨.connected k .cancel, none⟩ ∧ ∃ f, i = .go f) := by
  -- where thread `t` comes to `setException` from, and where the attempt is failed
  have hsplit : m.connectTce k = .failed ∨ p.frame = .connected k .setException ∨ Refused s k := by
    rcases hk with hk | ⟨u, hu⟩
    · exact .inl hk
    · by_cases hut : u = t
      · subst hut
        rw [State.set_pc_self] at hu
        exact .inr (.inl hu)
      · rw [State.set_pc_of_ne _ _ _ _ hut] at hu
        exact .inr (.inr (.inr ⟨u, hu⟩))
  have hsame : m.connectTce = s.mem.connectTce → (p.frame = (s.pc t).frame ∨ p.frame ≠ .connected k .setException) →
      Refused s k := by
    intro hm hp
    rcases hsplit with h | h | h
    · exact .inl (by rw [← hm]; exact h)
    · rcases hp with hp | hp
      · exact .inr ⟨t, by rw [← hp]; exact h⟩
      · exact absurd h hp
    · exact h
  rcases next_cases h with ⟨c, f, c', -, -, hr, rfl⟩ | ⟨-, -, -, rfl, hp⟩ | ⟨f, hc, rfl, hr⟩ | ⟨hpc, he⟩
  · exact .inl (hsame (runCall_connectTce hr) (.inl rfl))
  · refine .inl (hsame rfl (.inl ?_))
    rcases hp with ⟨-, rfl⟩ | ⟨-, rfl⟩ <;> rfl
  · generalize hq : (s.pc t).frame = q at hr
    cases runFrame_step hr with
    | @cancel _ j =>
      by_cases hj : j = k
      · subst hj
        exact .inr ⟨Pc.ext hq hc, f, rfl⟩
      · exact .inl (hsame rfl (.inr (by simp [hj])))
    | @set _ j =>
      have hne : Refused s k ∨ (s.mem.completeConnect j .set).connectTce k = .failed :=
        hsplit.elim .inr fun h => .inl (h.resolve_left (by simp))
      rcases hne with h | h
      · exact .inl h
      · refine .inl (.inl ?_)
        by_cases hjk : k = j
        · subst hjk
          simp only [Mem.completeConnect, Function.update_self] at h
          split at h
          · cases h
          · exact h
        · simpa [Mem.completeConnect, hjk] using h
    | @setException _ j =>
      by_cases hjk : j = k
      · subst hjk
        exact .inl (.inr ⟨t, hq⟩)
      · rcases hsplit with h | h | h
        · refine .inl (.inl ?_)
          simpa [Mem.completeConnect, Ne.symm hjk] using h
        · simp at h
        · exact .inl h
    | _ => exact .inl (hsame rfl (.inr (by simp)))
  · obtain ⟨hm, hp⟩ := enter_attempt he
    exact .inl (hsame hm (.inr (hp k)))

theorem connects_mono (h : Attempt s t m p) : s.mem.connects ≤ m.connects := by
  cases h with
  | make _ _ _ hn => omega
  | quiet _ _ hn | pass _ _ _ _ _ _ hn | refuse _ _ _ _ _ _ hn | finish _ _ _ _ hn => exact hn.ge

theorem attempt_holds {ok : State Mem (Pc R) → Act (Input R) → Prop} (hs : prog.Reach ok s)
    (h : next t s.mem (s.pc t) i = some (m, p)) : Attempt s t m p :=
  next_attempt (bounded_holds hs) (unique_holds hs) h

/-- The attempts that have failed are among those made. -/
theorem refused_bound {ok : State Mem (Pc R) → Act (Input R) → Prop} (h : prog.Reach ok s) :
    ∀ k, Refused s k → k ≤ s.mem.connects := by
  refine h.invariant (J := fun s => ∀ k, Refused s k → k ≤ s.mem.connects) ?_ ?_
  · rintro k (hk | ⟨u, hu⟩)
    · cases hk
    · cases hu
  · intro s a m p hr _ hJ hn k hk
    have hle := connects_mono (attempt_holds hr hn)
    rcases next_refused hn hk with hk | ⟨hpc, -⟩
    · exact (hJ k hk).trans hle
    · obtain ⟨l, hl⟩ : ∃ l, prog.Trace ok events s l := hr.exists_trace
      have hheld : held s.mem s.pc (.frame a.thread) = some (k, .starting) := by
        simp [held, hpc, Frame.hold?]
      exact ((course_holds hl).1.bound _ _ _ hheld).trans hle

/-- Where a call comes from. -/
theorem next_call {c : Call} (h : next t s.mem (s.pc t) i = some (m, p)) (hc : p.call = some c) :
    (∃ c₀, (s.pc t).call = some c₀ ∧ match c with
      | .connect _ => ∃ q, c₀ = .connect q
      | .disconnect false _ => ∃ q, c₀ = .disconnect false q
      | .disconnect true _ => True) ∨
    ((s.pc t).call = none ∧ match c with
      | .connect _ => i = .connect
      | .disconnect false _ => i = .disconnect
      | .disconnect true _ => True) := by
  have hrelease : ∀ {m₀ : Mem}, m₀.release.2 = some c → c = .disconnect true .lock := by
    intro m₀ h
    rcases release_call m₀ with e | e <;> rw [e] at h <;> cases h
    rfl
  rcases next_cases h with ⟨c₀, f, c', hc₀, -, hr, rfl⟩ | ⟨hc₀, -, -, -, hp⟩ | ⟨f, hc₀, -, hr⟩ | ⟨hpc, he⟩
  · obtain rfl : c' = some c := hc
    refine .inl ⟨c₀, hc₀, ?_⟩
    cases c₀ with
    | connect q =>
      rcases (runCall_step hr).connect with ⟨q', e⟩ | e
      · cases e; exact ⟨q, rfl⟩
      · rw [hrelease e.symm]; trivial
    | disconnect d q =>
      rcases (runCall_step hr).disconnect with ⟨q', e⟩ | e | e
      · cases e
        cases d with
        | false => exact ⟨q, rfl⟩
        | true => trivial
      · cases e
      · rw [hrelease e.symm]; trivial
  · rcases hp with ⟨rfl, rfl⟩ | ⟨rfl, rfl⟩ <;> cases hc <;> exact .inr ⟨hc₀, rfl⟩
  · rcases (runFrame_apart hr).call with e | e <;> rw [e] at hc <;> cases hc
    exact .inr ⟨hc₀, trivial⟩
  · rcases (enter_apart he).call with e | e <;> rw [e] at hc <;> cases hc
    exact .inr ⟨by rw [hpc], trivial⟩

end

end SignalRClient.Transport
