import SignalRClient.Threads.Program

/-!
# Runs that come to an end

A rank says how far a thread is from the end of what it does.  When from every state in which a thread has
something to do some steps bring one thread nearer and no thread farther away, what is under way can be brought
to an end (`Reach.exists_rest`).

* `Program.Runs ok s s'` — a run from `s` to `s'` whose steps meet `ok`;
* `Program.Runs.simulate` — a program that follows the steps of another one follows its runs;
* `Program.Solo ok Q t m p` — thread `t` alone gets from `m` and `p` to an end;
* `Lower rank s s'` — a thread is nearer to its end in `s'`, and none is farther away.
-/

namespace SignalRClient.Threads

variable {M P I : Type*}

namespace Program

variable (A : Program M P I)

/-- A run whose steps meet `ok`. -/
inductive Runs (ok : State M P → Act I → Prop) (s : State M P) : State M P → Prop
  | refl : Runs ok s s
  | step {s₁ s₂ : State M P} {a : Act I} : Runs ok s s₁ → ok s₁ a → A.step s₁ a = some s₂ → Runs ok s s₂

variable {A} {ok ok' : State M P → Act I → Prop} {s s₁ s₂ : State M P}

theorem Runs.trans (h : A.Runs ok s s₁) (h' : A.Runs ok s₁ s₂) : A.Runs ok s s₂ := by
  induction h' with
  | refl => exact h
  | step _ ha hs ih => exact ih.step ha hs

theorem Runs.single {t : ℕ} {i : I} {m : M} {p : P} (ha : ok s ⟨t, i⟩) (hn : A.next t s.mem (s.pc t) i = some (m, p)) :
    A.Runs ok s (s.set t m p) :=
  Runs.step .refl ha (step_eq_some.mpr ⟨m, p, hn, rfl⟩)

/-- One more step of the thread that has stepped last. -/
theorem Runs.next {t : ℕ} {i : I} {m m' : M} {p p' : P} (h : A.Runs ok s (s.set t m p))
    (ha : ok (s.set t m p) ⟨t, i⟩) (hn : A.next t m p i = some (m', p')) : A.Runs ok s (s.set t m' p') := by
  have hset : (s.set t m p).set t m' p' = s.set t m' p' := by simp [State.set]
  rw [← hset]
  exact h.step ha (step_eq_some.mpr ⟨m', p', by rwa [State.set_pc_self, State.set_mem], rfl⟩)

theorem Runs.mono (h : A.Runs ok s s₁) (hsub : ∀ s a, ok s a → ok' s a) : A.Runs ok' s s₁ := by
  induction h with
  | refl => exact .refl
  | step _ ha hs ih => exact ih.step (hsub _ _ ha) hs

/-- Threads that make no step stay where they are. -/
theorem Runs.pc_eq {t : ℕ} (h : A.Runs ok s s₁) (ht : ∀ s a, ok s a → a.thread ≠ t) : s₁.pc t = s.pc t := by
  induction h with
  | refl => rfl
  | step _ ha hs ih =>
    obtain ⟨m, p, -, rfl⟩ := step_eq_some.mp hs
    rw [State.set_pc_of_ne _ _ _ _ (ht _ _ ha).symm, ih]

/-- **Simulation.**  When each step of `A` is followed by a run of `B`, so is each run of `A`. -/
theorem Runs.simulate {M' P' I' : Type*} {B : Program M' P' I'} {okB : State M' P' → Act I' → Prop}
    (R : State M P → State M' P' → Prop)
    (hstep : ∀ s s' a b, R s b → ok s a → A.step s a = some s' → ∃ b', B.Runs okB b b' ∧ R s' b')
    (h : A.Runs ok s s₁) {b : State M' P'} (hb : R s b) : ∃ b', B.Runs okB b b' ∧ R s₁ b' := by
  induction h with
  | refl => exact ⟨b, .refl, hb⟩
  | step _ ha hs ih =>
    obtain ⟨b₁, hr₁, hb₁⟩ := ih
    obtain ⟨b₂, hr₂, hb₂⟩ := hstep _ _ _ b₁ hb₁ ha hs
    exact ⟨b₂, hr₁.trans hr₂, hb₂⟩

theorem Reach.runs (h : A.Reach ok s) (hr : A.Runs ok' s s₁) (hsub : ∀ s a, ok' s a → ok s a) : A.Reach ok s₁ := by
  induction hr with
  | refl => exact h
  | step _ ha hs ih => exact ih.step (hsub _ _ ha) hs

/-- All but finitely many threads are idle. -/
theorem Reach.exists_idle (h : A.Reach ok s) : ∃ S : Finset ℕ, ∀ t, t ∉ S → s.pc t = A.idle := by
  refine h.invariant (J := fun s => ∃ S : Finset ℕ, ∀ t, t ∉ S → s.pc t = A.idle) ⟨∅, fun _ _ => rfl⟩ ?_
  intro s a m p _ _ ⟨S, hS⟩ _
  refine ⟨insert a.thread S, fun t ht => ?_⟩
  obtain ⟨hne, hnot⟩ := not_or.mp (fun h => ht (Finset.mem_insert.mpr h))
  rw [State.set_pc_of_ne _ _ _ _ hne]
  exact hS t hnot

/-- Thread `t` gets from `m` and `p` to an end that meets `Q` by steps of its own that meet `ok`. -/
inductive Solo (A : Program M P I) (ok : P → I → Prop) (Q : M → P → Prop) (t : ℕ) : M → P → Prop
  | done {m : M} {p : P} : Q m p → Solo A ok Q t m p
  | next {m m' : M} {p p' : P} (i : I) : ok p i → A.next t m p i = some (m', p') → Solo A ok Q t m' p' →
      Solo A ok Q t m p

/-- One run after the other. -/
theorem Solo.trans {ok ok' : P → I → Prop} {Q Q' : M → P → Prop} {t : ℕ} {m : M} {p : P} (h : A.Solo ok Q t m p)
    (hsub : ∀ p i, ok p i → ok' p i) (hQ : ∀ m p, Q m p → A.Solo ok' Q' t m p) : A.Solo ok' Q' t m p := by
  induction h with
  | done hq => exact hQ _ _ hq
  | next i hok hn _ ih => exact .next i (hsub _ _ hok) hn ih

/-- What each step keeps holds at the end. -/
theorem Solo.keep {ok : P → I → Prop} {Q : M → P → Prop} {t : ℕ} {m : M} {p : P} (J : M → P → Prop)
    (hJ : ∀ m p i m' p', ok p i → A.next t m p i = some (m', p') → J m p → J m' p') (h : A.Solo ok Q t m p)
    (h0 : J m p) : A.Solo ok (fun m p => Q m p ∧ J m p) t m p := by
  induction h with
  | done hq => exact .done ⟨hq, h0⟩
  | next i hok hn _ ih => exact .next i hok hn (ih (hJ _ _ i _ _ hok hn h0))

/-- **Such a run is one of all threads.** -/
theorem Solo.runs {ok : P → I → Prop} {Q : M → P → Prop} {t : ℕ} (h : A.Solo ok Q t s.mem (s.pc t)) :
    ∃ m p, A.Runs (fun s a => ok (s.pc a.thread) a.input) s (s.set t m p) ∧ Q m p := by
  have hrun : ∀ m p, A.Solo ok Q t m p → A.Runs (fun s a => ok (s.pc a.thread) a.input) s (s.set t m p) →
      ∃ m p, A.Runs (fun s a => ok (s.pc a.thread) a.input) s (s.set t m p) ∧ Q m p := by
    intro m p hsolo
    induction hsolo with
    | done hq => exact fun hr => ⟨_, _, hr, hq⟩
    | next i hok hn _ ih =>
      intro hr
      refine ih (hr.next (i := i) ?_ hn)
      rwa [State.set_pc_self]
  refine hrun s.mem (s.pc t) h ?_
  have hset : s.set t s.mem (s.pc t) = s := by
    unfold State.set
    rw [Function.update_eq_self]
  rw [hset]
  exact .refl

end Program

/-- No thread is farther from its end, and one is nearer. -/
structure Lower (rank : P → ℕ) (s s' : State M P) : Prop where
  le : ∀ t, rank (s'.pc t) ≤ rank (s.pc t)
  lt : ∃ t, rank (s'.pc t) < rank (s.pc t)

section

variable {rank : P → ℕ} {s s' s'' : State M P}

theorem Lower.set {t : ℕ} {m : M} {p : P} (h : rank p < rank (s.pc t)) : Lower rank s (s.set t m p) := by
  refine ⟨fun u => ?_, t, by rwa [State.set_pc_self]⟩
  by_cases hu : u = t
  · subst hu
    rw [State.set_pc_self]
    exact h.le
  · rw [State.set_pc_of_ne _ _ _ _ hu]

theorem Lower.of_le (h : ∀ t, rank (s'.pc t) ≤ rank (s.pc t)) (h' : Lower rank s' s'') : Lower rank s s'' := by
  obtain ⟨t, ht⟩ := h'.lt
  exact ⟨fun u => (h'.le u).trans (h u), t, ht.trans_le (h t)⟩

end

/-- **Completion.** -/
theorem Program.Reach.exists_rest {A : Program M P I} {ok ok' : State M P → Act I → Prop} {s : State M P}
    (rank : P → ℕ) (stop : State M P → Prop) (h0 : rank A.idle = 0) (hsub : ∀ s a, ok' s a → ok s a)
    (hstep : ∀ s, A.Reach ok s → ¬ stop s → (∃ t, rank (s.pc t) ≠ 0) →
      ∃ s', A.Runs ok' s s' ∧ (stop s' ∨ Lower rank s s'))
    (h : A.Reach ok s) : ∃ s', A.Runs ok' s s' ∧ (stop s' ∨ ∀ t, rank (s'.pc t) = 0) := by
  obtain ⟨S, hS⟩ : ∃ S : Finset ℕ, ∀ t, t ∉ S → rank (s.pc t) = 0 := by
    obtain ⟨S, hidle⟩ := h.exists_idle
    exact ⟨S, fun t ht => by rw [hidle t ht, h0]⟩
  -- by induction on the sum of the ranks
  induction hn : ∑ t ∈ S, rank (s.pc t) using Nat.strong_induction_on generalizing s with
  | _ n ih =>
    by_cases hdone : stop s ∨ ∀ t, rank (s.pc t) = 0
    · exact ⟨s, .refl, hdone⟩
    obtain ⟨hstop, hbusy⟩ := not_or.mp hdone
    obtain ⟨s₁, hr, hs₁ | hlow⟩ := hstep s h hstop (not_forall.mp hbusy)
    · exact ⟨s₁, hr, .inl hs₁⟩
    · obtain ⟨t, ht⟩ := hlow.lt
      have htS : t ∈ S := by
        by_contra hnot
        rw [hS t hnot] at ht
        cases ht
      have hlt : ∑ t ∈ S, rank (s₁.pc t) < n := by
        rw [← hn]
        exact Finset.sum_lt_sum (fun u _ => hlow.le u) ⟨t, htS, ht⟩
      obtain ⟨s₂, hr', hs₂⟩ := ih _ hlt (h.runs hr hsub)
        (fun u hu => Nat.le_zero.mp ((hlow.le u).trans (hS u hu).le)) rfl
      exact ⟨s₂, hr.trans hr', hs₂⟩

end SignalRClient.Threads
