import SignalRClient.Threads.Program

/-!
# What is observed of a run

An observation says which events a step shows.  The events of a run are those of its steps, in order.

* `Program.Trace ok obs` — the states of the runs whose steps meet `ok`, each with the events so far;
* `Program.history` — the events of one schedule, so that it can be executed;
* `Trace.exists_step`, `Trace.exists_since` — the step that showed an event, and what has held since;
* `Trace.invariant`, `Trace.each` — the rules of `Reach` for assertions that speak of the events too;
* `Trace.balance` — events that come in pairs: a count over the threads that are in between;
* `Carried`, `InOrder` — what goes through the hands of the threads one at a time.
-/

namespace SignalRClient.Threads

variable {M P I E : Type*}

namespace Program

variable (A : Program M P I)

/-- The states of the runs whose steps meet `ok`, with what is observed of the steps.  `obs t m p i m' p'`
is what the step of thread `t` from `m` and `p` with input `i` to `m'` and `p'` shows. -/
inductive Trace (ok : State M P → Act I → Prop) (obs : ℕ → M → P → I → M → P → List E) :
    State M P → List E → Prop
  | init : Trace ok obs A.init []
  | step {s : State M P} {a : Act I} {l : List E} {m : M} {p : P} : Trace ok obs s l → ok s a →
      A.next a.thread s.mem (s.pc a.thread) a.input = some (m, p) →
      Trace ok obs (s.set a.thread m p) (l ++ obs a.thread s.mem (s.pc a.thread) a.input m p)

/-- The run of a schedule from `s` with its events; `none` when one of its steps is not possible or fails
the test. -/
def history (test : State M P → Act I → Bool) (obs : ℕ → M → P → I → M → P → List E) (s : State M P) :
    List (Act I) → Option (State M P × List E)
  | [] => some (s, [])
  | a :: l =>
    if test s a then
      (A.next a.thread s.mem (s.pc a.thread) a.input).bind fun r =>
        (history test obs (s.set a.thread r.1 r.2) l).map fun h =>
          (h.1, obs a.thread s.mem (s.pc a.thread) a.input r.1 r.2 ++ h.2)
    else none

variable {A} {ok ok' : State M P → Act I → Prop} {obs : ℕ → M → P → I → M → P → List E} {s : State M P}
  {l : List E}

theorem Trace.reach (h : A.Trace ok obs s l) : A.Reach ok s := by
  induction h with
  | init => exact .init
  | step _ ha hn ih => exact ih.step ha (step_eq_some.mpr ⟨_, _, hn, rfl⟩)

theorem Trace.reachable (h : A.Trace ok obs s l) : A.Reachable s := h.reach.reachable

theorem Trace.mono (h : A.Trace ok obs s l) (hok : ∀ s a, ok s a → ok' s a) : A.Trace ok' obs s l := by
  induction h with
  | init => exact .init
  | step _ ha hn ih => exact ih.step (hok _ _ ha) hn

/-- Every state has a history. -/
theorem Reach.exists_trace (h : A.Reach ok s) : ∃ l, A.Trace ok obs s l := by
  induction h with
  | init => exact ⟨[], .init⟩
  | step _ ha hs ih =>
    obtain ⟨l, hl⟩ := ih
    obtain ⟨m, p, hn, rfl⟩ := step_eq_some.mp hs
    exact ⟨_, hl.step ha hn⟩

/-- The step that showed an event, and the run since then: what holds behind that step and is kept by every
further one, with the events since, holds now. -/
theorem Trace.exists_since {e : E} {l₁ l₂ : List E} (h : A.Trace ok obs s l) (hl : l = l₁ ++ e :: l₂) :
    ∃ s₀ a m p o₁ o₂ l₀ l', A.Trace ok obs s₀ l₀ ∧ ok s₀ a ∧
      A.next a.thread s₀.mem (s₀.pc a.thread) a.input = some (m, p) ∧
      obs a.thread s₀.mem (s₀.pc a.thread) a.input m p = o₁ ++ e :: o₂ ∧ l₁ = l₀ ++ o₁ ∧ l₂ = o₂ ++ l' ∧
      ∀ K : State M P → List E → Prop, K (s₀.set a.thread m p) [] →
        (∀ s a l m p, A.Reach ok s → ok s a → K s l →
          A.next a.thread s.mem (s.pc a.thread) a.input = some (m, p) →
            K (s.set a.thread m p) (l ++ obs a.thread s.mem (s.pc a.thread) a.input m p)) → K s l' := by
  induction h generalizing l₁ l₂ with
  | init => simp at hl
  | @step s₀ a l₀ m p hr ha hn ih =>
    rcases List.append_eq_append_iff.mp hl with ⟨o₁, rfl, ho⟩ | ⟨c, hl₀, hc⟩
    · exact ⟨s₀, a, m, p, o₁, l₂, l₀, [], hr, ha, hn, ho, rfl, (List.append_nil l₂).symm, fun K h0 _ => h0⟩
    · cases c with
      | nil =>
        rw [List.append_nil] at hl₀
        exact ⟨s₀, a, m, p, [], l₂, l₀, [], hr, ha, hn, hc.symm, by rw [List.append_nil, hl₀],
          (List.append_nil l₂).symm, fun K h0 _ => h0⟩
      | cons e' c =>
        obtain ⟨rfl, rfl⟩ : e = e' ∧ l₂ = c ++ obs a.thread s₀.mem (s₀.pc a.thread) a.input m p :=
          List.cons.inj hc
        obtain ⟨s₁, b, m₁, p₁, o₁, o₂, l₃, l', h₁, hb, hn₁, ho, h₂, rfl, hK⟩ := ih hl₀
        refine ⟨s₁, b, m₁, p₁, o₁, o₂, l₃, _, h₁, hb, hn₁, ho, h₂, List.append_assoc .., fun K h0 hstep => ?_⟩
        exact hstep _ _ _ _ _ hr.reach ha (hK K h0 hstep) hn

/-- Each event of a run was shown by a step, after the events before it. -/
theorem Trace.exists_step {e : E} {l₁ l₂ : List E} (h : A.Trace ok obs s l) (hl : l = l₁ ++ e :: l₂) :
    ∃ s₀ a m p o₁ o₂ l₀, A.Trace ok obs s₀ l₀ ∧ ok s₀ a ∧
      A.next a.thread s₀.mem (s₀.pc a.thread) a.input = some (m, p) ∧
      obs a.thread s₀.mem (s₀.pc a.thread) a.input m p = o₁ ++ e :: o₂ ∧ l₁ = l₀ ++ o₁ := by
  obtain ⟨s₀, a, m, p, o₁, o₂, l₀, -, h₀, ha, hn, ho, h₁, -⟩ := h.exists_since hl
  exact ⟨s₀, a, m, p, o₁, o₂, l₀, h₀, ha, hn, ho, h₁⟩

theorem Trace.of_history (T : Test ok) {as : List (Act I)} {s' : State M P} {l' : List E} (h : A.Trace ok obs s l)
    (hr : A.history T.test obs s as = some (s', l')) : A.Trace ok obs s' (l ++ l') := by
  induction as generalizing s l l' with
  | nil =>
    simp only [history, Option.some.injEq, Prod.mk.injEq] at hr
    obtain ⟨rfl, rfl⟩ := hr
    simpa using h
  | cons a as ih =>
    simp only [history, Option.ite_none_right_eq_some] at hr
    obtain ⟨hta, hr⟩ := hr
    obtain ⟨⟨m, p⟩, hn, hr⟩ := Option.bind_eq_some_iff.mp hr
    obtain ⟨⟨s₁, l₁⟩, h₁, he⟩ := Option.map_eq_some_iff.mp hr
    simp only [Prod.mk.injEq] at he
    obtain ⟨rfl, rfl⟩ := he
    have := ih (h.step (T.sound hta) hn) h₁
    rwa [List.append_assoc] at this

/-- What a schedule shows of the state it ends in and of the events, when it can be executed and all its
steps pass a test for `ok`. -/
theorem exists_of_history (A : Program M P I) (obs : ℕ → M → P → I → M → P → List E) (T : Test ok) {β : Type*}
    (as : List (Act I)) (f : State M P → List E → β) (b : β)
    (h : (A.history T.test obs A.init as).map (fun r => f r.1 r.2) = some b) :
    ∃ s l, A.Trace ok obs s l ∧ f s l = b := by
  obtain ⟨⟨s, l⟩, hs, hf⟩ := Option.map_eq_some_iff.mp h
  exact ⟨s, l, by simpa using Trace.of_history T .init hs, hf⟩

/-- Threads that a schedule does not name stay where they are. -/
theorem history_pc_of_ne {test : State M P → Act I → Bool} {as : List (Act I)} {s' : State M P} {t : ℕ}
    (ht : ∀ a ∈ as, a.thread ≠ t) (h : A.history test obs s as = some (s', l)) : s'.pc t = s.pc t := by
  induction as generalizing s l with
  | nil =>
    simp only [history, Option.some.injEq, Prod.mk.injEq] at h
    rw [← h.1]
  | cons a as ih =>
    simp only [history, Option.ite_none_right_eq_some] at h
    obtain ⟨-, h⟩ := h
    obtain ⟨⟨m, p⟩, -, h⟩ := Option.bind_eq_some_iff.mp h
    obtain ⟨⟨s₁, l₁⟩, h₁, he⟩ := Option.map_eq_some_iff.mp h
    simp only [Prod.mk.injEq] at he
    obtain ⟨rfl, -⟩ := he
    rw [ih (fun b hb => ht b (List.mem_cons_of_mem a hb)) h₁,
      State.set_pc_of_ne _ _ _ _ (ht a List.mem_cons_self).symm]

/-- The same for a schedule of the first `n` threads: the others are idle. -/
theorem exists_of_history_lt (A : Program M P I) (obs : ℕ → M → P → I → M → P → List E) (T : Test ok) {β : Type*}
    (as : List (Act I)) (n : ℕ) (hn : ∀ a ∈ as, a.thread < n) (f : State M P → List E → β) (b : β)
    (h : (A.history T.test obs A.init as).map (fun r => f r.1 r.2) = some b) :
    ∃ s l, A.Trace ok obs s l ∧ f s l = b ∧ ∀ t, n ≤ t → s.pc t = A.idle := by
  obtain ⟨⟨s, l⟩, hs, hf⟩ := Option.map_eq_some_iff.mp h
  refine ⟨s, l, by simpa using Trace.of_history T .init hs, hf, ?_⟩
  intro t hle
  refine history_pc_of_ne (fun a ha => ?_) hs
  have := hn a ha
  omega

/-! ## Assertions on a run -/

/-- An assertion on the state and the events that holds at the start and is kept by every step holds in
every state. -/
theorem Trace.invariant {J : State M P → List E → Prop} (h0 : J A.init [])
    (hJ : ∀ s a l m p, A.Trace ok obs s l → ok s a → J s l →
      A.next a.thread s.mem (s.pc a.thread) a.input = some (m, p) →
        J (s.set a.thread m p) (l ++ obs a.thread s.mem (s.pc a.thread) a.input m p))
    (h : A.Trace ok obs s l) : J s l := by
  induction h with
  | init => exact h0
  | step hr ha hn ih => exact hJ _ _ _ _ _ hr ha ih hn

/-- The rule for an assertion on every single thread. -/
theorem Trace.each {L : ℕ → M → P → List E → Prop} (h0 : ∀ t, L t A.mem A.idle [])
    (hL : ∀ s a l m p, A.Trace ok obs s l → ok s a → (∀ t, L t s.mem (s.pc t) l) →
      A.next a.thread s.mem (s.pc a.thread) a.input = some (m, p) →
        L a.thread m p (l ++ obs a.thread s.mem (s.pc a.thread) a.input m p) ∧
        ∀ u, u ≠ a.thread → L u m (s.pc u) (l ++ obs a.thread s.mem (s.pc a.thread) a.input m p))
    (h : A.Trace ok obs s l) (t : ℕ) : L t s.mem (s.pc t) l := by
  revert t
  refine h.invariant (J := fun s l => ∀ t, L t s.mem (s.pc t) l) h0 fun s a l m p hr ha hi hn u => ?_
  obtain ⟨hown, hother⟩ := hL s a l m p hr ha hi hn
  by_cases hu : u = a.thread
  · subst hu; simpa using hown
  · simpa [State.set_pc_of_ne _ _ _ _ hu] using hother u hu

/-- The threads that are where `f` holds, after a step. -/
theorem exists_card_set (f : P → Bool) {S : Finset ℕ} (hS : ∀ t, t ∈ S ↔ f (s.pc t) = true) (t : ℕ) (m : M) (p : P) :
    ∃ S' : Finset ℕ, (∀ u, u ∈ S' ↔ f ((s.set t m p).pc u) = true) ∧
      S'.card + (f (s.pc t)).toNat = S.card + (f p).toNat := by
  have hmem : ∀ u, u ≠ t → (u ∈ S ↔ f ((s.set t m p).pc u) = true) := fun u hu => by
    rw [State.set_pc_of_ne _ _ _ _ hu, hS u]
  -- the size of the set without the thread that steps
  have hcut : (S.erase t).card + (f (s.pc t)).toNat = S.card := by
    cases hf : f (s.pc t) with
    | true => exact Finset.card_erase_add_one ((hS _).mpr hf)
    | false =>
      rw [Finset.erase_eq_of_notMem (by rw [hS, hf]; decide)]
      rfl
  cases hp : f p with
  | true =>
    refine ⟨insert t (S.erase t), fun u => ?_, ?_⟩
    · by_cases hu : u = t
      · subst hu; simp [hp]
      · simpa [hu] using hmem u hu
    · rw [Finset.card_insert_of_notMem (Finset.notMem_erase _ _), Bool.toNat_true]
      omega
  | false =>
    refine ⟨S.erase t, fun u => ?_, hcut⟩
    by_cases hu : u = t
    · subst hu; simp [hp]
    · simpa [hu] using hmem u hu

/-- **Events in pairs.**  When a step shows an event of the kind `up` exactly as the thread gets to where
`f` holds and one of the kind `down` exactly as it leaves there, the events of the two kinds differ by the
number of the threads in between. -/
theorem Trace.balance (up down : E → Bool) (f : P → Bool) (h0 : f A.idle = false)
    (hstep : ∀ s a l m p, A.Trace ok obs s l → ok s a →
      A.next a.thread s.mem (s.pc a.thread) a.input = some (m, p) →
        (obs a.thread s.mem (s.pc a.thread) a.input m p).countP up + (f (s.pc a.thread)).toNat =
          (obs a.thread s.mem (s.pc a.thread) a.input m p).countP down + (f p).toNat)
    (h : A.Trace ok obs s l) :
    ∃ S : Finset ℕ, (∀ t, t ∈ S ↔ f (s.pc t) = true) ∧ l.countP up = l.countP down + S.card := by
  refine h.invariant (J := fun s l => ∃ S : Finset ℕ, (∀ t, t ∈ S ↔ f (s.pc t) = true) ∧
    l.countP up = l.countP down + S.card) ⟨∅, fun _ => by simp [Program.init, h0], rfl⟩ fun s a l m p hr ha hi hn => ?_
  obtain ⟨S, hS, hcard⟩ := hi
  have hev := hstep s a l m p hr ha hn
  obtain ⟨S', hS', hcard'⟩ := exists_card_set f hS a.thread m p
  refine ⟨S', hS', ?_⟩
  rw [List.countP_append, List.countP_append]
  omega

end Program

/-! ## What goes through the threads -/

/-- What has gone out and then what one thread has in hand is, up to `rel`, what has come in. -/
def Carried {X : Type*} (rel : List X → List X → Prop) (hand : P → List X) (s : State M P) (into out : List X) : Prop :=
  ∃ t, rel (out ++ hand (s.pc t)) into ∧ ∀ u, u ≠ t → hand (s.pc u) = []

/-- What has come in has gone out again, in order, but for what one thread has in hand. -/
def InOrder {X : Type*} : (P → List X) → State M P → List X → List X → Prop := Carried fun a b => b = a

/-- A relation that goes on with what is added on both sides. -/
structure Composes {X : Type*} (rel : List X → List X → Prop) : Prop where
  nil : ∀ {a}, rel a [] → a = []
  append : ∀ {a b c d e}, rel (a ++ b) c → rel d (b ++ e) → rel (a ++ d) (c ++ e)

theorem composes_eq {X : Type*} : Composes fun a b : List X => b = a where
  nil h := h.symm
  append h h' := by rw [h, List.append_assoc, h']

theorem composes_sublist {X : Type*} : Composes (List.Sublist (α := X)) where
  nil h := List.eq_nil_of_sublist_nil h
  append {a b c d e} h h' := by
    have hleft : (a ++ d).Sublist (a ++ (b ++ e)) := h'.append_left a
    rw [← List.append_assoc] at hleft
    exact hleft.trans (h.append_right e)

section Carried

variable {X : Type*} {rel : List X → List X → Prop} {hand : P → List X} {s : State M P} {into into' out out' : List X}
  {t : ℕ} {m : M} {p : P}

/-- A step passes on what its thread has in hand; while another thread has something in hand, nothing comes in. -/
theorem Carried.step (h : Carried rel hand s into out) (hrel : Composes rel)
    (hstep : rel (out' ++ hand p) (hand (s.pc t) ++ into')) (hexcl : into' ≠ [] → ∀ u, u ≠ t → hand (s.pc u) = []) :
    Carried rel hand (s.set t m p) (into ++ into') (out ++ out') := by
  obtain ⟨v, hv, hfree⟩ := h
  by_cases hothers : ∀ u, u ≠ t → hand (s.pc u) = []
  · have ht : rel (out ++ hand (s.pc t)) into := by
      by_cases hvt : v = t
      · rw [← hvt]
        exact hv
      · rw [hfree t (Ne.symm hvt), ← hothers v hvt]
        exact hv
    refine ⟨t, ?_, fun u hu => ?_⟩
    · rw [State.set_pc_self, List.append_assoc]
      exact hrel.append ht hstep
    · rw [State.set_pc_of_ne _ _ _ _ hu]
      exact hothers u hu
  · have hnone : into' = [] := by
      by_contra hne
      exact hothers (hexcl hne)
    push Not at hothers
    obtain ⟨u, hu, hload⟩ := hothers
    obtain rfl : u = v := by
      by_contra huv
      exact hload (hfree u huv)
    -- so thread `t` has nothing in hand, before and after
    rw [hfree t hu.symm, hnone] at hstep
    obtain ⟨hout, hp⟩ := List.append_eq_nil_iff.mp (hrel.nil hstep)
    refine ⟨u, ?_, fun w hw => ?_⟩
    · rw [State.set_pc_of_ne _ _ _ _ hu, hnone, hout, List.append_nil, List.append_nil]
      exact hv
    · by_cases hwt : w = t
      · subst hwt
        rw [State.set_pc_self]
        exact hp
      · rw [State.set_pc_of_ne _ _ _ _ hwt]
        exact hfree w hw

theorem InOrder.step (h : InOrder hand s into out) (hstep : hand (s.pc t) ++ into' = out' ++ hand p)
    (hexcl : into' ≠ [] → ∀ u, u ≠ t → hand (s.pc u) = []) :
    InOrder hand (s.set t m p) (into ++ into') (out ++ out') :=
  Carried.step h composes_eq hstep hexcl

theorem InOrder.isPrefix (h : InOrder hand s into out) : out <+: into := by
  obtain ⟨t, heq, -⟩ := h
  exact ⟨_, heq.symm⟩

/-- When no thread has anything in hand, all has gone out. -/
theorem InOrder.eq (h : InOrder hand s into out) (hfree : ∀ t, hand (s.pc t) = []) : into = out := by
  obtain ⟨t, heq, -⟩ := h
  rw [heq, hfree t, List.append_nil]

end Carried

end SignalRClient.Threads
