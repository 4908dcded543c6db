import Mathlib

/-!
# Threads over a shared memory

A `Program` says what one thread at a program counter does to a shared memory; its runs interleave
the steps of any number of threads in any order.

* `Program.Reach ok` — the states of the runs all of whose steps meet the condition `ok`;
* `Program.run` — a run on a given list of actions, so that one schedule can be executed and the
  condition on its steps tested on the way (`Test`);
* `Outline` — a proof outline in the manner of Owicki and Gries: an assertion on the memory, one
  on every thread, and one on every two threads.  `Outline.holds_of_reach` is its rule: it asks
  for one step of one thread at a time, next to an arbitrary other thread.
-/

namespace SignalRClient.Threads

variable {M P I : Type*}

/-- What the threads execute.  `next t m p i` is the step of thread `t` at program counter `p` on
the memory `m`; `i` is what the step takes from outside.  `none`: the thread cannot step now. -/
structure Program (M P I : Type*) where
  mem : M
  idle : P
  next : ℕ → M → P → I → Option (M × P)

/-- The memory and the program counter of every thread. -/
structure State (M P : Type*) where
  mem : M
  pc : ℕ → P

/-- One step of a schedule: which thread, and its input. -/
structure Act (I : Type*) where
  thread : ℕ
  input : I

/-- The state after thread `t` has left `m` and has moved to `p`. -/
def State.set (s : State M P) (t : ℕ) (m : M) (p : P) : State M P := ⟨m, Function.update s.pc t p⟩

section State

variable (s : State M P) (t : ℕ) (m : M) (p : P)

@[simp] theorem State.set_mem : (s.set t m p).mem = m := rfl

@[simp] theorem State.set_pc_self : (s.set t m p).pc t = p := Function.update_self ..

theorem State.set_pc_of_ne {u : ℕ} (h : u ≠ t) : (s.set t m p).pc u = s.pc u :=
  Function.update_of_ne h ..

end State

/-- One more place of a range that is updated. -/
theorem update_range {α : Type} (f g : ℕ → α) (n k : ℕ) :
    Function.update (fun t => if n ≤ t ∧ t < n + k then f t else g t) (n + k) (f (n + k)) =
      fun t => if n ≤ t ∧ t < n + (k + 1) then f t else g t := by
  funext t
  by_cases ht : t = n + k
  · subst ht
    rw [Function.update_self, if_pos (by omega)]
  · rw [Function.update_of_ne ht]
    by_cases hr : n ≤ t ∧ t < n + k
    · rw [if_pos hr, if_pos (by omega)]
    · rw [if_neg hr, if_neg (by omega)]

/-! ## Tests -/

/-- A test for a condition on the steps: a step that passes it meets the condition. -/
structure Test (ok : State M P → Act I → Prop) where
  test : State M P → Act I → Bool
  sound : ∀ {s a}, test s a = true → ok s a

namespace Test

variable {ok ok' : State M P → Act I → Prop}

/-- The test for no condition. -/
def all : Test fun (_ : State M P) (_ : Act I) => True := ⟨fun _ _ => true, fun _ => trivial⟩

def and (T : Test ok) (T' : Test ok') : Test fun s a => ok s a ∧ ok' s a where
  test s a := T.test s a && T'.test s a
  sound h := ⟨T.sound ((Bool.and_eq_true_iff.mp h).1), T'.sound ((Bool.and_eq_true_iff.mp h).2)⟩

def mono (T : Test ok) (h : ∀ s a, ok s a → ok' s a) : Test ok' := ⟨T.test, fun ht => h _ _ (T.sound ht)⟩

end Test

/-! ## Runs -/

namespace Program

variable (A : Program M P I)

def init : State M P := ⟨A.mem, fun _ => A.idle⟩

def step (s : State M P) (a : Act I) : Option (State M P) :=
  (A.next a.thread s.mem (s.pc a.thread) a.input).map fun r => s.set a.thread r.1 r.2

/-- The run of a schedule from `s`; `none` when one of its steps is not possible or fails the test. -/
def run (test : State M P → Act I → Bool) (s : State M P) : List (Act I) → Option (State M P)
  | [] => some s
  | a :: l => if test s a then (A.step s a).bind fun s' => run test s' l else none

/-- The states of the runs whose steps all meet `ok`, a condition on the state before the step. -/
inductive Reach (ok : State M P → Act I → Prop) : State M P → Prop
  | init : Reach ok A.init
  | step {s s' : State M P} {a : Act I} : Reach ok s → ok s a → A.step s a = some s' → Reach ok s'

/-- The states of all runs. -/
abbrev Reachable : State M P → Prop := A.Reach fun _ _ => True

variable {A} {ok ok' : State M P → Act I → Prop} {s s' : State M P} {a : Act I}

theorem step_eq_some : A.step s a = some s' ↔
    ∃ m p, A.next a.thread s.mem (s.pc a.thread) a.input = some (m, p) ∧ s' = s.set a.thread m p := by
  simp only [step, Option.map_eq_some_iff, Prod.exists]
  exact ⟨fun ⟨m, p, h, e⟩ => ⟨m, p, h, e.symm⟩, fun ⟨m, p, h, e⟩ => ⟨m, p, h, e.symm⟩⟩

theorem Reach.mono (h : A.Reach ok s) (hok : ∀ s a, ok s a → ok' s a) : A.Reach ok' s := by
  induction h with
  | init => exact .init
  | step _ ha hs ih => exact .step ih (hok _ _ ha) hs

theorem Reach.reachable (h : A.Reach ok s) : A.Reachable s := h.mono fun _ _ _ => trivial

theorem Reach.of_run (T : Test ok) {l : List (Act I)} (h : A.Reach ok s) (hr : A.run T.test s l = some s') :
    A.Reach ok s' := by
  induction l generalizing s with
  | nil =>
    obtain rfl : s = s' := by simpa [run] using hr
    exact h
  | cons a l ih =>
    simp only [run, Option.ite_none_right_eq_some] at hr
    obtain ⟨hta, hr⟩ := hr
    obtain ⟨s₁, h₁, h₂⟩ := Option.bind_eq_some_iff.mp hr
    exact ih (h.step (T.sound hta) h₁) h₂

/-- Threads that a schedule does not name stay where they are. -/
theorem run_pc_of_ne {test : State M P → Act I → Bool} {l : List (Act I)} {t : ℕ}
    (ht : ∀ a ∈ l, a.thread ≠ t) (h : A.run test s l = some s') : s'.pc t = s.pc t := by
  induction l generalizing s with
  | nil =>
    obtain rfl : s = s' := by simpa [run] using h
    rfl
  | cons a l ih =>
    simp only [run, Option.ite_none_right_eq_some] at h
    obtain ⟨-, h⟩ := h
    obtain ⟨s₁, h₁, h₂⟩ := Option.bind_eq_some_iff.mp h
    obtain ⟨m, p, -, rfl⟩ := step_eq_some.mp h₁
    rw [ih (fun b hb => ht b (List.mem_cons_of_mem a hb)) h₂,
      State.set_pc_of_ne _ _ _ _ (ht a List.mem_cons_self).symm]

/-- What a schedule shows of the state it ends in, when it can be executed and all its steps pass a
test for `ok`. -/
theorem exists_of_run (A : Program M P I) (T : Test ok) {β : Type*} (l : List (Act I)) (f : State M P → β) (b : β)
    (h : (A.run T.test A.init l).map f = some b) : ∃ s, A.Reach ok s ∧ f s = b := by
  obtain ⟨s, hs, hf⟩ := Option.map_eq_some_iff.mp h
  exact ⟨s, Reach.of_run T .init hs, hf⟩

/-- The same for a schedule of the first `n` threads: the others are idle. -/
theorem exists_of_run_lt (A : Program M P I) (T : Test ok) {β : Type*} (l : List (Act I)) (n : ℕ)
    (hn : ∀ a ∈ l, a.thread < n) (f : State M P → β) (b : β) (h : (A.run T.test A.init l).map f = some b) :
    ∃ s, A.Reach ok s ∧ f s = b ∧ ∀ t, n ≤ t → s.pc t = A.idle := by
  obtain ⟨s, hs, hf⟩ := Option.map_eq_some_iff.mp h
  refine ⟨s, Reach.of_run T .init hs, hf, fun t hle => run_pc_of_ne (fun a ha => ?_) hs⟩
  have := hn a ha
  omega

/-- An assertion that holds at the start and is kept by every step holds in every state. -/
theorem Reach.invariant {J : State M P → Prop} (h0 : J A.init)
    (hJ : ∀ s a m p, A.Reach ok s → ok s a → J s →
      A.next a.thread s.mem (s.pc a.thread) a.input = some (m, p) → J (s.set a.thread m p))
    (h : A.Reach ok s) : J s := by
  induction h with
  | init => exact h0
  | step hr ha hs ih =>
    obtain ⟨m, p, hn, rfl⟩ := step_eq_some.mp hs
    exact hJ _ _ m p hr ha ih hn

/-- The rule for an assertion on every single thread: a step keeps it for the thread that steps and
for every other one. -/
theorem Reach.each {L : ℕ → M → P → Prop} (h0 : ∀ t, L t A.mem A.idle)
    (hL : ∀ s a m p, A.Reach ok s → ok s a → (∀ t, L t s.mem (s.pc t)) →
      A.next a.thread s.mem (s.pc a.thread) a.input = some (m, p) →
        L a.thread m p ∧ ∀ u, u ≠ a.thread → L u m (s.pc u))
    (h : A.Reach ok s) (t : ℕ) : L t s.mem (s.pc t) := by
  revert t
  refine h.invariant (J := fun s => ∀ t, L t s.mem (s.pc t)) h0 fun s a m p hr ha hi hn u => ?_
  obtain ⟨hown, hother⟩ := hL s a m p hr ha hi hn
  by_cases hu : u = a.thread
  · subst hu; simpa using hown
  · simpa [State.set_pc_of_ne _ _ _ _ hu] using hother u hu

end Program

/-! ## Proof outlines -/

/-- Assertions on the memory, on one thread (its number, the memory, its program counter) and on
the program counters of two threads. -/
structure Outline (M P : Type*) where
  glob : M → Prop
  loc : ℕ → M → P → Prop
  pair : M → P → P → Prop

namespace Outline

variable (O : Outline M P)

structure Holds (s : State M P) : Prop where
  glob : O.glob s.mem
  loc : ∀ t, O.loc t s.mem (s.pc t)
  pair : ∀ t u, t ≠ u → O.pair s.mem (s.pc t) (s.pc u)

/-- What the step of thread `t` to `m` and `p` has to establish: the assertions on the memory and
on `t`, and those of every other thread `u`, alone, with `t` and with a third thread. -/
structure Kept (s : State M P) (t : ℕ) (m : M) (p : P) : Prop where
  glob : O.glob m
  loc : O.loc t m p
  other : ∀ u, u ≠ t → O.loc u m (s.pc u)
  left : ∀ u, u ≠ t → O.pair m p (s.pc u)
  right : ∀ u, u ≠ t → O.pair m (s.pc u) p
  others : ∀ q r, O.pair s.mem q r → O.pair m q r

variable {O}

theorem Kept.holds {s : State M P} {t : ℕ} {m : M} {p : P} (h : O.Holds s) (k : O.Kept s t m p) :
    O.Holds (s.set t m p) := by
  refine ⟨k.glob, fun u => ?_, fun u v huv => ?_⟩
  · by_cases hu : u = t
    · subst hu; simpa using k.loc
    · simpa [State.set_pc_of_ne _ _ _ _ hu] using k.other u hu
  · by_cases hu : u = t
    · subst hu
      simpa [State.set_pc_of_ne _ _ _ _ huv.symm] using k.left v huv.symm
    · by_cases hv : v = t
      · subst hv
        simpa [State.set_pc_of_ne _ _ _ _ hu] using k.right u hu
      · simpa [State.set_pc_of_ne _ _ _ _ hu, State.set_pc_of_ne _ _ _ _ hv]
          using k.others _ _ (h.pair u v huv)

/-- **The rule of outlines.**  An outline that holds at the start and that each step of each
thread keeps holds in every state of the runs. -/
theorem holds_of_reach {A : Program M P I} {ok : State M P → Act I → Prop} (h0 : O.Holds A.init)
    (hk : ∀ s a m p, A.Reach ok s → ok s a → O.Holds s →
      A.next a.thread s.mem (s.pc a.thread) a.input = some (m, p) → O.Kept s a.thread m p)
    {s : State M P} (h : A.Reach ok s) : O.Holds s :=
  h.invariant h0 fun s a m p hr ha hi hn => (hk s a m p hr ha hi hn).holds hi

end Outline

end SignalRClient.Threads
