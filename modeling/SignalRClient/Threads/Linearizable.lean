import SignalRClient.Threads.Trace

/-!
# Operations that take effect at once

The threads call the operations of an object and get their results.  Of this a history shows the calls and the
returns.  It is linearizable when each call can be given one moment of effect between its call and its return, so that
the operations, in the order of their effects, are those of a sequential object.

* `Object` — a sequential object;
* `Object.Linearizes` — a history with the moments of effect;
* `Trace.linearizes` — the rule for a program.
-/

namespace SignalRClient.Threads

variable {V Op R : Type*}

/-- A sequential object: `step x a r y` when `a` may give `r` on the value `x` and leave `y`. -/
structure Object (V Op R : Type*) where
  init : V
  step : V → Op → R → V → Prop

/-- The operations `l`, with their results, take the object to the value `x`. -/
inductive Object.Runs (O : Object V Op R) : List (Op × R) → V → Prop
  | nil : O.Runs [] O.init
  | snoc {l : List (Op × R)} {x y : V} {a : Op} {r : R} : O.Runs l x → O.step x a r y → O.Runs (l ++ [(a, r)]) y

inductive Moment (Op R : Type*) where
  | call (t : ℕ) (a : Op)
  | effect (t : ℕ) (a : Op) (r : R)
  | ret (t : ℕ) (a : Op) (r : R)

namespace Moment

def thread : Moment Op R → ℕ
  | .call t _ | .effect t _ _ | .ret t _ _ => t

/-- The caller does not see when its call takes effect. -/
def visible : Moment Op R → Bool
  | .effect _ _ _ => false
  | _ => true

def effect? : Moment Op R → Option (Op × R)
  | .effect _ a r => some (a, r)
  | _ => none

end Moment

/-- Where a thread is with its call; `returned`: it has taken effect, and the result is `r`. -/
inductive Status (Op R : Type*) where
  | idle
  | called (a : Op)
  | returned (a : Op) (r : R)

/-- The moments of one thread: call after call, each with one effect, whose result it returns. -/
inductive Course (t : ℕ) : List (Moment Op R) → Status Op R → Prop
  | nil : Course t [] .idle
  | call {l : List (Moment Op R)} {a : Op} : Course t l .idle → Course t (l ++ [.call t a]) (.called a)
  | effect {l : List (Moment Op R)} {a : Op} {r : R} : Course t l (.called a) →
      Course t (l ++ [.effect t a r]) (.returned a r)
  | ret {l : List (Moment Op R)} {a : Op} {r : R} : Course t l (.returned a r) → Course t (l ++ [.ret t a r]) .idle

/-- `L` is the history `l` with a moment of effect for the calls, and the effects leave the value `x`. -/
structure Object.Linearizes (O : Object V Op R) (l L : List (Moment Op R)) (x : V) : Prop where
  visible : L.filter Moment.visible = l
  course : ∀ t, ∃ q, Course t (L.filter fun e => e.thread = t) q
  runs : O.Runs (L.filterMap Moment.effect?) x

/-- A step of thread `t` from the value `x` and the status `q` shows `o`. -/
inductive Object.Advance (O : Object V Op R) (t : ℕ) : V → Status Op R → List (Moment Op R) → V → Status Op R → Prop
  | call (x : V) (a : Op) : O.Advance t x .idle [.call t a] x (.called a)
  | effect {x y : V} {a : Op} {r : R} : O.step x a r y → O.Advance t x (.called a) [.effect t a r] y (.returned a r)
  | ret (x : V) (a : Op) (r : R) : O.Advance t x (.returned a r) [.ret t a r] x .idle

section

variable {O : Object V Op R} {t : ℕ} {x y : V} {q q' : Status Op R} {o : List (Moment Op R)}

theorem Object.Advance.thread (h : O.Advance t x q o y q') {e : Moment Op R} (he : e ∈ o) : e.thread = t := by
  cases h with
  | _ => rw [List.mem_singleton.mp he]; rfl

theorem Object.Advance.filter_self (h : O.Advance t x q o y q') : (o.filter fun e => e.thread = t) = o := by
  apply List.filter_eq_self.mpr
  intro e he
  simpa using h.thread he

theorem Object.Advance.filter_of_ne (h : O.Advance t x q o y q') {u : ℕ} (hu : u ≠ t) :
    (o.filter fun e => e.thread = u) = [] := by
  apply List.filter_eq_nil_iff.mpr
  intro e he
  simpa [h.thread he] using hu.symm

theorem Object.Advance.course (h : O.Advance t x q o y q') {l : List (Moment Op R)} (hl : Course t l q) :
    Course t (l ++ o) q' := by
  cases h with
  | call => exact hl.call
  | effect => exact hl.effect
  | ret => exact hl.ret

theorem Object.Advance.runs (h : O.Advance t x q o y q') {l : List (Op × R)} (hl : O.Runs l x) :
    O.Runs (l ++ o.filterMap Moment.effect?) y := by
  cases h with
  | effect hs => exact hl.snoc hs
  | call | ret => rwa [List.filterMap_cons_none rfl, List.filterMap_nil, List.append_nil]

end

/-- **The rule for a program** each of whose steps calls, takes effect or returns. -/
theorem Program.Trace.linearizes {M P I : Type*} {A : Program M P I} {ok : State M P → Act I → Prop}
    {obs : ℕ → M → P → I → M → P → List (Moment Op R)} {s : State M P} {L : List (Moment Op R)} {O : Object V Op R}
    (value : M → V) (status : P → Status Op R) (h : A.Trace ok obs s L) (hv : value A.mem = O.init)
    (hidle : status A.idle = .idle)
    (hstep : ∀ t m p i m' p', A.next t m p i = some (m', p') →
      O.Advance t (value m) (status p) (obs t m p i m' p') (value m') (status p')) :
    O.Linearizes (L.filter Moment.visible) L (value s.mem) := by
  have hall : O.Runs (L.filterMap Moment.effect?) (value s.mem) ∧
      ∀ t, Course t (L.filter fun e => e.thread = t) (status (s.pc t)) := by
    refine h.invariant (J := fun s L => O.Runs (L.filterMap Moment.effect?) (value s.mem) ∧
      ∀ t, Course t (L.filter fun e => e.thread = t) (status (s.pc t))) ?_ ?_
    · refine ⟨?_, fun t => ?_⟩
      · rw [Program.init, hv]
        exact .nil
      · rw [Program.init, hidle]
        exact .nil
    intro s a L m p _ _ ih hn
    obtain ⟨hruns, hcourse⟩ := ih
    have hadvance := hstep _ _ _ _ _ _ hn
    refine ⟨?_, fun t => ?_⟩
    · rw [List.filterMap_append]
      exact hadvance.runs hruns
    · rw [List.filter_append]
      by_cases ht : t = a.thread
      · subst ht
        rw [State.set_pc_self, hadvance.filter_self]
        exact hadvance.course (hcourse a.thread)
      · rw [State.set_pc_of_ne _ _ _ _ ht, hadvance.filter_of_ne ht, List.append_nil]
        exact hcourse t
  exact ⟨rfl, fun t => ⟨_, hall.2 t⟩, hall.1⟩

end SignalRClient.Threads
