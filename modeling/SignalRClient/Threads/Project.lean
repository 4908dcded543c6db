import SignalRClient.Threads.Trace

/-!
# A program within a larger one

`f` and `g` take the memory and the program counters of a program `C` to those of a program `A`.  When every
step of `C` is one of `A` or leaves what `A` sees as it is, the runs of `C` are runs of `A`.
-/

namespace SignalRClient.Threads

variable {M P I M' P' I' : Type*}

/-- What of a state is seen through `f` and `g`. -/
def State.project (f : M' → M) (g : P' → P) (s : State M' P') : State M P := ⟨f s.mem, fun t => g (s.pc t)⟩

theorem State.project_set (f : M' → M) (g : P' → P) (s : State M' P') (t : ℕ) (m : M') (p : P') :
    (s.set t m p).project f g = (s.project f g).set t (f m) (g p) := by
  simp only [State.project, State.set, State.mk.injEq, true_and]
  funext u
  by_cases hu : u = t
  · subst hu; simp
  · simp [hu]

/-- A step that changes nothing. -/
theorem State.set_self (s : State M P) (t : ℕ) : s.set t s.mem (s.pc t) = s := by
  simp [State.set]

namespace Program

variable {A : Program M P I} {C : Program M' P' I'} {ok : State M P → Act I → Prop}
  {ok' : State M' P' → Act I' → Prop} {f : M' → M} {g : P' → P} {s : State M' P'}

/-- **Projection.** -/
theorem Reach.project (h : C.Reach ok' s) (hm : f C.mem = A.mem) (hp : g C.idle = A.idle)
    (hstep : ∀ s a m p, C.Reach ok' s → ok' s a → C.next a.thread s.mem (s.pc a.thread) a.input = some (m, p) →
      (f m = f s.mem ∧ g p = g (s.pc a.thread)) ∨
      ∃ j, ok (s.project f g) ⟨a.thread, j⟩ ∧
        A.next a.thread (f s.mem) (g (s.pc a.thread)) j = some (f m, g p)) :
    A.Reach ok (s.project f g) := by
  refine h.invariant (J := fun s => A.Reach ok (s.project f g)) ?_ ?_
  · have h0 : C.init.project f g = A.init := by
      simp only [State.project, Program.init, hm, hp]
    rw [h0]
    exact .init
  · intro s a m p hr ha ih hn
    rw [State.project_set]
    rcases hstep s a m p hr ha hn with ⟨hm', hp'⟩ | ⟨j, hj, hn'⟩
    · rw [hm', hp']
      exact (State.set_self (s.project f g) a.thread).symm ▸ ih
    · exact ih.step hj (step_eq_some.mpr ⟨_, _, hn', rfl⟩)

/-- Projection of a run with its events: `sel` picks those of `A`. -/
theorem Trace.project {E E' : Type*} {obs : ℕ → M → P → I → M → P → List E}
    {obs' : ℕ → M' → P' → I' → M' → P' → List E'} {l : List E'} (sel : E' → Option E)
    (h : C.Trace ok' obs' s l) (hm : f C.mem = A.mem) (hp : g C.idle = A.idle)
    (hstep : ∀ s a m p, C.Reach ok' s → ok' s a → C.next a.thread s.mem (s.pc a.thread) a.input = some (m, p) →
      (f m = f s.mem ∧ g p = g (s.pc a.thread) ∧
        (obs' a.thread s.mem (s.pc a.thread) a.input m p).filterMap sel = []) ∨
      ∃ j, ok (s.project f g) ⟨a.thread, j⟩ ∧
        A.next a.thread (f s.mem) (g (s.pc a.thread)) j = some (f m, g p) ∧
        (obs' a.thread s.mem (s.pc a.thread) a.input m p).filterMap sel =
          obs a.thread (f s.mem) (g (s.pc a.thread)) j (f m) (g p)) :
    A.Trace ok obs (s.project f g) (l.filterMap sel) := by
  refine h.invariant (J := fun s l => A.Trace ok obs (s.project f g) (l.filterMap sel)) ?_ ?_
  · have h0 : C.init.project f g = A.init := by
      simp only [State.project, Program.init, hm, hp]
    rw [h0]
    exact .init
  · intro s a l m p hr ha ih hn
    rw [State.project_set, List.filterMap_append]
    rcases hstep s a m p hr.reach ha hn with ⟨hm', hp', hev⟩ | ⟨j, hj, hn', hev⟩
    · rw [hm', hp', hev, List.append_nil]
      exact (State.set_self (s.project f g) a.thread).symm ▸ ih
    · rw [hev]
      exact ih.step (a := ⟨a.thread, j⟩) hj hn'

end Program

end SignalRClient.Threads
