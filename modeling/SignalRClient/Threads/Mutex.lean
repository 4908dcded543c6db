import SignalRClient.Threads.Program

/-!
# A lock

`bit m` says that the lock is held and `holds p` that a thread at `p` has it.  When every step of a thread
takes the lock while it is free, gives up the one it has or leaves the lock alone (`LockStep`), at most one
thread has it.
-/

namespace SignalRClient.Threads

variable {M P I : Type*}

/-- What a step does to a lock: `b` and `b'` are its bit before and after, `h` and `h'` say whether the thread
has it. -/
inductive LockStep : (b b' h h' : Bool) → Prop
  | take : LockStep false true false true
  | leave (b : Bool) : LockStep b false true false
  | stay (b h : Bool) : LockStep b b h h

/-- The lock is held by at most one thread, and is marked as held then. -/
structure Mutex (bit : M → Bool) (holds : P → Bool) (s : State M P) : Prop where
  held : ∀ t, holds (s.pc t) = true → bit s.mem = true
  excl : ∀ t u, holds (s.pc t) = true → holds (s.pc u) = true → t = u

variable {bit : M → Bool} {holds : P → Bool} {s : State M P}

theorem Mutex.step {t : ℕ} {m : M} {p : P} (h : Mutex bit holds s)
    (hs : LockStep (bit s.mem) (bit m) (holds (s.pc t)) (holds p)) : Mutex bit holds (s.set t m p) := by
  have hother : ∀ u, u ≠ t → holds ((s.set t m p).pc u) = holds (s.pc u) := fun u hu => by
    rw [State.set_pc_of_ne _ _ _ _ hu]
  -- no other thread has the lock when this one has it before or after
  have hfree : holds (s.pc t) = true ∨ holds p = true → ∀ u, u ≠ t → holds (s.pc u) = false := by
    intro hh u hu
    by_contra hu'
    have hu' : holds (s.pc u) = true := by simpa using hu'
    have hb := h.held u hu'
    generalize bit s.mem = b, bit m = b', hq : holds (s.pc t) = q, holds p = q' at hs hh hb
    cases hs with
    | take => cases hb
    | leave => exact hu (h.excl u t hu' hq)
    | stay => exact hu (h.excl u t hu' (hq.trans (hh.elim id id)))
  have hbit : holds p = true → bit m = true := by
    intro hp
    have hb := h.held t
    generalize bit s.mem = b, bit m = b', holds (s.pc t) = q, holds p = q' at hs hp hb
    cases hs with
    | take => rfl
    | leave => cases hp
    | stay => exact hb hp
  have hkeep : ∀ u, u ≠ t → holds (s.pc u) = true → bit m = true := by
    intro u hu hu'
    have hb := h.held u hu'
    by_cases hq : holds (s.pc t) = true ∨ holds p = true
    · rw [hfree hq u hu] at hu'
      cases hu'
    · have hq : holds (s.pc t) = false ∧ holds p = false := by simpa using hq
      rw [hq.1, hq.2] at hs
      generalize bit s.mem = b, bit m = b' at hs hb
      cases hs with
      | stay => exact hb
  refine ⟨fun u hu => ?_, fun u v hu hv => ?_⟩
  · by_cases hut : u = t
    · subst hut
      rw [State.set_pc_self] at hu
      exact hbit hu
    · rw [hother u hut] at hu
      exact hkeep u hut hu
  · by_cases hut : u = t
    · by_cases hvt : v = t
      · rw [hut, hvt]
      · subst hut
        rw [State.set_pc_self] at hu
        rw [hother v hvt, hfree (.inr hu) v hvt] at hv
        cases hv
    · rw [hother u hut] at hu
      by_cases hvt : v = t
      · subst hvt
        rw [State.set_pc_self] at hv
        rw [hfree (.inr hv) u hut] at hu
        cases hu
      · rw [hother v hvt] at hv
        exact h.excl u v hu hv

/-- **Mutual exclusion.** -/
theorem Program.Reach.mutex {A : Program M P I} {ok : State M P → Act I → Prop} (h : A.Reach ok s)
    (h0 : holds A.idle = false)
    (hstep : ∀ t m p i m' p', A.next t m p i = some (m', p') → LockStep (bit m) (bit m') (holds p) (holds p')) :
    Mutex bit holds s := by
  refine h.invariant ?_ ?_
  · have hidle : ∀ t, holds (A.init.pc t) = true → False := fun t ht => by
      rw [show A.init.pc t = A.idle from rfl, h0] at ht
      cases ht
    exact ⟨fun t ht => (hidle t ht).elim, fun t _ ht => (hidle t ht).elim⟩
  · intro s a m p _ _ hm hn
    exact hm.step (hstep _ _ _ _ _ _ hn)

/-- A lock that is held is held by a thread. -/
def Owned (bit : M → Bool) (holds : P → Bool) (s : State M P) : Prop :=
  bit s.mem = true → ∃ t, holds (s.pc t) = true

theorem Owned.step {t : ℕ} {m : M} {p : P} (h : Owned bit holds s)
    (hs : LockStep (bit s.mem) (bit m) (holds (s.pc t)) (holds p)) : Owned bit holds (s.set t m p) := by
  intro hb
  rw [State.set_mem] at hb
  -- the thread that steps has it, or it is still with the one before
  have hcase : holds p = true ∨ (bit s.mem = true ∧ holds (s.pc t) = false) := by
    generalize bit s.mem = b, bit m = b', holds (s.pc t) = q, holds p = q' at hs hb
    cases hs with
    | take => exact .inl rfl
    | leave => cases hb
    | stay =>
      cases q with
      | true => exact .inl rfl
      | false => exact .inr ⟨hb, rfl⟩
  rcases hcase with hp | ⟨hold, hq⟩
  · exact ⟨t, by rwa [State.set_pc_self]⟩
  · obtain ⟨u, hu⟩ := h hold
    have hne : u ≠ t := by
      rintro rfl
      rw [hq] at hu
      cases hu
    exact ⟨u, by rwa [State.set_pc_of_ne _ _ _ _ hne]⟩

theorem Program.Reach.owned {A : Program M P I} {ok : State M P → Act I → Prop} (h : A.Reach ok s)
    (h0 : bit A.mem = false)
    (hstep : ∀ t m p i m' p', A.next t m p i = some (m', p') → LockStep (bit m) (bit m') (holds p) (holds p')) :
    Owned bit holds s := by
  refine h.invariant (J := Owned bit holds) (fun hb => ?_) fun s a m p _ _ ih hn => ih.step (hstep _ _ _ _ _ _ hn)
  rw [show bit A.init.mem = bit A.mem from rfl, h0] at hb
  cases hb

end SignalRClient.Threads
