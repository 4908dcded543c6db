import SignalRClient.Threads.Trace

/-!
# References that are counted

An object with a counter, which whoever lets go of the last reference destroys.  Some references are in the memory,
and a thread has those of its program counter.

* `Counted` — the counter is the number of the references;
* `Disposed` — the object is destroyed by one thread, and when there are no references;
* `Trace.once` — it is destroyed once.
-/

namespace SignalRClient.Threads

variable {M P I E : Type*}

/-- The counter is the number of the references: there are `n` in the memory `m` when `inMem m n`, and a thread at `p`
has `holds p`. -/
def Counted (count : M → ℕ) (inMem : M → ℕ → Prop) (holds : P → ℕ) (s : State M P) : Prop :=
  ∃ n, ∃ S : Finset ℕ, inMem s.mem n ∧ (∀ t, t ∉ S → holds (s.pc t) = 0) ∧ count s.mem = n + ∑ t ∈ S, holds (s.pc t)

/-- One thread destroys the object, when there are no references. -/
structure Disposed (count : M → ℕ) (destroys : P → Bool) (s : State M P) : Prop where
  none : ∀ t, destroys (s.pc t) = true → count s.mem = 0
  alone : ∀ t u, destroys (s.pc t) = true → destroys (s.pc u) = true → t = u

section

variable {count : M → ℕ} {inMem : M → ℕ → Prop} {holds : P → ℕ} {destroys : P → Bool} {s : State M P} {t u : ℕ} {m : M}
  {p : P}

/-- The set of threads may be enlarged. -/
theorem Counted.insert (h : Counted count inMem holds s) (t : ℕ) :
    ∃ n, ∃ S : Finset ℕ, t ∈ S ∧ inMem s.mem n ∧ (∀ u, u ∉ S → holds (s.pc u) = 0) ∧
      count s.mem = n + ∑ u ∈ S, holds (s.pc u) := by
  obtain ⟨n, S, hn, hS, hcount⟩ := h
  refine ⟨n, Insert.insert t S, Finset.mem_insert_self .., hn, fun u hu => ?_, ?_⟩
  · apply hS
    intro hmem
    exact hu (Finset.mem_insert_of_mem hmem)
  · rw [hcount]
    congr 1
    apply Finset.sum_subset (Finset.subset_insert ..)
    intro u _ hu
    exact hS u hu

/-- A step takes and lets go of references, and the counter goes with it. -/
theorem Counted.step (h : Counted count inMem holds s)
    (hstep : ∀ n, inMem s.mem n → n + holds (s.pc t) ≤ count s.mem →
      ∃ n', inMem m n' ∧ count m + (n + holds (s.pc t)) = count s.mem + (n' + holds p)) :
    Counted count inMem holds (s.set t m p) := by
  obtain ⟨n, S, ht, hn, hS, hcount⟩ := h.insert t
  rw [← Finset.add_sum_erase S _ ht] at hcount
  obtain ⟨n', hn', hbalance⟩ := hstep n hn (by omega)
  refine ⟨n', S, hn', fun u hu => ?_, ?_⟩
  · have hne : u ≠ t := by
      rintro rfl
      exact hu ht
    rw [State.set_pc_of_ne _ _ _ _ hne]
    exact hS u hu
  · have hothers : ∑ u ∈ S.erase t, holds ((s.set t m p).pc u) = ∑ u ∈ S.erase t, holds (s.pc u) := by
      apply Finset.sum_congr rfl
      intro u hu
      rw [State.set_pc_of_ne _ _ _ _ (Finset.ne_of_mem_erase hu)]
    rw [← Finset.add_sum_erase S _ ht, hothers, State.set_pc_self, State.set_mem]
    omega

/-- The references in the memory and those of two threads. -/
theorem Counted.pair (h : Counted count inMem holds s) (hu : u ≠ t) :
    ∃ n, inMem s.mem n ∧ n + (holds (s.pc t) + holds (s.pc u)) ≤ count s.mem := by
  obtain ⟨n, S, ht, hn, hS, hcount⟩ := h.insert t
  refine ⟨n, hn, ?_⟩
  rw [← Finset.add_sum_erase S _ ht] at hcount
  by_cases hmem : u ∈ S
  · rw [← Finset.add_sum_erase (S.erase t) _ (Finset.mem_erase.mpr ⟨hu, hmem⟩)] at hcount
    omega
  · rw [hS u hmem]
    omega

theorem Counted.le (h : Counted count inMem holds s) (t : ℕ) :
    ∃ n, inMem s.mem n ∧ n + holds (s.pc t) ≤ count s.mem := by
  obtain ⟨n, hn, hle⟩ := h.pair (t := t) (Nat.succ_ne_self t)
  exact ⟨n, hn, by omega⟩

/-- Without references nobody holds one. -/
theorem Counted.none (h : Counted count inMem holds s) (h0 : count s.mem = 0) :
    inMem s.mem 0 ∧ ∀ t, holds (s.pc t) = 0 := by
  refine ⟨?_, fun t => ?_⟩
  · obtain ⟨n, hn, hle⟩ := h.le 0
    obtain rfl : n = 0 := by omega
    exact hn
  · obtain ⟨n, -, hle⟩ := h.le t
    omega

/-- Who holds all references is the only one that holds any. -/
theorem Counted.sole (h : Counted count inMem holds s) (ht : count s.mem ≤ holds (s.pc t)) (hu : u ≠ t) :
    holds (s.pc u) = 0 := by
  obtain ⟨n, -, hle⟩ := h.pair hu
  omega

/-- Without a holder there are no references. -/
theorem Counted.eq_zero (h : Counted count inMem holds s) (hmem : ∀ n, inMem s.mem n → n = 0)
    (hall : ∀ t, holds (s.pc t) = 0) : count s.mem = 0 := by
  obtain ⟨n, S, hn, -, hcount⟩ := h
  have hsum : ∑ t ∈ S, holds (s.pc t) = 0 := Finset.sum_eq_zero fun t _ => hall t
  have := hmem n hn
  omega

theorem Disposed.step (h : Disposed count destroys s) (hzero : count s.mem = 0 → count m = 0)
    (hnew : destroys p = true → destroys (s.pc t) = true ∨ (count s.mem ≠ 0 ∧ count m = 0)) :
    Disposed count destroys (s.set t m p) := by
  -- when the thread begins to destroy the object, no other thread does
  have hother : ∀ u, u ≠ t → destroys p = true → destroys (s.pc u) = false := by
    intro u hu hp
    by_contra hd
    have hd : destroys (s.pc u) = true := by simpa using hd
    rcases hnew hp with ht | ⟨hne, -⟩
    · exact hu (h.alone u t hd ht)
    · exact hne (h.none u hd)
  refine ⟨fun u hu => ?_, fun u v hu hv => ?_⟩
  · rw [State.set_mem]
    by_cases hut : u = t
    · subst hut
      rw [State.set_pc_self] at hu
      rcases hnew hu with ht | ⟨-, hm⟩
      · exact hzero (h.none u ht)
      · exact hm
    · rw [State.set_pc_of_ne _ _ _ _ hut] at hu
      exact hzero (h.none u hu)
  · by_cases hut : u = t <;> by_cases hvt : v = t
    · rw [hut, hvt]
    · subst hut
      rw [State.set_pc_self] at hu
      rw [State.set_pc_of_ne _ _ _ _ hvt, hother v hvt hu] at hv
      cases hv
    · subst hvt
      rw [State.set_pc_self] at hv
      rw [State.set_pc_of_ne _ _ _ _ hut, hother u hut hv] at hu
      cases hu
    · rw [State.set_pc_of_ne _ _ _ _ hut] at hu
      rw [State.set_pc_of_ne _ _ _ _ hvt] at hv
      exact h.alone u v hu hv

end

/-- **Once.**  When the steps that let go of the last reference, and only these, show an event, it is seen once when
there are no references any more, and not before. -/
theorem Program.Trace.once {A : Program M P I} {ok : State M P → Act I → Prop} {obs : ℕ → M → P → I → M → P → List E}
    {s : State M P} {l : List E} (count : M → ℕ) (last : E → Bool) (h0 : count A.mem ≠ 0)
    (hstep : ∀ s a l m p, A.Trace ok obs s l → ok s a →
      A.next a.thread s.mem (s.pc a.thread) a.input = some (m, p) → (count s.mem = 0 → count m = 0) ∧
        (obs a.thread s.mem (s.pc a.thread) a.input m p).countP last = if count s.mem ≠ 0 ∧ count m = 0 then 1 else 0)
    (h : A.Trace ok obs s l) : l.countP last = if count s.mem = 0 then 1 else 0 := by
  refine h.invariant (J := fun s l => l.countP last = if count s.mem = 0 then 1 else 0) ?_
    fun s a l m p hr ha hi hn => ?_
  · have h0 : count A.init.mem ≠ 0 := h0
    rw [if_neg h0]
    rfl
  · obtain ⟨hzero, hevents⟩ := hstep s a l m p hr ha hn
    rw [List.countP_append, hi, hevents, State.set_mem]
    by_cases hs : count s.mem = 0
    · simp [hs, hzero hs]
    · simp [hs]

end SignalRClient.Threads
