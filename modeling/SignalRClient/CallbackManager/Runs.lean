import SignalRClient.CallbackManager
import SignalRClient.Threads.Trace

/-!
# Runs of a `callback_manager`

Any number of threads call the operations.  A critical section is one step, and so is the access to the counter; a
callback is known by how many ids had been given out before its own.  `bound_iff` says when the id that
`register_callback` returns is that of its callback alone.
-/

namespace SignalRClient.CallbackManager

open Threads

structure Mem where
  manager : CallbackManager ℕ := {}
  issued : ℕ := 0                     -- ids given out
  destroyed : Bool := false

inductive Pc where
  | idle
  /-- in `register_callback`, before the critical section -/
  | insert (id : String) (n : ℕ)
  /-- in `invoke_callback`, behind the critical section -/
  | call (n : ℕ)

inductive Input where
  | register
  | invoke (id : String) (remove : Bool)
  | remove (id : String)
  | clear
  | destroy
  | go

/-- One step of a thread.  The callbacks that `clear` calls do not throw, and what the one of `invoke_callback`
does is not seen here. -/
def next (m : Mem) (p : Pc) (i : Input) : Option (Mem × Pc) :=
  if m.destroyed then none
  else match p, i with
    | .idle, .register =>
      some ({ m with manager := m.manager.getCallbackId.2, issued := m.issued + 1 },
        .insert m.manager.getCallbackId.1 m.issued)
    | .insert id n, .go => some ({ m with manager := m.manager.insert id n }, .idle)
    | .idle, .invoke id remove =>
      match m.manager.find id with
      | none => some (m, .idle)
      | some n => some ({ m with manager := if remove then m.manager.erase id else m.manager }, .call n)
    | .call _, .go => some (m, .idle)
    | .idle, .remove id => some ({ m with manager := m.manager.erase id }, .idle)
    | .idle, .clear => some ({ m with manager := m.manager.clear }, .idle)
    | .idle, .destroy => some ({ m with manager := m.manager.clear, destroyed := true }, .idle)
    | _, _ => none

/-- **The program of `callback_manager`.** -/
def prog : Program Mem Pc Input := ⟨{}, .idle, fun _ => next⟩

/-- The id of the `n`-th registration. -/
def idOf (n : ℕ) : String := idText (BitVec.ofNat 32 n)

/-- The steps on `m`, one constructor for each. -/
inductive Moves (m : Mem) : Pc → Input → Mem → Pc → Prop where
  | register : Moves m .idle .register { m with manager := m.manager.getCallbackId.2, issued := m.issued + 1 }
      (.insert m.manager.getCallbackId.1 m.issued)
  | insert (id : String) (n : ℕ) : Moves m (.insert id n) .go { m with manager := m.manager.insert id n } .idle
  | miss (id : String) (remove : Bool) : m.manager.find id = none → Moves m .idle (.invoke id remove) m .idle
  | find (id : String) (remove : Bool) (n : ℕ) : m.manager.find id = some n → Moves m .idle (.invoke id remove)
      { m with manager := if remove then m.manager.erase id else m.manager } (.call n)
  | call (n : ℕ) : Moves m (.call n) .go m .idle
  | remove (id : String) : Moves m .idle (.remove id) { m with manager := m.manager.erase id } .idle
  | clear : Moves m .idle .clear { m with manager := m.manager.clear } .idle
  | destroy : Moves m .idle .destroy { m with manager := m.manager.clear, destroyed := true } .idle

theorem next_moves {m m' : Mem} {p p' : Pc} {i : Input} (h : next m p i = some (m', p')) :
    m.destroyed = false ∧ Moves m p i m' p' := by
  have of_eq : ∀ {q : Pc} {j : Input} {r : Mem × Pc}, some r = some (m', p') → Moves m q j r.1 r.2 → Moves m q j m' p' := by
    intro q j r hr hmoves
    injection hr with hr
    rw [hr] at hmoves
    exact hmoves
  unfold next at h
  split at h
  · cases h
  · rename_i hd
    refine ⟨by simpa using hd, ?_⟩
    split at h
    · exact of_eq h .register
    · exact of_eq h (.insert _ _)
    · split at h
      · rename_i hf
        exact of_eq h (.miss _ _ hf)
      · rename_i n hf
        exact of_eq h (.find _ _ n hf)
    · exact of_eq h (.call _)
    · exact of_eq h (.remove _)
    · exact of_eq h .clear
    · exact of_eq h .destroy
    · cases h

/-! ## Ids -/

/-- A callback is registered under the id that was made for it. -/
structure Linked (s : State Mem Pc) : Prop where
  counter : s.mem.manager.id = BitVec.ofNat 32 s.mem.issued
  entry : ∀ id n, s.mem.manager.find id = some n → id = idOf n ∧ n < s.mem.issued
  insert : ∀ t id n, s.pc t = .insert id n → id = idOf n ∧ n < s.mem.issued

/-- A step that takes no id. -/
theorem Linked.set {s : State Mem Pc} (h : Linked s) {t : ℕ} {m : Mem} {p : Pc} (hid : m.manager.id = s.mem.manager.id)
    (his : m.issued = s.mem.issued)
    (hf : ∀ id n, m.manager.find id = some n → s.mem.manager.find id = some n ∨ s.pc t = .insert id n)
    (hp : ∀ id n, p ≠ .insert id n) : Linked (s.set t m p) := by
  refine ⟨?_, fun id n hfind => ?_, fun u id n hu => ?_⟩
  · rw [State.set_mem, hid, his]
    exact h.counter
  · rw [State.set_mem, his]
    rcases hf id n hfind with he | hpc
    · exact h.entry id n he
    · exact h.insert t id n hpc
  · by_cases hut : u = t
    · subst hut
      rw [State.set_pc_self] at hu
      exact absurd hu (hp id n)
    · rw [State.set_pc_of_ne _ _ _ _ hut] at hu
      rw [State.set_mem, his]
      exact h.insert u id n hu

theorem linked_holds {s : State Mem Pc} (h : prog.Reachable s) : Linked s := by
  refine h.invariant (J := Linked) ?_ fun s a m p _ _ hi hn => ?_
  · refine ⟨rfl, fun id n hf => ?_, fun t id n hp => ?_⟩
    · cases hf
    · cases hp
  · obtain ⟨-, hmoves⟩ := next_moves hn
    generalize hp : s.pc a.thread = q at hmoves
    generalize a.input = i at hmoves
    cases hmoves with
    | register =>
      refine ⟨?_, fun id n hf => ?_, fun u id n hu => ?_⟩
      · show s.mem.manager.id + 1 = BitVec.ofNat 32 (s.mem.issued + 1)
        rw [hi.counter, BitVec.ofNat_add]
        rfl
      · obtain ⟨hid, hlt⟩ := hi.entry id n hf
        exact ⟨hid, Nat.lt_succ_of_lt hlt⟩
      · by_cases hut : u = a.thread
        · subst hut
          rw [State.set_pc_self] at hu
          injection hu with hid hnum
          subst hnum
          refine ⟨?_, Nat.lt_succ_self _⟩
          rw [← hid, idOf, ← hi.counter]
          rfl
        · rw [State.set_pc_of_ne _ _ _ _ hut] at hu
          obtain ⟨hid, hlt⟩ := hi.insert u id n hu
          exact ⟨hid, Nat.lt_succ_of_lt hlt⟩
    | insert id n =>
      refine hi.set (insert_id ..) rfl (fun k c hf => ?_) fun _ _ he => (by cases he)
      simp only [insert_find] at hf
      split at hf
      · rename_i hk
        injection hf with hf
        rw [hk.1, ← hf]
        exact .inr hp
      · exact .inl hf
    | miss => exact hi.set rfl rfl (fun _ _ => .inl) fun _ _ he => (by cases he)
    | find id remove n hfind =>
      cases remove with
      | false => exact hi.set rfl rfl (fun _ _ => .inl) fun _ _ he => (by cases he)
      | true =>
        refine hi.set rfl rfl (fun k c hf => ?_) fun _ _ he => (by cases he)
        simp only [if_true, erase_find] at hf
        split at hf
        · cases hf
        · exact .inl hf
    | call => exact hi.set rfl rfl (fun _ _ => .inl) fun _ _ he => (by cases he)
    | remove id =>
      refine hi.set rfl rfl (fun k c hf => ?_) fun _ _ he => (by cases he)
      simp only [erase_find] at hf
      split at hf
      · cases hf
      · exact .inl hf
    | clear => exact hi.set rfl rfl (fun _ _ hf => (by cases hf)) fun _ _ he => (by cases he)
    | destroy => exact hi.set rfl rfl (fun _ _ hf => (by cases hf)) fun _ _ he => (by cases he)

theorem idOf_eq_iff {a b : ℕ} : idOf a = idOf b ↔ a ≡ b [MOD 2 ^ 32] := by
  refine ⟨fun h => ?_, fun h => ?_⟩
  · have he := congrArg BitVec.toNat (idText_inj h)
    rw [BitVec.toNat_ofNat, BitVec.toNat_ofNat] at he
    exact he
  · have he : BitVec.ofNat 32 a = BitVec.ofNat 32 b := by
      refine BitVec.eq_of_toNat_eq ?_
      rw [BitVec.toNat_ofNat, BitVec.toNat_ofNat]
      exact h
    rw [idOf, idOf, he]

/-- **Callback ids are not shared**, unless a callback is still there that was registered a multiple of 2 ^ 32
registrations earlier or later. -/
theorem bound_iff {s s' : State Mem Pc} {a : Act Input} {id : String} {n : ℕ} (h : prog.Reachable s)
    (hs : prog.step s a = some s') (hp : s.pc a.thread = .insert id n) :
    (s.mem.manager.find id = none ∧ s'.mem.manager.find id = some n) ↔
      ∀ k c, s.mem.manager.find k = some c → ¬ c ≡ n [MOD 2 ^ 32] := by
  obtain ⟨hid, -⟩ := (linked_holds h).insert _ _ _ hp
  have hafter : s.mem.manager.find id = none → s'.mem.manager.find id = some n := by
    intro hfree
    obtain ⟨m, p, hn, rfl⟩ := Program.step_eq_some.mp hs
    have hmoves := (next_moves hn).2
    rw [hp] at hmoves
    generalize a.input = i at hmoves
    cases hmoves
    rw [State.set_mem, insert_find, if_pos ⟨rfl, hfree⟩]
  refine ⟨fun hbound k c hf hmod => ?_, fun hnone => ?_⟩
  · obtain ⟨hk, -⟩ := (linked_holds h).entry k c hf
    have hsame : k = id := by rw [hk, hid, idOf_eq_iff.mpr hmod]
    rw [hsame, hbound.1] at hf
    cases hf
  · have hfree : s.mem.manager.find id = none := by
      by_contra hne
      obtain ⟨c, hf⟩ := Option.ne_none_iff_exists'.mp hne
      obtain ⟨hk, -⟩ := (linked_holds h).entry id c hf
      exact hnone id c hf (idOf_eq_iff.mp (hk.symm.trans hid))
    exact ⟨hfree, hafter hfree⟩

/-- Two registrations; the first callback is still there. -/
theorem bound_second : ∃ s', prog.Reachable s' ∧ s'.mem.manager.find (idOf 0) = some 0 ∧
    s'.mem.manager.find (idOf 1) = some 1 := by
  obtain ⟨s, h, hf⟩ := prog.exists_of_run Test.all
    [⟨0, .register⟩, ⟨0, .go⟩, ⟨1, .register⟩]
    (fun s => (s.pc 1, s.mem.manager.callbacks.entries, (prog.step s ⟨1, .go⟩).map fun s' => s'.mem.manager.find (idOf 0)))
    (.insert (idOf 1) 1, [⟨idOf 0, 0⟩], some (some 0)) rfl
  simp only [Prod.mk.injEq, Option.map_eq_some_iff] at hf
  obtain ⟨hp, hentries, s', hs', hfirst⟩ := hf
  have hbound := (bound_iff h hs' hp).mpr fun k c hc => ?_
  · exact ⟨s', h.step trivial hs', hfirst, hbound.2⟩
  · have hmem := (mem_entries s.mem.manager (e := ⟨k, c⟩)).mpr hc
    rw [hentries] at hmem
    obtain ⟨-, rfl⟩ : k = idOf 0 ∧ c = 0 := by simpa using hmem
    decide

theorem register_step {s : State Mem Pc} {t : ℕ} (hp : s.pc t = .idle) (hd : s.mem.destroyed = false) :
    prog.step s ⟨t, .register⟩ = some (s.set t
      { s.mem with manager := s.mem.manager.getCallbackId.2, issued := s.mem.issued + 1 }
      (.insert s.mem.manager.getCallbackId.1 s.mem.issued)) := by
  refine Program.step_eq_some.mpr ⟨_, _, ?_, rfl⟩
  show next s.mem (s.pc t) .register = _
  rw [hp, next, if_neg (by rw [hd]; exact Bool.false_ne_true)]

theorem insert_step {s : State Mem Pc} {t : ℕ} {id : String} {n : ℕ} (hp : s.pc t = .insert id n)
    (hd : s.mem.destroyed = false) :
    prog.step s ⟨t, .go⟩ = some (s.set t { s.mem with manager := s.mem.manager.insert id n } .idle) := by
  refine Program.step_eq_some.mpr ⟨_, _, ?_, rfl⟩
  show next s.mem (s.pc t) .go = _
  rw [hp, next, if_neg (by rw [hd]; exact Bool.false_ne_true)]

/-- A registration from `s` on, before its critical section and behind it. -/
theorem exists_registration {s : State Mem Pc} {t : ℕ} (h : prog.Reachable s) (hp : s.pc t = .idle)
    (hd : s.mem.destroyed = false) :
    ∃ s₁ s₂, prog.Reachable s₁ ∧ s₁.pc t = .insert s.mem.manager.getCallbackId.1 s.mem.issued ∧
      s₁.mem.manager.callbacks = s.mem.manager.callbacks ∧ prog.step s₁ ⟨t, .go⟩ = some s₂ := by
  have hstep := register_step hp hd
  exact ⟨_, _, h.step trivial hstep, State.set_pc_self .., rfl, insert_step (State.set_pc_self ..) hd⟩

/-- From `s` on `k` registrations, on the threads from `n` on, take their ids and go no further. -/
def crowd (s : State Mem Pc) (n k : ℕ) : State Mem Pc where
  mem := { s.mem with
    manager := { s.mem.manager with id := s.mem.manager.id + BitVec.ofNat 32 k }
    issued := s.mem.issued + k }
  pc t := if n ≤ t ∧ t < n + k then
      .insert (idText (s.mem.manager.id + BitVec.ofNat 32 (t - n))) (s.mem.issued + (t - n))
    else s.pc t

theorem crowd_pc_of_lt (s : State Mem Pc) {n t : ℕ} (k : ℕ) (h : t < n) : (crowd s n k).pc t = s.pc t :=
  if_neg (by omega)

theorem crowd_reachable {s : State Mem Pc} {n : ℕ} (h : prog.Reachable s) (hidle : ∀ t, n ≤ t → s.pc t = .idle)
    (hd : s.mem.destroyed = false) (k : ℕ) : prog.Reachable (crowd s n k) := by
  induction k with
  | zero =>
    have hrange : ∀ t, ¬ (n ≤ t ∧ t < n) := by omega
    have heq : crowd s n 0 = s := by
      simp only [crowd, BitVec.add_zero, Nat.add_zero, hrange, if_false]
    rw [heq]
    exact h
  | succ k ih =>
    have hpc : (crowd s n k).pc (n + k) = .idle := (if_neg (by omega)).trans (hidle (n + k) (by omega))
    have hd' : (crowd s n k).mem.destroyed = false := hd
    have hid : s.mem.manager.id + BitVec.ofNat 32 k + 1 = s.mem.manager.id + BitVec.ofNat 32 (k + 1) := by
      rw [BitVec.add_assoc, BitVec.ofNat_add]
      rfl
    have hpcs := update_range (fun t => Pc.insert (idText (s.mem.manager.id + BitVec.ofNat 32 (t - n)))
      (s.mem.issued + (t - n))) s.pc n k
    rw [Nat.add_sub_cancel_left] at hpcs
    have heq : crowd s n (k + 1) = (crowd s n k).set (n + k)
        { (crowd s n k).mem with
          manager := (crowd s n k).mem.manager.getCallbackId.2, issued := (crowd s n k).mem.issued + 1 }
        (.insert (crowd s n k).mem.manager.getCallbackId.1 (crowd s n k).mem.issued) := by
      simp only [State.set, crowd, getCallbackId, hid, hpcs, Nat.add_assoc]
    rw [heq]
    exact ih.step trivial (register_step hpc hd')

/-- After 2 ^ 32 registrations the first callback still has the id, and the new one is not registered. -/
theorem shared_after_wrap : ¬ ∀ s s' a id n, prog.Reachable s → prog.step s a = some s' → s.pc a.thread = .insert id n →
    s.mem.manager.find id = none ∧ s'.mem.manager.find id = some n := by
  intro hall
  obtain ⟨s₁, h₁, hf, hidle⟩ := prog.exists_of_run_lt Test.all
    [⟨0, .register⟩, ⟨0, .go⟩] 1 (by decide)
    (fun s => (s.pc 0, s.mem.manager.id, s.mem.destroyed, s.mem.manager.find "0")) (.idle, 1, false, some 0) rfl
  simp only [Prod.mk.injEq] at hf
  obtain ⟨hpc, hid, hd, hfind⟩ := hf
  obtain ⟨k, hk⟩ : ∃ k, k = 2 ^ 32 - 1 := ⟨_, rfl⟩
  have h₂ := crowd_reachable h₁ hidle hd k
  -- the thread that has registered the first callback takes the id after the crowd
  have hpc₂ : (crowd s₁ 1 k).pc 0 = .idle := (crowd_pc_of_lt s₁ k (by decide)).trans hpc
  obtain ⟨s₂, s₃, h₃, hpc₃, hcallbacks, hstep⟩ := exists_registration h₂ hpc₂ hd
  have hzero : (crowd s₁ 1 k).mem.manager.getCallbackId.1 = "0" := by
    show idText (s₁.mem.manager.id + BitVec.ofNat 32 k) = "0"
    rw [hid, hk]
    decide
  rw [hzero] at hpc₃
  obtain ⟨hfree, -⟩ := hall s₂ s₃ ⟨0, .go⟩ "0" _ h₃ hstep hpc₃
  have hfound : s₁.mem.manager.find "0" = none := by
    rw [find, hcallbacks] at hfree
    exact hfree
  rw [hfind] at hfound
  cases hfound

end SignalRClient.CallbackManager
