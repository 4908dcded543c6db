import SignalRClient.CallbackManager.Runs

/-!
# Every callback is settled once

A registered callback is taken by an `invoke_callback`, removed, or called by a `clear`, by the destructor at the
latest.  `Recorded` says how the table goes with what has been seen of a run; it holds in every run with fewer than
2 ^ 32 registrations, and `settled_once` is read off it.
-/

namespace SignalRClient.CallbackManager

open Threads

/-! ## What is seen -/

/-- How a callback is settled. -/
inductive Settlement where
  | invoked         -- taken by an invoke_callback
  | removed         -- by a remove_callback
  | cleared         -- called by a clear
  | destroyed       -- called by the destructor
  deriving DecidableEq

inductive Event where
  | registered (n : ℕ) (id : String)               -- register_callback returns id for callback n
  | settled (n : ℕ) (how : Settlement)
  | answered (id : String) (b : Bool)              -- invoke_callback or remove_callback has found out what to return
  deriving DecidableEq

def settles (n : ℕ) : Event → Bool
  | .settled k _ => k == n
  | _ => false

/-- What a step shows. -/
def events (_ : ℕ) (m : Mem) (p : Pc) (i : Input) (_ : Mem) (_ : Pc) : List Event :=
  match p, i with
  | .insert id n, _ => [.registered n id]
  | .idle, .invoke id remove =>
    match m.manager.find id with
    | none => [.answered id false]
    | some n => .answered id true :: if remove then [.settled n .invoked] else []
  | .idle, .remove id =>
    match m.manager.find id with
    | none => [.answered id false]
    | some n => [.answered id true, .settled n .removed]
  | .idle, .clear => m.manager.callbacks.entries.map fun e => .settled e.2 .cleared
  | .idle, .destroy => m.manager.callbacks.entries.map fun e => .settled e.2 .destroyed
  | _, _ => []

theorem idOf_inj {a b : ℕ} (ha : a < 2 ^ 32) (hb : b < 2 ^ 32) (h : idOf a = idOf b) : a = b := idText_ofNat_inj ha hb h

section

variable {m m' : Mem} {p p' : Pc} {i : Input} {t : ℕ}

theorem registered_mem_events {n : ℕ} {id : String} :
    .registered n id ∈ events t m p i m' p' ↔ p = .insert id n := by
  unfold events
  split
  · simp [eq_comm, and_comm]
  · split
    · simp
    · split <;> simp
  · split <;> simp
  · simp
  · simp
  · rename_i hinsert _ _ _ _
    refine ⟨fun h => (by cases h), fun h => ?_⟩
    exact (hinsert _ _ h).elim

/-- An entry is called once by `clear`. -/
theorem countP_entries {n : ℕ} (how : Settlement) (hentry : ∀ id k, m.manager.find id = some k → id = idOf k) :
    (m.manager.callbacks.entries.map fun e => Event.settled e.2 how).countP (settles n) =
      if m.manager.find (idOf n) = some n then 1 else 0 := by
  have hcount : (m.manager.callbacks.entries.map fun e => Event.settled e.2 how).countP (settles n) =
      m.manager.callbacks.entries.count ⟨idOf n, n⟩ := by
    rw [List.countP_map, List.count]
    refine List.countP_congr fun e he => ?_
    have hid := hentry e.1 e.2 ((mem_entries m.manager).mp he)
    show (e.2 == n) = true ↔ (e == ⟨idOf n, n⟩) = true
    rw [beq_iff_eq, beq_iff_eq]
    refine ⟨fun h => ?_, fun h => by rw [h]⟩
    obtain ⟨id, k⟩ := e
    obtain rfl : k = n := h
    obtain rfl : id = idOf k := hid
    rfl
  have hnodup : m.manager.callbacks.entries.Nodup := m.manager.callbacks.nodupKeys.nodup
  rw [hcount]
  split
  · rename_i hf
    exact List.count_eq_one_of_mem hnodup ((mem_entries m.manager).mpr hf)
  · rename_i hf
    exact List.count_eq_zero_of_not_mem fun hmem => hf ((mem_entries m.manager).mp hmem)

/-- Taking out one entry. -/
theorem find_erase_iff {k : String} {c n : ℕ} (hentry : ∀ id k, m.manager.find id = some k → id = idOf k)
    (hk : m.manager.find k = some c) (id : String) :
    (m.manager.erase k).find id = some n ↔ m.manager.find id = some n ∧ c ≠ n := by
  rw [erase_find]
  split
  · rename_i he
    subst he
    simp only [reduceCtorEq, false_iff, not_and, not_not]
    intro hid
    rw [hk] at hid
    exact Option.some.inj hid
  · rename_i hne
    refine ⟨fun hid => ⟨hid, ?_⟩, fun hid => hid.1⟩
    rintro rfl
    exact hne ((hentry id c hid).trans (hentry k c hk).symm)

/-- What a step takes out of the table it settles, once. -/
structure Settles (m m' : Mem) (l : List Event) (n : ℕ) : Prop where
  once : l.countP (settles n) ≤ 1
  found : l.countP (settles n) ≠ 0 → m.manager.find (idOf n) = some n
  kept : ∀ id, m'.manager.find id = some n ↔ m.manager.find id = some n ∧ l.countP (settles n) = 0

theorem settles_none {l : List Event} {n : ℕ} (hl : l.countP (settles n) = 0)
    (hm : m'.manager.callbacks = m.manager.callbacks) : Settles m m' l n := by
  refine ⟨by omega, fun h => absurd hl h, fun id => ?_⟩
  rw [find, find, hm]
  exact ⟨fun h => ⟨h, hl⟩, fun h => h.1⟩

theorem settles_erase {l : List Event} {id : String} {k n : ℕ} (hentry : ∀ id k, m.manager.find id = some k → id = idOf k)
    (hf : m.manager.find id = some k) (hl : l.countP (settles n) = if k = n then 1 else 0)
    (hm : m'.manager = m.manager.erase id) : Settles m m' l n := by
  refine ⟨?_, fun h => ?_, fun id' => ?_⟩
  · rw [hl]
    split <;> omega
  · rw [hl] at h
    split at h
    · rename_i hkn
      rw [← hkn, ← hentry id k hf]
      exact hf
    · exact absurd rfl h
  · rw [hm, find_erase_iff hentry hf, hl]
    simp

theorem settles_clear {n : ℕ} (how : Settlement) (hentry : ∀ id k, m.manager.find id = some k → id = idOf k)
    (hm : m'.manager = m.manager.clear) :
    Settles m m' (m.manager.callbacks.entries.map fun e => .settled e.2 how) n := by
  refine ⟨?_, fun h => ?_, fun id => ?_⟩
  · rw [countP_entries how hentry]
    split <;> omega
  · rw [countP_entries how hentry] at h
    split at h
    · rename_i hf
      exact hf
    · exact absurd rfl h
  · rw [hm, countP_entries how hentry]
    refine ⟨fun hf => (by cases hf), fun ⟨hf, hzero⟩ => ?_⟩
    rw [hentry id n hf] at hf
    rw [if_pos hf] at hzero
    cases hzero

theorem countP_settled (k n : ℕ) (how : Settlement) :
    [Event.settled k how].countP (settles n) = if k = n then 1 else 0 := by
  by_cases h : k = n
  · simp [settles, h]
  · simp [settles, h]

/-- **What a step does to the table**, a registration apart. -/
theorem settles_of_moves (h : Moves m p i m' p') (hentry : ∀ id k, m.manager.find id = some k → id = idOf k)
    (hp : ∀ id k, p ≠ .insert id k) (n : ℕ) : Settles m m' (events t m p i m' p') n := by
  cases h with
  | register => exact settles_none rfl rfl
  | insert id k => exact absurd rfl (hp id k)
  | miss id remove hf =>
    refine settles_none ?_ rfl
    simp [events, hf, settles]
  | find id remove k hf =>
    cases remove with
    | false =>
      refine settles_none ?_ rfl
      simp [events, hf, settles]
    | true =>
      refine settles_erase hentry hf ?_ rfl
      simp only [events, hf, if_true]
      rw [List.countP_cons_of_neg (by simp [settles])]
      exact countP_settled k n .invoked
  | call => exact settles_none rfl rfl
  | remove id =>
    cases hf : m.manager.find id with
    | none =>
      have hsame : m.manager.callbacks.erase id = m.manager.callbacks := by
        refine AList.ext ?_
        exact List.kerase_of_notMem_keys fun hmem => (mem_callbacks m.manager id).mp hmem hf
      refine settles_none ?_ hsame
      simp [events, hf, settles]
    | some k =>
      refine settles_erase hentry hf ?_ rfl
      simp only [events, hf]
      rw [List.countP_cons_of_neg (by simp [settles])]
      exact countP_settled k n .removed
  | clear => exact settles_clear .cleared hentry rfl
  | destroy => exact settles_clear .destroyed hentry rfl

end

/-! ## The record -/

/-- How the table goes with what has been seen. -/
structure Recorded (s : State Mem Pc) (l : List Event) : Prop where
  alone : ∀ t u id id' n, s.pc t = .insert id n → s.pc u = .insert id' n → t = u
  pending : ∀ t id n id', s.pc t = .insert id n → .registered n id' ∉ l
  known : ∀ n id, .registered n id ∈ l → id = idOf n ∧ n < s.mem.issued
  once : ∀ n, l.countP (settles n) ≤ 1
  settled : ∀ n, l.countP (settles n) ≠ 0 → .registered n (idOf n) ∈ l
  table : ∀ id n, s.mem.manager.find id = some n ↔ .registered n id ∈ l ∧ l.countP (settles n) = 0
  destroyed : s.mem.destroyed = true → ∀ id, s.mem.manager.find id = none

section

variable {s : State Mem Pc} {l : List Event} {a : Act Input} {m : Mem} {p : Pc}

/-- Who is in `register_callback` after a step. -/
theorem insert_of_moves (h : Moves s.mem (s.pc a.thread) a.input m p) {u : ℕ} {id : String} {n : ℕ}
    (hu : (s.set a.thread m p).pc u = .insert id n) :
    s.pc u = .insert id n ∨ (u = a.thread ∧ n = s.mem.issued ∧ m.issued = s.mem.issued + 1) := by
  by_cases hut : u = a.thread
  · subst hut
    rw [State.set_pc_self] at hu
    subst hu
    generalize s.pc a.thread = q at h
    generalize a.input = i at h
    cases h with
    | register => exact .inr ⟨rfl, rfl, rfl⟩
  · rw [State.set_pc_of_ne _ _ _ _ hut] at hu
    exact .inl hu

theorem issued_of_moves (h : Moves s.mem (s.pc a.thread) a.input m p) : s.mem.issued ≤ m.issued := by
  generalize s.pc a.thread = q at h
  generalize a.input = i at h
  cases h with
  | register => exact Nat.le_succ _
  | _ => exact le_rfl

theorem destroyed_of_moves (h : Moves s.mem (s.pc a.thread) a.input m p) (hd : s.mem.destroyed = false)
    (hm : m.destroyed = true) (id : String) : m.manager.find id = none := by
  generalize s.pc a.thread = q at h
  generalize a.input = i at h
  cases h with
  | destroy => rfl
  | _ =>
    rw [hd] at hm
    cases hm

/-- With fewer than 2 ^ 32 registrations the id is free. -/
theorem Recorded.free (h : Recorded s l) (hl : Linked s) (hlim : s.mem.issued < 2 ^ 32) {t : ℕ} {id : String} {n : ℕ}
    (hp : s.pc t = .insert id n) : s.mem.manager.find id = none := by
  by_contra hne
  obtain ⟨c, hf⟩ := Option.ne_none_iff_exists'.mp hne
  obtain ⟨hid, hlt⟩ := hl.insert t id n hp
  obtain ⟨hid', hlt'⟩ := hl.entry id c hf
  have hc : c = n := idOf_inj (by omega) (by omega) (hid'.symm.trans hid)
  rw [hc, h.table] at hf
  exact h.pending t id n id hp hf.1

/-- A registration puts its callback into the table. -/
theorem Recorded.registered (h : Recorded s l) (hl : Linked s) (hlim : s.mem.issued < 2 ^ 32)
    (hd : s.mem.destroyed = false) {id : String} {n : ℕ} (hp : s.pc a.thread = .insert id n)
    (hm : m = { s.mem with manager := s.mem.manager.insert id n }) (hp' : p = .idle) :
    Recorded (s.set a.thread m p) (l ++ [.registered n id]) := by
  subst hm
  subst hp'
  obtain ⟨hid, hlt⟩ := hl.insert _ id n hp
  have hfree := h.free hl hlim hp
  have hcount : ∀ k, (l ++ [Event.registered n id]).countP (settles k) = l.countP (settles k) := by
    intro k
    rw [List.countP_append]
    simp [settles]
  -- nobody else registers this callback
  have hother : ∀ u id' k, (s.set a.thread { s.mem with manager := s.mem.manager.insert id n } .idle).pc u = .insert id' k →
      s.pc u = .insert id' k ∧ k ≠ n := by
    intro u id' k hu
    by_cases hut : u = a.thread
    · subst hut
      rw [State.set_pc_self] at hu
      cases hu
    · rw [State.set_pc_of_ne _ _ _ _ hut] at hu
      refine ⟨hu, ?_⟩
      rintro rfl
      exact hut (h.alone u a.thread id' id k hu hp)
  refine ⟨fun t u id₁ id₂ k ht hu => ?_, fun t id₁ k id₂ ht => ?_, fun k id' hk => ?_, fun k => ?_, fun k hk => ?_,
    fun id' k => ?_, fun hd' => ?_⟩
  · exact h.alone t u id₁ id₂ k (hother t id₁ k ht).1 (hother u id₂ k hu).1
  · obtain ⟨ht', hne⟩ := hother t id₁ k ht
    rw [List.mem_append, List.mem_singleton, Event.registered.injEq]
    rintro (hmem | ⟨rfl, -⟩)
    · exact h.pending t id₁ k id₂ ht' hmem
    · exact hne rfl
  · rw [List.mem_append, List.mem_singleton, Event.registered.injEq] at hk
    rcases hk with hk | ⟨rfl, rfl⟩
    · exact h.known k id' hk
    · exact ⟨hid, hlt⟩
  · rw [hcount]
    exact h.once k
  · rw [hcount] at hk
    exact List.mem_append_left _ (h.settled k hk)
  · rw [hcount, List.mem_append, List.mem_singleton, Event.registered.injEq]
    show (s.mem.manager.insert id n).find id' = some k ↔ _
    rw [insert_find]
    by_cases hid' : id' = id
    · subst hid'
      rw [if_pos ⟨rfl, hfree⟩, Option.some.injEq]
      refine ⟨fun hnk => ⟨.inr ⟨hnk.symm, rfl⟩, ?_⟩, fun hk => ?_⟩
      · rw [← hnk]
        by_contra hne
        exact h.pending _ _ _ _ hp (h.settled n hne)
      · rcases hk.1 with hmem | ⟨hnk, -⟩
        · have hf := (h.table id' k).mpr ⟨hmem, hk.2⟩
          rw [hfree] at hf
          cases hf
        · exact hnk.symm
    · rw [if_neg fun hc => hid' hc.1, h.table]
      simp [hid']
  · have hd'' : s.mem.destroyed = true := hd'
    rw [hd] at hd''
    cases hd''

/-- Every other step. -/
theorem Recorded.moved (h : Recorded s l) (hl : Linked s) (hd : s.mem.destroyed = false)
    (hmoves : Moves s.mem (s.pc a.thread) a.input m p) (hp : ∀ id k, s.pc a.thread ≠ .insert id k) :
    Recorded (s.set a.thread m p) (l ++ events a.thread s.mem (s.pc a.thread) a.input m p) := by
  have hsettles := settles_of_moves (t := a.thread) hmoves (fun id k hf => (hl.entry id k hf).1) hp
  have hregistered : ∀ n id, .registered n id ∈ l ++ events a.thread s.mem (s.pc a.thread) a.input m p ↔
      .registered n id ∈ l := by
    intro n id
    rw [List.mem_append, registered_mem_events, or_iff_left (hp id n)]
  refine ⟨fun t u id₁ id₂ n ht hu => ?_, fun t id n id' ht => ?_, fun n id hn => ?_, fun n => ?_, fun n hn => ?_,
    fun id n => ?_, destroyed_of_moves hmoves hd⟩
  · rcases insert_of_moves hmoves ht with ht | ⟨rfl, hn, -⟩ <;> rcases insert_of_moves hmoves hu with hu | ⟨rfl, hn', -⟩
    · exact h.alone t u id₁ id₂ n ht hu
    · have hlt := (hl.insert t id₁ n ht).2
      omega
    · have hlt := (hl.insert u id₂ n hu).2
      omega
    · rfl
  · rw [hregistered]
    rcases insert_of_moves hmoves ht with ht | ⟨rfl, hn, -⟩
    · exact h.pending t id n id' ht
    · intro hmem
      have hlt := (h.known n id' hmem).2
      omega
  · rw [hregistered] at hn
    obtain ⟨hid, hlt⟩ := h.known n id hn
    exact ⟨hid, hlt.trans_le (issued_of_moves hmoves)⟩
  · have hle := (hsettles n).once
    have hold := h.once n
    rw [List.countP_append]
    by_cases hzero : (events a.thread s.mem (s.pc a.thread) a.input m p).countP (settles n) = 0
    · omega
    · -- what is settled now was in the table
      have hfound := ((h.table _ n).mp ((hsettles n).found hzero)).2
      omega
  · rw [hregistered]
    by_cases hzero : (events a.thread s.mem (s.pc a.thread) a.input m p).countP (settles n) = 0
    · rw [List.countP_append, hzero] at hn
      exact h.settled n hn
    · exact ((h.table _ n).mp ((hsettles n).found hzero)).1
  · rw [State.set_mem, (hsettles n).kept, h.table, hregistered, List.countP_append, Nat.add_eq_zero_iff, and_assoc]

end

theorem recorded_holds {ok : State Mem Pc → Act Input → Prop} {s : State Mem Pc} {l : List Event}
    (h : prog.Trace ok events s l) (hlim : s.mem.issued < 2 ^ 32) : Recorded s l := by
  revert hlim
  refine h.invariant (J := fun s l => s.mem.issued < 2 ^ 32 → Recorded s l) ?_ fun s a l m p hr _ ih hn hlim => ?_
  · intro _
    refine ⟨fun t u id id' n ht => ?_, fun t id n id' ht => ?_, fun n id hn => ?_, fun n => by simp, fun n hn => ?_,
      fun id n => ?_, fun _ id => rfl⟩
    · cases ht
    · cases ht
    · cases hn
    · exact absurd rfl hn
    · exact iff_of_false (fun hf => by cases hf) fun hn => by cases hn.1
  · obtain ⟨hd, hmoves⟩ := next_moves hn
    have hl := linked_holds hr.reachable
    have hi := ih ((issued_of_moves hmoves).trans_lt hlim)
    cases hp : s.pc a.thread with
    | insert id n =>
      have hlim₀ : s.mem.issued < 2 ^ 32 := (issued_of_moves hmoves).trans_lt hlim
      rw [hp] at hmoves
      generalize a.input = i at hmoves
      cases hmoves with
      | insert => exact hi.registered hl hlim₀ hd hp rfl rfl
    | idle => exact hp ▸ hi.moved hl hd hmoves fun id k hpk => by rw [hp] at hpk; cases hpk
    | call n => exact hp ▸ hi.moved hl hd hmoves fun id k hpk => by rw [hp] at hpk; cases hpk

/-! ## The result -/

/-- The id is registered and unsettled. -/
def Unsettled (l : List Event) (id : String) : Prop := ∃ n, .registered n id ∈ l ∧ l.countP (settles n) = 0

structure SettledOnce (s : State Mem Pc) (l : List Event) : Prop where
  /-- after the destruction every registered callback is settled, in one way -/
  once : s.mem.destroyed = true → ∀ n id, .registered n id ∈ l → l.countP (settles n) = 1
  /-- and what is returned says how things stood -/
  answered : ∀ l₁ l₂ id b, l = l₁ ++ .answered id b :: l₂ → (b = true ↔ Unsettled l₁ id)

/-- What a critical section finds out. -/
theorem of_answered {m m' : Mem} {p p' : Pc} {i : Input} {t : ℕ} {id : String} {b : Bool}
    (h : .answered id b ∈ events t m p i m' p') :
    ∃ o, events t m p i m' p' = .answered id b :: o ∧ .answered id b ∉ o ∧ b = (m.manager.find id).isSome := by
  unfold events at h ⊢
  split at h
  · simp at h
  · split at h
    · rename_i hf
      obtain ⟨rfl, rfl⟩ : id = _ ∧ b = false := by simpa using h
      exact ⟨[], rfl, by simp, by rw [hf]; rfl⟩
    · rename_i remove _ k hf
      obtain ⟨rfl, rfl⟩ : id = _ ∧ b = true := by
        cases remove <;> simpa using h
      refine ⟨if remove then [.settled k .invoked] else [], rfl, ?_, by rw [hf]; rfl⟩
      cases remove <;> simp
  · split at h
    · rename_i hf
      obtain ⟨rfl, rfl⟩ : id = _ ∧ b = false := by simpa using h
      exact ⟨[], rfl, by simp, by rw [hf]; rfl⟩
    · rename_i k hf
      obtain ⟨rfl, rfl⟩ : id = _ ∧ b = true := by simpa using h
      exact ⟨[.settled k .removed], rfl, by simp, by rw [hf]; rfl⟩
  · simp at h
  · simp at h
  · cases h

theorem answered_of_events {m m' : Mem} {p p' : Pc} {i : Input} {t : ℕ} {id : String} {b : Bool} {o₁ o₂ : List Event}
    (h : events t m p i m' p' = o₁ ++ .answered id b :: o₂) : o₁ = [] ∧ b = (m.manager.find id).isSome := by
  have hmem : .answered id b ∈ events t m p i m' p' := by
    rw [h]
    exact List.mem_append_right _ List.mem_cons_self
  obtain ⟨o, ho, hnot, hb⟩ := of_answered hmem
  refine ⟨?_, hb⟩
  rw [ho] at h
  cases o₁ with
  | nil => rfl
  | cons e o₁ =>
    have htail : o = o₁ ++ .answered id b :: o₂ := (List.cons.inj h).2
    rw [htail] at hnot
    exact absurd (List.mem_append_right _ List.mem_cons_self) hnot

/-- **Each registered callback is settled exactly once.** -/
theorem settled_once {s : State Mem Pc} {l : List Event} (h : prog.Trace (fun _ _ => True) events s l)
    (hlim : s.mem.issued < 2 ^ 32) : SettledOnce s l := by
  have hi := recorded_holds h hlim
  refine ⟨fun hd n id hn => ?_, fun l₁ l₂ id b hl => ?_⟩
  · have hle := hi.once n
    have hne : l.countP (settles n) ≠ 0 := by
      intro hzero
      have hf := (hi.table id n).mpr ⟨hn, hzero⟩
      rw [hi.destroyed hd id] at hf
      cases hf
    omega
  · obtain ⟨s₀, a, m, p, o₁, o₂, l₀, l', h₀, -, hn, hobs, hl₀, -, hK⟩ := h.exists_since hl
    obtain ⟨rfl, rfl⟩ := answered_of_events hobs
    have hlim₀ : s₀.mem.issued < 2 ^ 32 := by
      have hle : s₀.mem.issued ≤ s.mem.issued := by
        refine hK (fun s _ => s₀.mem.issued ≤ s.mem.issued) (issued_of_moves (next_moves hn).2)
          fun s a l m p _ _ ih hn => ih.trans (issued_of_moves (next_moves hn).2)
      omega
    rw [hl₀, List.append_nil, Option.isSome_iff_exists]
    exact exists_congr fun n => (recorded_holds h₀ hlim₀).table id n

/-- Three callbacks: one is taken by an `invoke_callback`, one is removed, and the third one is left to the
destructor. -/
theorem settled_once_three : ∃ s l, SettledOnce s l ∧ s.mem.destroyed = true ∧
    l = [.registered 0 "0", .registered 1 "1", .registered 2 "2", .answered "0" true, .settled 0 .invoked,
      .answered "1" true, .settled 1 .removed, .answered "1" false, .settled 2 .destroyed] := by
  obtain ⟨s, l, h, hf⟩ := prog.exists_of_history events Test.all
    [⟨0, .register⟩, ⟨1, .register⟩, ⟨0, .go⟩, ⟨1, .go⟩, ⟨0, .register⟩, ⟨0, .go⟩, ⟨0, .invoke "0" true⟩,
      ⟨1, .remove "1"⟩, ⟨0, .go⟩, ⟨1, .remove "1"⟩, ⟨1, .destroy⟩]
    (fun s l => (s.mem.destroyed, s.mem.issued, l))
    (true, 3, [.registered 0 "0", .registered 1 "1", .registered 2 "2", .answered "0" true, .settled 0 .invoked,
      .answered "1" true, .settled 1 .removed, .answered "1" false, .settled 2 .destroyed]) rfl
  simp only [Prod.mk.injEq] at hf
  obtain ⟨hd, hissued, hl⟩ := hf
  exact ⟨s, l, settled_once h (by rw [hissued]; decide), hd, hl⟩

end SignalRClient.CallbackManager
