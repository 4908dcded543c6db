import Mathlib

/-!
# `callback_manager`

The callbacks wait in a map under ids that `get_callback_id` takes from a 32-bit counter.  Each
operation below is one atomic access to the counter or one critical section of `m_map_lock`; a callback
itself is called by whoever has taken it out.
-/

namespace SignalRClient

/-- The members of a `callback_manager` with callbacks of type `C`. -/
structure CallbackManager (C : Type) where
  id : BitVec 32 := 0                                  -- m_id
  callbacks : AList fun _ : String => C := ∅           -- m_callbacks
  mapLock : Option ℕ := none                           -- the thread that holds m_map_lock

namespace CallbackManager

variable {C : Type}

/-- The id that is made of a value of the counter. -/
def idText (i : BitVec 32) : String := toString i.toInt

/-- `m_id++` and the id made of the old value. -/
def getCallbackId (s : CallbackManager C) : String × CallbackManager C := (idText s.id, { s with id := s.id + 1 })

/-- `m_callbacks.insert(...)`: an entry that is there already stays. -/
def insert (s : CallbackManager C) (id : String) (callback : C) : CallbackManager C :=
  if id ∈ s.callbacks then s else { s with callbacks := s.callbacks.insert id callback }

def find (s : CallbackManager C) (id : String) : Option C := s.callbacks.lookup id

def erase (s : CallbackManager C) (id : String) : CallbackManager C :=
  { s with callbacks := s.callbacks.erase id }

def lock (s : CallbackManager C) (t : ℕ) : CallbackManager C := { s with mapLock := some t }

/-- `m_callbacks.clear()` at the end of the critical section of `clear`. -/
def clear (s : CallbackManager C) : CallbackManager C := { s with callbacks := ∅, mapLock := none }

/-! ## What the operations do -/

theorem idText_inj {i j : BitVec 32} (h : idText i = idText j) : i = j := by
  refine BitVec.toInt_inj.mp (Int.repr_inj.mp ?_)
  exact h

/-- The ids of fewer than 2 ^ 32 values of the counter are different. -/
theorem idText_ofNat_inj {a b : ℕ} (ha : a < 2 ^ 32) (hb : b < 2 ^ 32)
    (h : idText (BitVec.ofNat 32 a) = idText (BitVec.ofNat 32 b)) : a = b := by
  have he := congrArg BitVec.toNat (idText_inj h)
  rw [BitVec.toNat_ofNat, BitVec.toNat_ofNat, Nat.mod_eq_of_lt ha, Nat.mod_eq_of_lt hb] at he
  exact he

section

variable (s : CallbackManager C) (id k : String) (c : C)

@[simp] theorem insert_id : (s.insert id c).id = s.id := by
  unfold insert
  split <;> rfl

theorem mem_callbacks : id ∈ s.callbacks ↔ s.find id ≠ none := by
  rw [find, ← AList.lookup_isSome]
  exact Option.isSome_iff_ne_none

/-- Only the own id is bound, and only when it was free. -/
theorem insert_find : (s.insert id c).find k = if k = id ∧ s.find id = none then some c else s.find k := by
  unfold insert
  by_cases h : s.find id = none
  · rw [if_neg (by rw [mem_callbacks]; exact not_not.mpr h)]
    by_cases hk : k = id
    · subst hk
      rw [if_pos ⟨rfl, h⟩]
      exact AList.lookup_insert _
    · simp [find, hk, AList.lookup_insert_ne]
  · rw [if_pos ((mem_callbacks s id).mpr h)]
    simp [h]

theorem insert_find_of_some {s : CallbackManager C} {k id : String} {c d : C} (h : s.find k = some c) :
    (s.insert id d).find k = some c := by
  rw [insert_find, if_neg, h]
  rintro ⟨rfl, hnone⟩
  rw [h] at hnone
  cases hnone

theorem erase_find : (s.erase id).find k = if k = id then none else s.find k := by
  by_cases hk : k = id
  · subst hk
    simp [find, erase, AList.lookup_erase]
  · simp [find, erase, hk, AList.lookup_erase_ne]

theorem mem_entries {e : Sigma fun _ : String => C} : e ∈ s.callbacks.entries ↔ s.find e.1 = some e.2 :=
  AList.mem_lookup_iff.symm

end

end CallbackManager

end SignalRClient
