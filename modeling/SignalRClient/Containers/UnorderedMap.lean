import Mathlib

/-!
# Unordered maps

`UnorderedMap` is a hash map with a hash function and a key equality of its own.  A key is only ever looked for
in the bucket of its hash, so that the map finds what was inserted under an equal key exactly when the two agree
(`Keys.Lawful`).  Its fields say where an entry stands and that no two keys of a bucket are equal.

* `find?_eq_some_iff` — what is found is an entry under an equal key;
* `find?_insert_iff` — a map finds what has been inserted into it;
* `entry_unique` — there is one entry for every class of equal keys.
-/

namespace SignalRClient.Containers

variable {K V : Type*}

/-- A hash function and a key equality. -/
structure Keys (K : Type*) where
  hash : K → UInt64
  eq : K → K → Bool

/-- The key equality is an equivalence, and equal keys have equal hashes. -/
structure Keys.Lawful (k : Keys K) : Prop where
  refl : ∀ a, k.eq a a = true
  symm : ∀ {a b}, k.eq a b = true → k.eq b a = true
  trans : ∀ {a b c}, k.eq a b = true → k.eq b c = true → k.eq a c = true
  hash_eq : ∀ {a b}, k.eq a b = true → k.hash a = k.hash b

structure UnorderedMap (k : Keys K) (V : Type*) where
  buckets : UInt64 → List (K × V)
  placed : ∀ h, ∀ e ∈ buckets h, k.hash e.1 = h
  distinct : ∀ h, (buckets h).Pairwise fun e e' => k.eq e.1 e'.1 = false

namespace UnorderedMap

variable {k : Keys K}

def empty : UnorderedMap k V := ⟨fun _ => [], fun _ _ h => absurd h List.not_mem_nil, fun _ => .nil⟩

/-- `find(a)`, with the value that the iterator points to -/
def find? (m : UnorderedMap k V) (a : K) : Option V :=
  ((m.buckets (k.hash a)).find? fun e => k.eq a e.1).map (·.2)

/-- No entry of the bucket of `a` has an equal key. -/
theorem find?_eq_none_iff {m : UnorderedMap k V} {a : K} :
    m.find? a = none ↔ ∀ e ∈ m.buckets (k.hash a), k.eq a e.1 = false := by
  simp [find?, List.find?_eq_none]

/-- `insert({a, v})`: nothing is done when `a` is found. -/
def insert (m : UnorderedMap k V) (a : K) (v : V) : UnorderedMap k V :=
  match h : m.find? a with
  | some _ => m
  | none =>
    { buckets := Function.update m.buckets (k.hash a) ((a, v) :: m.buckets (k.hash a))
      placed := by
        intro i e he
        by_cases hi : i = k.hash a
        · subst hi
          rw [Function.update_self, List.mem_cons] at he
          rcases he with rfl | he
          · rfl
          · exact m.placed _ e he
        · rw [Function.update_of_ne hi] at he
          exact m.placed i e he
      distinct := by
        intro i
        by_cases hi : i = k.hash a
        · subst hi
          rw [Function.update_self, List.pairwise_cons]
          exact ⟨find?_eq_none_iff.mp h, m.distinct _⟩
        · rw [Function.update_of_ne hi]
          exact m.distinct i }

/-- `(a, v)` is an entry. -/
def Has (m : UnorderedMap k V) (a : K) (v : V) : Prop := (a, v) ∈ m.buckets (k.hash a)

@[simp] theorem find?_empty (a : K) : (empty : UnorderedMap k V).find? a = none := rfl

theorem insert_of_some {m : UnorderedMap k V} {a : K} {v w : V} (h : m.find? a = some w) : m.insert a v = m := by
  unfold insert
  split
  · rfl
  · rename_i hn
    rw [hn] at h
    cases h

theorem buckets_insert {m : UnorderedMap k V} {a : K} {v : V} (h : m.find? a = none) :
    (m.insert a v).buckets = Function.update m.buckets (k.hash a) ((a, v) :: m.buckets (k.hash a)) := by
  unfold insert
  split
  · rename_i hn
    rw [hn] at h
    cases h
  · rfl

theorem has_insert {m : UnorderedMap k V} {a b : K} {v w : V} (h : m.find? a = none) :
    (m.insert a v).Has b w ↔ (b = a ∧ w = v) ∨ m.Has b w := by
  rw [Has, Has, buckets_insert h]
  by_cases hb : k.hash b = k.hash a
  · rw [hb, Function.update_self, List.mem_cons, Prod.mk.injEq]
  · rw [Function.update_of_ne hb]
    refine ⟨.inr, ?_⟩
    rintro (⟨rfl, rfl⟩ | hm)
    · exact absurd rfl hb
    · exact hm

/-- An insertion leaves what is there. -/
theorem find?_none_of_insert {m : UnorderedMap k V} {a b : K} {v : V} (h : (m.insert a v).find? b = none) :
    m.find? b = none := by
  cases ha : m.find? a with
  | some w => rwa [insert_of_some ha] at h
  | none =>
    rw [find?_eq_none_iff, buckets_insert ha] at h
    refine find?_eq_none_iff.mpr fun e he => h e ?_
    by_cases hb : k.hash b = k.hash a
    · rw [hb, Function.update_self]
      exact List.mem_cons_of_mem _ (hb ▸ he)
    · rwa [Function.update_of_ne hb]

section

variable (hk : k.Lawful)
include hk

/-- There is one entry of a bucket for equal keys. -/
theorem eq_of_mem_bucket {m : UnorderedMap k V} {h : UInt64} {e e' : K × V} (he : e ∈ m.buckets h)
    (he' : e' ∈ m.buckets h) (heq : k.eq e.1 e'.1 = true) : e = e' := by
  by_contra hne
  have hsymm : Std.Symm fun x y : K × V => k.eq x.1 y.1 = false := by
    refine ⟨fun x y hxy => ?_⟩
    rw [Bool.eq_false_iff] at hxy ⊢
    exact fun h => hxy (hk.symm h)
  rw [(m.distinct h).forall he he' hne] at heq
  cases heq

theorem find?_eq_some_iff {m : UnorderedMap k V} {b : K} {v : V} :
    m.find? b = some v ↔ ∃ a, m.Has a v ∧ k.eq a b = true := by
  constructor
  · intro h
    obtain ⟨⟨a, w⟩, he, rfl⟩ := Option.map_eq_some_iff.mp h
    have heq : k.eq b a = true := by simpa using List.find?_some he
    refine ⟨a, ?_, hk.symm heq⟩
    rw [Has, ← hk.hash_eq heq]
    exact List.mem_of_find?_eq_some he
  · rintro ⟨a, ha, heq⟩
    rw [Has, hk.hash_eq heq] at ha
    cases hf : (m.buckets (k.hash b)).find? fun e => k.eq b e.1 with
    | none =>
      have := List.find?_eq_none.mp hf _ ha
      exact absurd (hk.symm heq) this
    | some e =>
      have hmem := List.mem_of_find?_eq_some hf
      have he : k.eq b e.1 = true := by simpa using List.find?_some hf
      have hsame : e = (a, v) := eq_of_mem_bucket hk hmem ha (hk.trans (hk.symm he) (hk.symm heq))
      rw [find?, hf, hsame]
      rfl

theorem entry_unique {m : UnorderedMap k V} {a b : K} {v w : V} (ha : m.Has a v) (hb : m.Has b w)
    (h : k.eq a b = true) : a = b ∧ v = w := by
  rw [Has, hk.hash_eq h] at ha
  exact Prod.mk.inj (eq_of_mem_bucket hk ha hb h)

/-- **Lookup after an insertion**, in terms of what has been inserted so far. -/
theorem find?_insert_iff {m : UnorderedMap k V} {S : K → V → Prop}
    (h : ∀ b w, m.find? b = some w ↔ ∃ a, S a w ∧ k.eq a b = true) {a : K} {v : V} (hn : m.find? a = none) (b : K)
    (w : V) :
    (m.insert a v).find? b = some w ↔ ∃ c, (S c w ∨ c = a ∧ w = v) ∧ k.eq c b = true := by
  have hold : (∃ c, m.Has c w ∧ k.eq c b = true) ↔ ∃ c, S c w ∧ k.eq c b = true :=
    (find?_eq_some_iff hk).symm.trans (h b w)
  rw [find?_eq_some_iff hk]
  constructor
  · rintro ⟨c, hc, heq⟩
    rcases (has_insert hn).mp hc with hc | hc
    · exact ⟨c, .inr hc, heq⟩
    · obtain ⟨d, hd, heq'⟩ := hold.mp ⟨c, hc, heq⟩
      exact ⟨d, .inl hd, heq'⟩
  · rintro ⟨c, hc | hc, heq⟩
    · obtain ⟨d, hd, heq'⟩ := hold.mpr ⟨c, hc, heq⟩
      exact ⟨d, (has_insert hn).mpr (.inr hd), heq'⟩
    · exact ⟨c, (has_insert hn).mpr (.inl hc), heq⟩

end

end UnorderedMap

end SignalRClient.Containers
