import Mathlib

/-!
# Tokens that have one holder

`f h = some k` says that the holder `h` has the token `k`.  A token may be handed on, dropped and made anew;
it never gets a second holder.
-/

namespace SignalRClient.Threads

variable {H K V : Type*} [DecidableEq H]

/-- No token has two holders. -/
def Unique (f : H → Option K) : Prop := ∀ h h' k, f h = some k → f h' = some k → h = h'

/-- What `a` has goes on to `b`, as `v`, or is dropped. -/
def hand (f : H → Option V) (a b : H) (v : Option V) : H → Option V :=
  Function.update (Function.update f a none) b v

section

variable {f : H → Option V} {a b h : H} {v : Option V}

@[simp] theorem hand_to : hand f a b v b = v := Function.update_self ..

theorem hand_of_ne (hb : h ≠ b) : hand f a b v h = if h = a then none else f h := by
  rw [hand, Function.update_of_ne hb]
  by_cases ha : h = a
  · rw [if_pos ha, ha, Function.update_self]
  · rw [if_neg ha, Function.update_of_ne ha]

theorem hand_self : hand f a a v = Function.update f a v := Function.update_idem ..

/-- Who has something after that had it before, or has got it. -/
theorem of_hand {k : V} (hk : hand f a b v h = some k) : (h = b ∧ v = some k) ∨ (h ≠ b ∧ h ≠ a ∧ f h = some k) := by
  by_cases hb : h = b
  · subst hb
    exact .inl ⟨rfl, by simpa using hk⟩
  · rw [hand_of_ne hb] at hk
    split at hk
    · cases hk
    · rename_i ha
      exact .inr ⟨hb, ha, hk⟩

/-- Who had something before has it still, unless it was `a`, or has it taken. -/
theorem hand_of_some {k : V} (ha : h ≠ a) (hb : f b = none ∨ b = a) (hk : f h = some k) :
    hand f a b v h = some k := by
  have hne : h ≠ b := by
    rintro rfl
    rcases hb with hb | hb
    · rw [hb] at hk
      cases hk
    · exact ha hb
  rw [hand_of_ne hne, if_neg ha]
  exact hk

end

section

variable {f : H → Option V} {key : V → K}

theorem Unique.hand {a b : H} {v : Option V} {x : V} (hu : Unique fun h => (f h).map key) (ha : f a = some x)
    (hv : ∀ y, v = some y → key y = key x) : Unique fun h => (hand f a b v h).map key := by
  have hkey : ∀ h y, h ≠ a → f h = some y → key y ≠ key x := by
    intro h y hne hy he
    exact hne (hu h a (key x) (by simp [hy, he]) (by simp [ha]))
  intro h h' k hk hk'
  obtain ⟨y, hy, rfl⟩ := Option.map_eq_some_iff.mp hk
  obtain ⟨y', hy', he⟩ := Option.map_eq_some_iff.mp hk'
  rcases of_hand hy with ⟨rfl, e⟩ | ⟨-, hna, e⟩
  · rcases of_hand hy' with ⟨rfl, -⟩ | ⟨-, hna', e'⟩
    · rfl
    · exact absurd (he.trans (hv y e)) (hkey h' y' hna' e')
  · rcases of_hand hy' with ⟨rfl, e'⟩ | ⟨-, -, e'⟩
    · exact absurd (he.symm.trans (hv y' e')) (hkey h y hna e)
    · exact hu h h' (key y) (by simp [e]) (by simp [e', he])

/-- A new token. -/
theorem Unique.give {b : H} {x : V} (hu : Unique fun h => (f h).map key)
    (hnew : ∀ h y, f h = some y → key y ≠ key x) :
    Unique fun h => (Function.update f b (some x) h).map key := by
  intro h h' k hk hk'
  obtain ⟨y, hy, rfl⟩ := Option.map_eq_some_iff.mp hk
  obtain ⟨y', hy', he⟩ := Option.map_eq_some_iff.mp hk'
  rw [Function.update_apply] at hy hy'
  split at hy
  · rename_i hb
    cases hy
    split at hy'
    · rename_i hb'
      rw [hb, hb']
    · exact absurd he (hnew h' y' hy')
  · split at hy'
    · cases hy'
      exact absurd he.symm (hnew h y hy)
    · exact hu h h' (key y) (by simp [hy]) (by simp [hy', he])

end

/-! ## One token -/

/-- At most one has the token. -/
def Sole (f : H → Prop) : Prop := ∀ h h', f h → f h' → h = h'

omit [DecidableEq H] in
theorem Sole.mono {f f' : H → Prop} (hs : Sole f) (h : ∀ w, f' w → f w) : Sole f' :=
  fun w w' hw hw' => hs w w' (h w hw) (h w' hw')

omit [DecidableEq H] in
/-- The token is given to `r` by someone who has it no more. -/
theorem Sole.pass {f f' : H → Prop} (hs : Sole f) (r a : H) (hold : ∀ w, f' w → f w ∨ w = r) (ha : f a)
    (ha' : ¬ f' a) : Sole f' := by
  -- whoever had the token before was `a`
  have hgone : ∀ w, f' w → ¬ f w := fun w hw hfw => ha' (hs a w ha hfw ▸ hw)
  intro w w' hw hw'
  rw [(hold w hw).resolve_left (hgone w hw), (hold w' hw').resolve_left (hgone w' hw')]

end SignalRClient.Threads
