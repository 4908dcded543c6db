import SignalRClient.Transport.Loop

/-!
# The end of a receive loop is reported

A loop has one holder from the `connect()` that begins it to its end (`Course`), so it ends once.  It ends
without a call of the error callback when

* `disconnect()` has cancelled its token source, or the transport is gone;
* its receive task or its value continuation has ended with a `task_canceled` of its own, which the task
  continuation takes for the effect of a cancellation;
* `close()` has thrown as the error was about to be reported.

`loop_end_reported`: in every other case the error callback is called, once, and no message is processed
after that.
-/

namespace SignalRClient.Transport

open Threads

variable {R : Type}

/-! ## The course of a loop -/

/-- What has been seen of loop `k` when it is at stage `x`. -/
def Told (m : Mem) (l : List (Event R)) (k : ℕ) : Stage → Prop
  | .starting => .started k ∉ l ∧ (m.cancelled k = true → .disconnected k ∈ l)
  | .looping => m.cancelled k = true → .disconnected k ∈ l
  | .silent => .canceled k ∈ l ∨ .disconnected k ∈ l
  | .failing => True

/-- A loop that has begun and is over: how it has ended. -/
def Over (l : List (Event R)) (k : ℕ) : Prop :=
  .error k ∈ l ∨ .canceled k ∈ l ∨ .closeThrew k ∈ l ∨ .disconnected k ∈ l ∨ .destroyed ∈ l

structure Course (m : Mem) (H : Holder → Option (ℕ × Stage)) (l : List (Event R)) : Prop where
  unique : Unique fun h => (H h).map Prod.fst
  bound : ∀ h k x, H h = some (k, x) → k ≤ m.connects
  seen : ∀ k, .started k ∈ l ∨ .error k ∈ l → k ≤ m.connects
  cancelled : ∀ k, m.cancelled k = true → k ≤ m.connects ∨ .disconnected k ∈ l
  unreported : ∀ h k x, H h = some (k, x) → .error k ∉ l
  told : ∀ h k x, H h = some (k, x) → Told m l k x
  ended : ∀ k, .started k ∈ l → (∀ h x, H h ≠ some (k, x)) → Over l k

section

variable {m m' : Mem} {H H' : Holder → Option (ℕ × Stage)} {l l' : List (Event R)} {k : ℕ} {x : Stage}

theorem Told.mono (h : Told m l k x) (hl : l ⊆ l') (hs : .started k ∈ l' → .started k ∈ l)
    (hc : m'.cancelled k = true → m.cancelled k = true ∨ .disconnected k ∈ l') : Told m' l' k x := by
  have hcan : (m.cancelled k = true → .disconnected k ∈ l) → m'.cancelled k = true → .disconnected k ∈ l' := by
    intro h h'
    rcases hc h' with hm | hd
    · exact hl (h hm)
    · exact hd
  cases x with
  | starting => exact ⟨fun h' => h.1 (hs h'), hcan h.2⟩
  | looping => exact hcan h
  | silent =>
    rcases h with h | h
    · exact .inl (hl h)
    · exact .inr (hl h)
  | failing => trivial

theorem Over.mono (h : Over l k) (hl : l ⊆ l') : Over l' k := by
  rcases h with h | h | h | h | h
  · exact .inl (hl h)
  · exact .inr (.inl (hl h))
  · exact .inr (.inr (.inl (hl h)))
  · exact .inr (.inr (.inr (.inl (hl h))))
  · exact .inr (.inr (.inr (.inr (hl h))))

/-- What a move leaves behind has been seen to be so. -/
theorem Move.told {y : Stage} {c : Bool} {e : Option (Event R)} (h : Move m m' k x (some y) c e)
    (ht : Told m l k x) (hl : l ⊆ l') (hs : .started k ∈ l' → .started k ∈ l ∨ e = some (.started k))
    (he : ∀ z, e = some z → z ∈ l') (hc : m'.cancelled k = true → m.cancelled k = true ∨ c = true) :
    Told m' l' k y := by
  cases h with
  | stay =>
    refine ht.mono hl (fun h => ?_) fun h => ?_
    · rcases hs h with h | h
      · exact h
      · cases h
    · rcases hc h with h | h
      · exact .inl h
      · cases h
  | cancel => trivial
  | start =>
    intro h
    rcases hc h with h | h
    · exact hl (ht.2 h)
    · cases h
  | skip hcan => exact .inr (hl (ht hcan))
  | canceled => exact .inl (he _ rfl)
  | fail => trivial

/-- … and a loop that begins or ends without being handed on is over in one of the ways. -/
theorem Move.ended {c : Bool} {e : Option (Event R)} (h : Move m m' k x none c e) (ht : Told m l k x)
    (hgone : m.refs = 0 → .destroyed ∈ l) (hl : l ⊆ l') (he : ∀ z, e = some z → z ∈ l')
    (hs : .started k ∈ l) : Over l' k := by
  cases h with
  | refuse => exact absurd hs ht.1
  | stop h =>
    rcases h with h | h
    · exact .inr (.inr (.inr (.inl (hl (ht h)))))
    · exact .inr (.inr (.inr (.inr (hl (hgone h)))))
  | quiet =>
    rcases ht with h | h
    · exact .inr (.inl (hl h))
    · exact .inr (.inr (.inr (.inl (hl h))))
  | closeThrew => exact .inr (.inr (.inl (he _ rfl)))
  | gone h => exact .inr (.inr (.inr (.inr (hl (hgone h)))))
  | error => exact .inl (he _ rfl)

/-- The events of a move that speak of the end of a loop speak of its own. -/
theorem Move.own {y : Option Stage} {c : Bool} {e : Event R} {j : ℕ} (h : Move m m' k x y c (some e)) :
    (e = .started j → j = k ∧ x = .starting ∧ y = some .looping) ∧ (e = .error j → j = k ∧ x = .failing ∧ y = none) := by
  cases h with
  | start => exact ⟨fun h => (by cases h; exact ⟨rfl, rfl, rfl⟩), fun h => (by cases h)⟩
  | error => exact ⟨fun h => (by cases h), fun h => (by cases h; exact ⟨rfl, rfl, rfl⟩)⟩
  | canceled | closeThrew => exact ⟨fun h => (by cases h), fun h => (by cases h)⟩

/-- A step in which no loop is handed on. -/
theorem Course.keep {o : List (Event R)} (h : Course m H l) (hq : ∀ e ∈ o, e.quiet = true)
    (hn : m'.connects = m.connects)
    (hc : m'.cancelled = m.cancelled ∨
      (.disconnected m.receiveLoopCts ∈ o ∧ m'.cancelled = (m.cancel m.receiveLoopCts).cancelled)) :
    Course m' H (l ++ o) := by
  have hs : ∀ k, .started k ∈ l ++ o → .started k ∈ l := fun k hk =>
    (List.mem_append.mp hk).resolve_right fun hk => absurd (hq _ hk) (by simp [Event.quiet])
  have he : ∀ k, .error k ∈ l ++ o → .error k ∈ l := fun k hk =>
    (List.mem_append.mp hk).resolve_right fun hk => absurd (hq _ hk) (by simp [Event.quiet])
  have hcan : ∀ k, m'.cancelled k = true → m.cancelled k = true ∨ .disconnected k ∈ l ++ o := by
    intro k hk
    rcases hc with hc | ⟨hd, hc⟩
    · exact .inl (by rw [← hc]; exact hk)
    · rw [hc] at hk
      by_cases hkc : k = m.receiveLoopCts
      · exact .inr (List.mem_append_right _ (by rw [hkc]; exact hd))
      · exact .inl (by simpa [Mem.cancel, hkc] using hk)
  refine ⟨h.unique, fun w k x hw => by rw [hn]; exact h.bound w k x hw, fun k hk => ?_, fun k hk => ?_,
    fun w k x hw hk => h.unreported w k x hw (he k hk),
    fun w k x hw => (h.told w k x hw).mono (List.subset_append_left _ _) (hs k) (hcan k),
    fun k hk hw => (h.ended k (hs k hk) hw).mono (List.subset_append_left _ _)⟩
  · rw [hn]
    rcases hk with hk | hk
    · exact h.seen k (.inl (hs k hk))
    · exact h.seen k (.inr (he k hk))
  · rcases hcan k hk with hk | hk
    · rw [hn]
      exact (h.cancelled k hk).imp id (List.mem_append_left _)
    · exact .inr hk

/-- A client is made. -/
theorem Course.give {t : ℕ} (h : Course m H l) (hfree : H (.call t) = none) (hn : m'.connects = m.connects + 1)
    (hc : m'.cancelled = m.cancelled) :
    Course m' (Function.update H (.call t) (some (m.connects + 1, .starting))) l := by
  have hnew : ∀ {w k x}, Function.update H (.call t) (some (m.connects + 1, Stage.starting)) w = some (k, x) →
      (k = m.connects + 1 ∧ x = .starting) ∨ H w = some (k, x) := by
    intro w k x hw
    rw [Function.update_apply] at hw
    split at hw
    · cases hw; exact .inl ⟨rfl, rfl⟩
    · exact .inr hw
  have hfresh : ∀ k, .started k ∈ l ∨ .error k ∈ l → k ≠ m.connects + 1 := fun k hk => by
    have := h.seen k hk
    omega
  refine ⟨h.unique.give fun w y hw => ?_, fun w k x hw => ?_, fun k hk => ?_, fun k hk => ?_, fun w k x hw hk => ?_,
    fun w k x hw => ?_, fun k hk hw => ?_⟩
  · have := h.bound w y.1 y.2 hw
    show y.1 ≠ m.connects + 1
    omega
  · rw [hn]
    rcases hnew hw with ⟨rfl, -⟩ | hw
    · exact le_rfl
    · exact (h.bound w k x hw).trans (by omega)
  · have := h.seen k hk
    omega
  · rw [hc] at hk
    rcases h.cancelled k hk with hk | hk
    · exact .inl (by omega)
    · exact .inr hk
  · rcases hnew hw with ⟨rfl, -⟩ | hw
    · exact hfresh _ (.inr hk) rfl
    · exact h.unreported w k x hw hk
  · rcases hnew hw with ⟨rfl, rfl⟩ | hw
    · refine ⟨fun hk => hfresh _ (.inl hk) rfl, fun hk => ?_⟩
      rw [hc] at hk
      exact (h.cancelled _ hk).resolve_left (by omega)
    · exact (h.told w k x hw).mono (List.Subset.refl l) id fun hk => .inl (by rw [← hc]; exact hk)
  · refine h.ended k hk fun w x hx => ?_
    by_cases hwt : w = .call t
    · subst hwt
      rw [hfree] at hx
      cases hx
    · exact hw w x (by rw [Function.update_of_ne hwt]; exact hx)

/-- A loop is handed on, or ends. -/
theorem Course.move {a b : Holder} {k : ℕ} {x : Stage} {y : Option Stage} {c : Bool} {e : Option (Event R)}
    {o : List (Event R)} (h : Course m H l) (hgone : m.refs = 0 → .destroyed ∈ l) (ha : H a = some (k, x))
    (hb : H b = none ∨ b = a) (hmove : Move m m' k x y c e) (hq : ∀ z ∈ o, z.quiet = true ∨ e = some z)
    (he : ∀ z, e = some z → z ∈ o) (hn : m'.connects = m.connects)
    (hc : m'.cancelled = (if c then (m.cancel k).cancelled else m.cancelled)) :
    Course m' (hand H a b (y.map fun y => (k, y))) (l ++ o) := by
  have hsub : l ⊆ l ++ o := List.subset_append_left _ _
  have he' : ∀ z, e = some z → z ∈ l ++ o := fun z hz => List.mem_append_right _ (he z hz)
  have hs : ∀ j, .started j ∈ l ++ o → .started j ∈ l ∨ e = some (.started j) := fun j hj =>
    (List.mem_append.mp hj).imp id fun hj => (hq _ hj).resolve_left (by simp [Event.quiet])
  have herr : ∀ j, .error j ∈ l ++ o → .error j ∈ l ∨ e = some (.error j) := fun j hj =>
    (List.mem_append.mp hj).imp id fun hj => (hq _ hj).resolve_left (by simp [Event.quiet])
  have hk : k ≤ m.connects := h.bound a k x ha
  have hcan : ∀ j, m'.cancelled j = true → m.cancelled j = true ∨ (c = true ∧ j = k) := by
    intro j hj
    rw [hc] at hj
    cases c with
    | false => exact .inl hj
    | true =>
      by_cases hjk : j = k
      · exact .inr ⟨rfl, hjk⟩
      · exact .inl (by simpa [Mem.cancel, hjk] using hj)
  -- the loops of the other holders
  have hother : ∀ {w j z}, w ≠ a → H w = some (j, z) → j ≠ k := fun {w j z} hw hj hjk =>
    hw (h.unique w a k (by simp [hj, hjk]) (by simp [ha]))
  have hstart : ∀ j, e = some (.started j) → j = k ∧ x = .starting ∧ y = some .looping := by
    intro j hj
    subst hj
    exact hmove.own.1 rfl
  have hend : ∀ j, e = some (.error j) → j = k ∧ x = .failing ∧ y = none := by
    intro j hj
    subst hj
    exact hmove.own.2 rfl
  have hof : ∀ {w j z}, hand H a b (y.map fun y => (k, y)) w = some (j, z) →
      (j = k ∧ y = some z) ∨ (j ≠ k ∧ H w = some (j, z)) := by
    intro w j z hw
    rcases of_hand hw with ⟨-, hy⟩ | ⟨-, hwa, hw⟩
    · obtain ⟨y', hy', e'⟩ := Option.map_eq_some_iff.mp hy
      cases e'
      exact .inl ⟨rfl, hy'⟩
    · exact .inr ⟨hother hwa hw, hw⟩
  refine ⟨h.unique.hand ha fun v hv => ?_, fun w j z hw => ?_, fun j hj => ?_, fun j hj => ?_, fun w j z hw hj => ?_,
    fun w j z hw => ?_, fun j hj hw => ?_⟩
  · obtain ⟨y', -, e'⟩ := Option.map_eq_some_iff.mp hv
    rw [← e']
  · rw [hn]
    rcases hof hw with ⟨rfl, -⟩ | ⟨-, hw⟩
    · exact hk
    · exact h.bound w j z hw
  · rw [hn]
    rcases hj with hj | hj
    · rcases hs j hj with hj | hj
      · exact h.seen j (.inl hj)
      · rw [(hstart j hj).1]; exact hk
    · rcases herr j hj with hj | hj
      · exact h.seen j (.inr hj)
      · rw [(hend j hj).1]; exact hk
  · rw [hn]
    rcases hcan j hj with hj | ⟨-, rfl⟩
    · exact (h.cancelled j hj).imp id fun hj => hsub hj
    · exact .inl hk
  · rcases hof hw with ⟨rfl, hy⟩ | ⟨hjk, hw⟩
    · rcases herr j hj with hj | hj
      · exact h.unreported a j x ha hj
      · rw [(hend j hj).2.2] at hy
        cases hy
    · rcases herr j hj with hj | hj
      · exact h.unreported w j z hw hj
      · exact hjk (hend j hj).1
  · rcases hof hw with ⟨rfl, rfl⟩ | ⟨hjk, hw⟩
    · exact hmove.told (h.told a j x ha) hsub (hs j) he' fun hj => (hcan j hj).imp id And.left
    · refine (h.told w j z hw).mono hsub (fun hj => (hs j hj).resolve_right fun hj => hjk (hstart j hj).1) fun hj => ?_
      exact (hcan j hj).imp id fun hj => absurd hj.2 hjk
  · by_cases hjk : j = k
    · subst hjk
      cases y with
      | some y =>
        have hbk := hw b y
        rw [hand_to] at hbk
        exact absurd rfl hbk
      | none =>
        have hsj : .started j ∈ l := (hs j hj).resolve_right fun hj => by cases (hstart j hj).2.2
        exact hmove.ended (h.told a j x ha) hgone hsub he' hsj
    · have hsj : .started j ∈ l := (hs j hj).resolve_right fun hj => hjk (hstart j hj).1
      refine (h.ended j hsj fun w z hz => ?_).mono hsub
      have hwa : w ≠ a := by
        rintro rfl
        rw [ha] at hz
        cases hz
        exact hjk rfl
      exact hw w z (hand_of_some hwa hb hz)

theorem Course.step {o : List (Event R)} (h : Course m H l) (hgone : m.refs = 0 → .destroyed ∈ l)
    (hh : Hands m m' H H' o) : Course m' H' (l ++ o) := by
  cases hh with
  | keep hH hq hn hc => rw [hH]; exact h.keep hq hn hc
  | give t hH hfree ho hn hc => rw [hH, ho, List.append_nil]; exact h.give hfree hn hc
  | move a b k x y c e ha hb hH hmove hq he hn hc => rw [hH]; exact h.move hgone ha hb hmove hq he hn hc

end

/-- In every run the loops take their course. -/
theorem course_holds {ok : State Mem (Pc R) → Act (Input R) → Prop} {s : State Mem (Pc R)} {l : List (Event R)}
    (h : prog.Trace ok events s l) :
    Course s.mem (held s.mem s.pc) l ∧ (s.mem.refs = 0 → .destroyed ∈ l) := by
  refine h.invariant (J := fun s l => Course s.mem (held s.mem s.pc) l ∧ (s.mem.refs = 0 → .destroyed ∈ l)) ?_ ?_
  · have hnone : held ({} : Mem) (fun _ => ({} : Pc R)) = fun _ => none := by
      funext w
      cases w <;> rfl
    refine ⟨?_, fun h0 => by cases h0⟩
    show Course ({} : Mem) (held ({} : Mem) (fun _ => ({} : Pc R))) []
    rw [hnone]
    refine ⟨fun _ _ _ h => (by cases h), fun _ _ _ h => (by cases h), fun k h => (by rcases h with h | h <;> cases h),
      fun k h => .inl ?_, fun _ _ _ h => (by cases h), fun _ _ _ h => (by cases h), fun _ h => (by cases h)⟩
    have h0 : k = 0 := by simpa using h
    exact h0.le
  · intro s a l m p hr _ hJ hn
    obtain ⟨hcourse, hgone⟩ := hJ
    refine ⟨hcourse.step hgone (next_hands (bounded_holds hr.reach) hcourse.unique hn), fun h0 => ?_⟩
    by_cases hm : s.mem.refs = 0
    · exact List.mem_append_left _ (hgone hm)
    · refine List.mem_append_right _ (List.mem_append_right _ ?_)
      rw [if_pos ⟨hm, h0⟩]
      exact List.mem_singleton.mpr rfl

/-! ## The steps that report and process -/

/-- The loop that an error is reported for, or a response is processed for. -/
def Event.report? : Event R → Option ℕ
  | .error k | .processed k _ => some k
  | _ => none

section

variable {t : ℕ} {m m' : Mem} {p p' : Pc R} {i : Input R} {k : ℕ} {e : Event R}

theorem frame_report {q : Frame R} {f : Option Fault} (h : e ∈ frameEvents q f) (hk : e.report? = some k) :
    frameEvents q f = [e] ∧ ∃ x, q.hold? = some (k, x) := by
  -- the other events are of another kind
  have hother : ∀ {c : Prop} [Decidable c] {z : Event R}, z.report? = none → e ∉ if c then [z] else [] := by
    intro c _ z hz he
    split at he
    · rw [List.mem_singleton.mp he, hz] at hk
      cases hk
    · cases he
  cases q with
  | idle => cases h
  | connected j q =>
    cases q with
    | receive client =>
      simp only [frameEvents] at h
      split at h
      · simp only [List.mem_cons, List.not_mem_nil, or_false] at h
        rcases h with rfl | rfl <;> cases hk
      · cases h
    | _ => cases h
  | message j response q =>
    cases q with
    | process =>
      simp only [frameEvents] at h ⊢
      split at h
      · rename_i hf
        obtain rfl := List.mem_singleton.mp h
        cases hk
        rw [if_pos hf]
        exact ⟨rfl, .looping, rfl⟩
      · exact absurd h (hother rfl)
    | processing => exact absurd h (hother rfl)
    | receive client =>
      simp only [frameEvents] at h
      split at h
      · rw [List.mem_singleton.mp h] at hk
        cases hk
      · exact absurd h (hother rfl)
    | _ => cases h
  | observe j q =>
    cases q with
    | error =>
      obtain rfl := List.mem_singleton.mp h
      cases hk
      exact ⟨rfl, .failing, rfl⟩
    | close =>
      simp only [frameEvents] at h
      split at h
      · cases h
      · rw [List.mem_singleton.mp h] at hk
        cases hk
    | _ => cases h

theorem step_report (h : e ∈ stepEvents m p i) (hk : e.report? = some k) :
    stepEvents m p i = [e] ∧ ∃ x, p.frame.hold? = some (k, x) := by
  obtain ⟨frame, call⟩ := p
  cases call with
  | some c =>
    have hs : stepEvents m ⟨frame, some c⟩ i = [] ∨ stepEvents m ⟨frame, some c⟩ i = [.disconnected m.receiveLoopCts] := by
      rcases c with p | ⟨d, p⟩
      · exact .inl rfl
      · cases p <;> first | exact .inl rfl | exact .inr rfl
    rcases hs with hs | hs
    · rw [hs] at h
      cases h
    · rw [hs, List.mem_singleton] at h
      rw [h] at hk
      cases hk
  | none =>
    cases i with
    | go f => exact frame_report h hk
    | received r o =>
      simp only [stepEvents] at h
      split at h
      · rw [List.mem_singleton.mp h] at hk
        cases hk
      · rw [List.mem_singleton.mp h] at hk
        cases hk
      · cases h
    | _ => cases h

/-- The step that reports an error of loop `k`, or processes a response of it, has the loop in hand. -/
theorem events_report {o₁ o₂ : List (Event R)} (h : events t m p i m' p' = o₁ ++ e :: o₂) (hk : e.report? = some k) :
    o₁ = [] ∧ ∃ x, p.frame.hold? = some (k, x) := by
  have hev : events t m p i m' p' = stepEvents m p i ++ destruction m m' := rfl
  have hd : ∀ {o}, e ∈ o → o ⊆ (destruction m m' : List (Event R)) → False := by
    intro o he ho
    have hd := ho he
    simp only [destruction] at hd
    split at hd
    · rw [List.mem_singleton.mp hd] at hk
      cases hk
    · cases hd
  have he : e ∈ stepEvents m p i := by
    have hmem : e ∈ stepEvents m p i ++ destruction m m' := by
      rw [← hev, h]
      exact List.mem_append_right _ List.mem_cons_self
    exact (List.mem_append.mp hmem).resolve_right fun he => hd he (List.Subset.refl _)
  obtain ⟨hs, hx⟩ := step_report he hk
  refine ⟨?_, hx⟩
  rw [hev, hs] at h
  cases o₁ with
  | nil => rfl
  | cons z o₁ =>
    have htail : destruction m m' = o₁ ++ e :: o₂ := (List.cons.inj h).2
    exact (hd (o := o₁ ++ e :: o₂) (List.mem_append_right _ List.mem_cons_self)
      (by rw [← htail]; exact List.Subset.refl _)).elim

end

/-! ## The end of a loop -/

/-- Loop `k` schedules receives: a receive task of it is pending, or a value continuation is at work. -/
def Scheduling (s : State Mem (Pc R)) (k : ℕ) : Prop :=
  (∃ r i, s.mem.receiving r = some i ∧ i.loop = k) ∨
  ∃ t i response p, (s.pc t).frame = .message i response p ∧ i.loop = k ∧ ∀ f, p ≠ .release f

/-- The error callback is being invoked for loop `k`: its task has failed and is not observed yet, or the task
continuation is on its way to the call. -/
def Reporting (s : State Mem (Pc R)) (k : ℕ) : Prop :=
  (∃ t i response f, (s.pc t).frame = .message i response (.release (some f)) ∧ i.loop = k ∧ f ≠ .canceled) ∨
  (∃ e i f, s.mem.ended e = some (i, some f) ∧ i.loop = k ∧ f ≠ .canceled) ∨
  ∃ t i p, (s.pc t).frame = .observe i p ∧ i.loop = k ∧ p ≠ .quiet ∧ p ≠ .erroring

theorem stage_failing {f : Fault} : f.stage = .failing ↔ f ≠ .canceled := by
  cases f <;> decide

section

variable {s : State Mem (Pc R)} {h : Holder} {k : ℕ}

theorem scheduling_of_held (hh : held s.mem s.pc h = some (k, .looping)) : Scheduling s k := by
  rcases h with j | r | e | t | t
  · simp only [held, inMem] at hh
    split at hh <;> cases hh
  · obtain ⟨i, hi, e⟩ := Option.map_eq_some_iff.mp (show (s.mem.receiving r).map _ = some _ from hh)
    cases e
    exact .inl ⟨r, i, hi, rfl⟩
  · obtain ⟨x, -, hx⟩ := Option.bind_eq_some_iff.mp (show (s.mem.ended e).bind _ = some _ from hh)
    obtain ⟨f, -, e⟩ := Option.map_eq_some_iff.mp hx
    cases f <;> cases e
  · have hh : (s.pc t).frame.hold? = some (k, .looping) := hh
    cases hf : (s.pc t).frame with
    | idle => rw [hf] at hh; cases hh
    | connected j p => rw [hf] at hh; cases p <;> cases hh
    | observe i p => rw [hf] at hh; cases p <;> cases hh
    | message i response p =>
      rw [hf] at hh
      refine .inr ⟨t, i, response, p, hf, ?_, fun f hp => ?_⟩
      · cases p with
        | release f =>
          obtain ⟨g, -, e⟩ := Option.map_eq_some_iff.mp hh
          exact (Prod.mk.inj e).1
        | _ => cases hh; rfl
      · subst hp
        obtain ⟨g, -, e⟩ := Option.map_eq_some_iff.mp hh
        cases g <;> cases e
  · obtain ⟨c, -, hc⟩ := Option.bind_eq_some_iff.mp (show (s.pc t).call.bind _ = some _ from hh)
    rcases c with p | ⟨d, p⟩
    · cases p <;> cases hc
    · cases hc

theorem reporting_of_held (hh : held s.mem s.pc h = some (k, .failing)) : Reporting s k := by
  rcases h with j | r | e | t | t
  · simp only [held, inMem] at hh
    split at hh <;> cases hh
  · obtain ⟨i, -, e⟩ := Option.map_eq_some_iff.mp (show (s.mem.receiving r).map _ = some _ from hh)
    cases e
  · obtain ⟨⟨i, f⟩, hi, hx⟩ := Option.bind_eq_some_iff.mp (show (s.mem.ended e).bind _ = some _ from hh)
    obtain ⟨f', hf, e'⟩ := Option.map_eq_some_iff.mp hx
    obtain rfl : f = some f' := hf
    simp only [Prod.mk.injEq] at e'
    exact .inr (.inl ⟨e, i, f', hi, e'.1, stage_failing.mp e'.2⟩)
  · have hh : (s.pc t).frame.hold? = some (k, .failing) := hh
    cases hf : (s.pc t).frame with
    | idle => rw [hf] at hh; cases hh
    | connected j p => rw [hf] at hh; cases p <;> cases hh
    | observe i p =>
      rw [hf] at hh
      refine .inr (.inr ⟨t, i, p, hf, ?_, ?_, ?_⟩)
      · cases p <;> cases hh <;> rfl
      · rintro rfl; cases hh
      · rintro rfl; cases hh
    | message i response p =>
      rw [hf] at hh
      cases p with
      | release f =>
        obtain ⟨g, rfl, e⟩ := Option.map_eq_some_iff.mp hh
        simp only [Prod.mk.injEq] at e
        exact .inl ⟨t, i, response, g, hf, e.1, stage_failing.mp e.2⟩
      | _ => cases hh
  · obtain ⟨c, -, hc⟩ := Option.bind_eq_some_iff.mp (show (s.pc t).call.bind _ = some _ from hh)
    rcases c with p | ⟨d, p⟩
    · cases p <;> cases hc
    · cases hc

end

/-- **The end of a receive loop is reported, once.**  A loop that has begun and schedules no more receives,
although `disconnect()` has not cancelled it and the transport is alive, has called the error callback or is
about to, unless it was ended by a `task_canceled` of its own, or `close()` has thrown.  The error callback is
called once for a loop, and no response of the loop is processed after it. -/
theorem loop_end_reported {s : State Mem (Pc R)} {l : List (Event R)}
    (h : prog.Trace (fun _ _ => True) events s l) (k : ℕ) :
    (.started k ∈ l → ¬ Scheduling s k → .disconnected k ∉ l → .destroyed ∉ l → .canceled k ∉ l →
      .closeThrew k ∉ l → .error k ∈ l ∨ Reporting s k) ∧
    (∀ l₁ l₂, l = l₁ ++ .error k :: l₂ → .error k ∉ l₁) ∧
    (∀ l₁ l₂ x, l = l₁ ++ .processed k x :: l₂ → .error k ∉ l₁) := by
  have hlast : ∀ (e : Event R) (l₁ l₂ : List (Event R)), e.report? = some k → l = l₁ ++ e :: l₂ → .error k ∉ l₁ := by
    intro e l₁ l₂ he hl
    obtain ⟨s₀, a, m, p, o₁, o₂, l₀, h₀, -, -, hobs, rfl⟩ := h.exists_step hl
    obtain ⟨rfl, x, hx⟩ := events_report hobs he
    rw [List.append_nil]
    exact (course_holds h₀).1.unreported (.frame a.thread) k x hx
  refine ⟨?_, fun l₁ l₂ hl => hlast _ l₁ l₂ rfl hl, fun l₁ l₂ x hl => hlast _ l₁ l₂ rfl hl⟩
  intro hstarted hidle hdisc hdest hcanc hclose
  obtain ⟨hcourse, -⟩ := course_holds h
  by_cases hheld : ∃ w x, held s.mem s.pc w = some (k, x)
  · obtain ⟨w, x, hw⟩ := hheld
    have htold := hcourse.told w k x hw
    cases x with
    | starting => exact absurd hstarted htold.1
    | looping => exact absurd (scheduling_of_held hw) hidle
    | silent =>
      rcases htold with h | h
      · exact absurd h hcanc
      · exact absurd h hdisc
    | failing => exact .inr (reporting_of_held hw)
  · have hover := hcourse.ended k hstarted fun w x hw => hheld ⟨w, x, hw⟩
    rcases hover with ho | ho | ho | ho | ho
    · exact .inl ho
    · exact absurd ho hcanc
    · exact absurd ho hclose
    · exact absurd ho hdisc
    · exact absurd ho hdest

/-! ## Schedules -/

/-- `j` steps of thread `t` in which nothing goes wrong. -/
def going (t j : ℕ) : List (Act (Input R)) := List.replicate j ⟨t, .go none⟩

/-- Thread `t` gets client `k` connected, and its receive loop begun. -/
def connected (t k : ℕ) : List (Act (Input R)) :=
  [⟨t, .connect⟩] ++ going t 8 ++ [⟨t, .connected k none⟩] ++ going t 4

/-- A receive task of client 1 fails, which is reported. -/
def reported : List (Act (Input Unit)) :=
  connected 0 1 ++ [⟨0, .received 0 (.inr .std)⟩, ⟨0, .observe 0⟩] ++ going 0 5

theorem loop_end_reported_std : ∃ (s : State Mem (Pc Unit)) (l : List (Event Unit)),
    prog.Trace (fun _ _ => True) events s l ∧ .error 1 ∈ l ∧ ∀ l₁ l₂, l = l₁ ++ .error 1 :: l₂ → .error 1 ∉ l₁ := by
  obtain ⟨s, l, h, hl⟩ := Program.exists_of_history prog events Test.all reported (fun _ l => l)
    [.receive 1 1, .started 1, .error 1] rfl
  exact ⟨s, l, h, by rw [hl]; simp, (loop_end_reported h 1).2.1⟩

/-- A receive task of client 1 ends with a `task_canceled`. -/
def unreported : List (Act (Input Unit)) :=
  connected 0 1 ++ [⟨0, .received 0 (.inr .canceled)⟩, ⟨0, .observe 0⟩] ++ going 0 1

/-- That ends the loop without a word. -/
theorem canceled_unreported : ¬ ∀ (s : State Mem (Pc Unit)) (l : List (Event Unit)) (k : ℕ),
    prog.Trace (fun _ _ => True) events s l → .started k ∈ l → ¬ Scheduling s k → .disconnected k ∉ l →
      .destroyed ∉ l → .error k ∈ l ∨ Reporting s k := by
  intro hall
  obtain ⟨s, l, h, hf, hidle⟩ := Program.exists_of_history_lt prog events Test.all unreported 1 (by decide)
    (fun s l => (l, s.pc 0, s.mem.receives, s.mem.receiving 0, s.mem.endings, s.mem.ended 0))
    ([.receive 1 1, .started 1, .canceled 1], {}, 1, none, 1, none) rfl
  simp only [Prod.mk.injEq] at hf
  obtain ⟨rfl, hpc, hn, hr, hen, he⟩ := hf
  have hb := bounded_holds h.reach
  have hpcs : ∀ t, (s.pc t).frame = .idle := by
    intro t
    by_cases ht : t = 0
    · rw [ht, hpc]
    · rw [hidle t (by omega)]
      rfl
  have hnone : ∀ r, s.mem.receiving r = none := by
    intro r
    by_cases h0 : r = 0
    · rw [h0, hr]
    · exact hb.receiving r (by omega)
  have hnone' : ∀ e, s.mem.ended e = none := by
    intro e
    by_cases h0 : e = 0
    · rw [h0, he]
    · exact hb.ended e (by omega)
  rcases hall s _ 1 h (by simp) (by simp [Scheduling, hnone, hpcs]) (by simp) (by simp) with hw | hw
  · simp at hw
  · simp [Reporting, hnone', hpcs] at hw

end SignalRClient.Transport
