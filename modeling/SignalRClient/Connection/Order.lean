import SignalRClient.Threads.Trace
import SignalRClient.Connection.Sessions

/-!
# The order of the life-cycle callbacks

The reconnecting, the reconnected and the disconnected callback belong each to a change of the state.  They
are called after the change, outside the lock, and nothing keeps a change of another thread and its callback
from coming in between.

* `Ordered.changes` — the changes of one session come in the order `(lost regained)* lost? ended`;
* `Ordered.after`, `Ordered.once` — a callback comes after its change, and once;
* `Ordered.own` — a reconnected callback comes after the reconnecting callback of the same loss;
* `Ordered.order` — if no callback is overtaken by that of a later change of its session, the callbacks come
  in the order of the changes.
-/

namespace SignalRClient.Connection

open Threads

/-- The changes of the state that a callback belongs to: to reconnecting, back to connected, and from
disconnecting to disconnected. -/
inductive Turn where
  | lost | regained | ended
  deriving DecidableEq

def turn? : ConnectionState → ConnectionState → Option Turn
  | .connected, .reconnecting => some .lost
  | .reconnecting, .connected => some .regained
  | .disconnecting, .disconnected => some .ended
  | _, _ => none

/-- `(lost regained)* lost? ended`, up to where it has got. -/
def regular : List Turn → Bool
  | [] | [.lost] | [.ended] | [.lost, .ended] => true
  | .lost :: .regained :: w => regular w
  | _ => false

/-- A word goes on with `x` after its last letter. -/
def Turn.follows (x : Turn) : Option Turn → Prop
  | none | some .regained => x = .lost ∨ x = .ended
  | some .lost => x = .regained ∨ x = .ended
  | some .ended => False

theorem regular_append {w : List Turn} {x : Turn} (h : regular w = true) (hx : x.follows w.getLast?) :
    regular (w ++ [x]) = true := by
  fun_induction regular w with
  | case1 => rcases hx with rfl | rfl <;> rfl
  | case2 => rcases hx with rfl | rfl <;> rfl
  | case3 => exact hx.elim
  | case4 => exact hx.elim
  | case5 w ih =>
    refine ih h ?_
    cases w with
    | nil => exact hx
    | cons y w => simpa using hx
  | case6 => cases h

theorem regular_of_append {w u : List Turn} (h : regular (w ++ u) = true) : regular w = true := by
  fun_induction regular w with
  | case1 => rfl
  | case2 => rfl
  | case3 => rfl
  | case4 => rfl
  | case5 w ih => exact ih h
  | case6 w h1 h2 h3 h4 h5 =>
    rcases w with _ | ⟨x, _ | ⟨y, w⟩⟩
    · exact absurd rfl h1
    · cases x
      · exact absurd rfl h2
      · simp [regular] at h
      · exact absurd rfl h3
    · cases x <;> cases y
      case lost.regained => exact absurd rfl (h5 w)
      case lost.ended =>
        cases w with
        | nil => exact absurd rfl h4
        | cons z w => simp [regular] at h
      all_goals simp [regular] at h

/-! ## What is seen of a run -/

/-- Thread `t` makes a change in session `n`; it calls the callback that belongs to such a change. -/
inductive Sign where
  | change (k : Turn) (t n : ℕ)
  | callback (k : Turn) (t : ℕ)
  deriving DecidableEq

/-- The callback that a thread is about to call. -/
def Pc.calls : Pc → Option Turn
  | .error _ _ _ .callback => some .lost
  | .error _ _ _ .okCallback => some .regained
  | .stop _ .callback => some .ended
  | _ => none

def signs (t : ℕ) (m : Mem) (p : Pc) (_ : Input) (m' : Mem) (_ : Pc) : List Sign :=
  ((turn? m.connState m'.connState).map fun k => .change k t m.sessions).toList ++
    (p.calls.map fun k => .callback k t).toList

/-- The changes of session `n`, with the threads that have made them. -/
def changes (n : ℕ) (l : List Sign) : List (Turn × ℕ) :=
  l.filterMap fun
    | .change k t i => if i = n then some (k, t) else none
    | .callback _ _ => none

def called (l : List Sign) : List (Turn × ℕ) :=
  l.filterMap fun
    | .callback k t => some (k, t)
    | .change _ _ _ => none

/-- The callbacks that belong to the changes of session `n`. -/
def callbacks (n : ℕ) (l : List Sign) : List (Turn × ℕ) := (called l).filter fun x => x ∈ changes n l

/-- No callback of session `n` is called before that of an earlier change of the session. -/
def InOrder (n : ℕ) (l : List Sign) : Prop :=
  ∀ (Y₁ Y₂ X₁ X₂ : List (Turn × ℕ)) (x : Turn × ℕ), callbacks n l = Y₁ ++ x :: Y₂ → changes n l = X₁ ++ x :: X₂ → X₁ ⊆ Y₁

/-- What holds of the callbacks of session `n`. -/
structure Ordered (n : ℕ) (l : List Sign) : Prop where
  changes : regular ((changes n l).map Prod.fst) = true
  after : ∀ l₁ l₂ k t, l = l₁ ++ .callback k t :: l₂ → .change k t n ∈ l → .change k t n ∈ l₁
  once : (callbacks n l).Nodup
  own : ∀ l₁ l₂ t, l = l₁ ++ .callback .regained t :: l₂ → .callback .lost t ∈ l₁
  order : InOrder n l → regular ((callbacks n l).map Prod.fst) = true

theorem mem_changes {n : ℕ} {l : List Sign} {k : Turn} {t : ℕ} :
    (k, t) ∈ changes n l ↔ .change k t n ∈ l := by
  simp only [changes, List.mem_filterMap]
  constructor
  · rintro ⟨x, hx, h⟩
    cases x with
    | change k' t' i =>
      simp only [Option.ite_none_right_eq_some, Option.some.injEq, Prod.mk.injEq] at h
      obtain ⟨rfl, rfl, rfl⟩ := h
      exact hx
    | callback k' t' => cases h
  · exact fun h => ⟨_, h, by simp⟩

theorem mem_called {l : List Sign} {k : Turn} {t : ℕ} : (k, t) ∈ called l ↔ .callback k t ∈ l := by
  simp only [called, List.mem_filterMap]
  constructor
  · rintro ⟨x, hx, h⟩
    cases x with
    | change k' t' i => cases h
    | callback k' t' =>
      cases h
      exact hx
  · exact fun h => ⟨_, h, rfl⟩

@[simp] theorem changes_append (n : ℕ) (l l' : List Sign) : changes n (l ++ l') = changes n l ++ changes n l' :=
  List.filterMap_append

@[simp] theorem called_append (l l' : List Sign) : called (l ++ l') = called l ++ called l' :=
  List.filterMap_append

/-- What is drawn from a list without repetition, nothing before what comes earlier there, is its first
part. -/
theorem prefix_of_inOrder {α : Type*} {X Y : List α} (hX : X.Nodup) (hY : Y.Nodup) (hsub : Y ⊆ X)
    (h : ∀ (Y₁ Y₂ X₁ X₂ : List α) (x : α), Y = Y₁ ++ x :: Y₂ → X = X₁ ++ x :: X₂ → X₁ ⊆ Y₁) : Y <+: X := by
  induction Y using List.reverseRecOn with
  | nil => exact List.nil_prefix
  | append_singleton Y y ih =>
    obtain ⟨Z, hZ⟩ := ih (List.Nodup.of_append_left hY) (fun z hz => hsub (List.mem_append_left _ hz))
      fun Y₁ Y₂ X₁ X₂ x e => h Y₁ (Y₂ ++ [y]) X₁ X₂ x (by simp [e])
    have hy : y ∈ Z := by
      have hmem : y ∈ X := hsub (by simp)
      rw [← hZ] at hmem
      rcases List.mem_append.mp hmem with hy | hy
      · exact (List.disjoint_of_nodup_append hY hy (by simp)).elim
      · exact hy
    obtain ⟨Z₁, Z₂, rfl⟩ := List.append_of_mem hy
    -- what comes before `y` in `X` is in `Y`, and so nothing is left of `Z` before `y`
    have hsub' : Y ++ Z₁ ⊆ Y := h Y [] (Y ++ Z₁) Z₂ y rfl (by simp [← hZ])
    have hnil : Z₁ = [] := by
      rcases Z₁ with _ | ⟨z, Z₁⟩
      · rfl
      · have hz : z ∈ Y := hsub' (by simp)
        rw [← hZ] at hX
        exact (List.disjoint_of_nodup_append hX hz (by simp)).elim
    subst hnil
    exact ⟨Z₂, by simp [← hZ]⟩

/-! ## What a thread shows -/

/-- The change that a thread is about to make, if the state allows it. -/
def Pc.turns : Pc → Option Turn
  | .error _ _ _ .cas => some .lost
  | .error _ _ _ .okCas => some .regained
  | .stop _ (.contCas _) => some .ended
  | _ => none

/-- The change that a thread has made and not yet called the callback of. -/
def Pc.due : Pc → Option Turn
  | .error _ _ _ .capture | .error _ _ _ .unlock | .error _ _ _ .callback => some .lost
  | .error _ _ _ .okSet | .error _ _ _ .okCallback => some .regained
  | .stop _ .contNull | .stop _ .contUnlock | .stop _ .callback => some .ended
  | _ => none

/-- A thread has not yet come to a change of this kind. -/
def Pc.before : Turn → Pc → Bool
  | _, .idle => true
  | .lost, .error _ _ _ q => match q with
    | .check | .setException | .lock | .wait | .cas => true
    | _ => false
  | .regained, .error _ _ _ q => match q with
    | .okSet | .okCallback | .failSet => false
    | _ => true
  | .ended, .error _ _ _ _ => true
  | .ended, .stop _ q => match q with
    | .contNull | .contUnlock | .callback | .stopped | .cancelledTask | .thrown => false
    | _ => true
  | _, _ => false

/-- A reconnect after its reconnecting callback, up to the reconnected one. -/
def Pc.resumes : Pc → Bool
  | .error _ _ _ q => match q with
    | .relock | .recheckCts | .recheckState | .reset | .release | .build | .tryCheck | .tryConnect | .tryWait
    | .tryFailed | .tryWindow | .retryCheck | .okCas | .okSet | .okCallback => true
    | _ => false
  | _ => false

/-- What a step of a thread has to do with its next change. -/
structure Turns (p p' : Pc) : Prop where
  before : ∀ k, p'.before k = true → p.before k = true ∧ p.turns ≠ some k ∧ p.calls ≠ some k
  due : ∀ k, p'.due = some k → (p.due = some k ∧ p.calls ≠ some k) ∨ p.turns = some k
  resumes : p'.resumes = true → p.resumes = true ∨ p.calls = some .lost

theorem Turns.of_inert {p p' : Pc} (hb : ∀ k, p'.before k = false) (hd : p'.due = none)
    (hr : p'.resumes = false) : Turns p p' := by
  constructor
  · intro k hk
    rw [hb] at hk
    cases hk
  · intro k hk
    rw [hd] at hk
    cases hk
  · intro h
    rw [hr] at h
    cases h

theorem runError_turns {m m' : Mem} {n k c : ℕ} {q : ErrorPc} {o : Outcome} {p' : Pc}
    (h : runError m n k c q o = some (m', p')) : Turns (.error n k c q) p' := by
  cases q <;> simp only [runError] at h <;> repeat' (split at h)
  all_goals simp only [reduceCtorEq, Option.some.injEq, Prod.mk.injEq] at h
  all_goals obtain ⟨-, rfl⟩ := h
  all_goals
    constructor
    · intro k
      cases k <;> simp [Pc.before, Pc.turns, Pc.calls]
    · intro k
      cases k <;> simp [Pc.due, Pc.turns, Pc.calls]
    · simp [Pc.resumes, Pc.calls]

theorem next_turns {t : ℕ} {m m' : Mem} {p p' : Pc} {i : Input} (h : next t m p i = some (m', p')) :
    Turns p p' := by
  cases next_leads h with
  | @enter j _ _ _ _ hp =>
    subst hp
    constructor
    · exact fun k _ => ⟨by cases k <;> rfl, by simp [Pc.turns], by simp [Pc.calls]⟩
    · intro k hk
      cases j <;> cases hk
    · intro hr
      cases j <;> cases hr
  | @stop g q q' o _ h' =>
    cases q <;> simp only [runStop] at h' <;> repeat' (split at h')
    all_goals simp only [reduceCtorEq, Option.some.injEq, Prod.mk.injEq] at h'
    all_goals obtain ⟨-, e⟩ := h'; cases e
    all_goals
      constructor
      · intro k
        cases k <;> simp [Pc.before, Pc.turns, Pc.calls]
      · intro k
        cases k <;> simp [Pc.due, Pc.turns, Pc.calls]
      · simp [Pc.resumes]
  | error h' | leave h' | giveUp h' => exact runError_turns h'
  | _ => exact .of_inert (fun k => by cases k <;> rfl) rfl rfl

theorem before_of_turns {p : Pc} {k : Turn} (h : p.turns = some k) : p.before k = true ∧ p.calls = none := by
  unfold Pc.turns at h
  split at h
  all_goals first | (cases h; exact ⟨rfl, rfl⟩) | cases h

theorem due_of_calls {p : Pc} {k : Turn} (h : p.calls = some k) :
    p.due = some k ∧ (k = .regained → p.resumes = true) := by
  unfold Pc.calls at h
  split at h
  all_goals first | (cases h; exact ⟨rfl, by simp [Pc.resumes]⟩) | cases h

/-- The changes are made by the steps that are meant for them. -/
theorem turns_of_next {t : ℕ} {m m' : Mem} {p p' : Pc} {i : Input} {k : Turn}
    (h : next t m p i = some (m', p')) (hl : p.role.Loc m.toCore)
    (hk : turn? m.connState m'.connState = some k) : p.turns = some k := by
  rcases (next_writes h).state with e | hch
  · rw [e] at hk
    generalize m.connState = x at hk
    cases x <;> cases hk
  · generalize m'.connState = x at hch hk
    cases hch with
    | start hc => rw [hc] at hk; cases hk
    | started hc => rw [hc] at hk; cases hk
    | notStarted =>
      have hc : m.connState = .connecting := hl.phase _ rfl
      rw [hc] at hk
      cases hk
    | lost hc => rw [hc] at hk; cases hk; rfl
    | regained hc => rw [hc] at hk; cases hk; rfl
    | stop =>
      rcases (hl.closing rfl).2.2.2 with hc | hc
      · rw [hc] at hk; cases hk
      · rw [hc] at hk; cases hk
    | stopped hc => rw [hc] at hk; cases hk; rfl

section

variable {t u n : ℕ} {m m' : Mem} {p p' : Pc} {i : Input} {k : Turn}

theorem change_mem_signs : .change k u n ∈ signs t m p i m' p' ↔
    u = t ∧ n = m.sessions ∧ turn? m.connState m'.connState = some k := by
  simp only [signs, List.mem_append, Option.mem_toList, Option.map_eq_some_iff]
  constructor
  · rintro (⟨j, hj, e⟩ | ⟨j, -, e⟩)
    · cases e
      exact ⟨rfl, rfl, hj⟩
    · cases e
  · rintro ⟨rfl, rfl, hk⟩
    exact .inl ⟨k, hk, rfl⟩

theorem callback_mem_signs : .callback k u ∈ signs t m p i m' p' ↔ u = t ∧ p.calls = some k := by
  simp only [signs, List.mem_append, Option.mem_toList, Option.map_eq_some_iff]
  constructor
  · rintro (⟨j, -, e⟩ | ⟨j, hj, e⟩)
    · cases e
    · cases e
      exact ⟨rfl, hj⟩
  · rintro ⟨rfl, hk⟩
    exact .inr ⟨k, hk, rfl⟩

end

/-- What a thread has shown so far. -/
structure Caller (t : ℕ) (p : Pc) (l : List Sign) : Prop where
  before : ∀ k, p.before k = true → (∀ n, .change k t n ∉ l) ∧ .callback k t ∉ l
  due : ∀ k, p.due = some k → .callback k t ∉ l
  resumes : p.resumes = true → .callback .lost t ∈ l

theorem caller_holds {s : State Mem Pc} {l : List Sign} (h : prog.Trace OnTime signs s l) (t : ℕ) :
    Caller t (s.pc t) l := by
  refine h.each (L := fun t _ p l => Caller t p l) (fun t => ⟨by simp, by simp, fun hp => by cases hp⟩)
    (fun s a l m' p' hr ha ih hn => ⟨?_, fun u hu => ?_⟩) t
  · have hi := ih a.thread
    have ht := next_turns hn
    have hl := (life_holds hr.reach).loc a.thread
    refine ⟨fun k hk => ?_, fun k hk => ?_, fun hk => ?_⟩
    · obtain ⟨hb, hnt, hnc⟩ := ht.before k hk
      obtain ⟨h1, h2⟩ := hi.before k hb
      refine ⟨fun n hm => ?_, fun hm => ?_⟩
      · rcases List.mem_append.mp hm with hm | hm
        · exact h1 n hm
        · exact hnt (turns_of_next hn hl (change_mem_signs.mp hm).2.2)
      · rcases List.mem_append.mp hm with hm | hm
        · exact h2 hm
        · exact hnc (callback_mem_signs.mp hm).2
    · have hnc : .callback k a.thread ∉ l ∧ (s.pc a.thread).calls ≠ some k := by
        rcases ht.due k hk with ⟨hd, hnc⟩ | hd
        · exact ⟨hi.due k hd, hnc⟩
        · obtain ⟨hb, hnone⟩ := before_of_turns hd
          exact ⟨(hi.before k hb).2, by rw [hnone]; simp⟩
      intro hm
      rcases List.mem_append.mp hm with hm | hm
      · exact hnc.1 hm
      · exact hnc.2 (callback_mem_signs.mp hm).2
    · rcases ht.resumes hk with hp | hp
      · exact List.mem_append_left _ (hi.resumes hp)
      · exact List.mem_append_right _ (callback_mem_signs.mpr ⟨rfl, hp⟩)
  · -- a step shows nothing of another thread
    have hi := ih u
    refine ⟨fun k hk => ⟨fun n hm => ?_, fun hm => ?_⟩, fun k hk hm => ?_, fun hk => ?_⟩
    · rcases List.mem_append.mp hm with hm | hm
      · exact (hi.before k hk).1 n hm
      · exact hu (change_mem_signs.mp hm).1
    · rcases List.mem_append.mp hm with hm | hm
      · exact (hi.before k hk).2 hm
      · exact hu (callback_mem_signs.mp hm).1
    · rcases List.mem_append.mp hm with hm | hm
      · exact hi.due k hk hm
      · exact hu (callback_mem_signs.mp hm).1
    · exact List.mem_append_left _ (hi.resumes hk)

/-! ## The course of a session -/

/-- The changes of the sessions so far, next to the state they have led to. -/
structure Course (m : Mem) (l : List Sign) : Prop where
  regular : ∀ n, regular ((changes n l).map Prod.fst) = true
  later : ∀ n, m.sessions < n → changes n l = []
  connecting : m.connState = .connecting → changes m.sessions l = []
  connected : m.connState = .connected →
    ((changes m.sessions l).map Prod.fst).getLast? = none ∨
      ((changes m.sessions l).map Prod.fst).getLast? = some .regained
  reconnecting : m.connState = .reconnecting →
    ((changes m.sessions l).map Prod.fst).getLast? = some .lost
  disconnecting : m.connState = .disconnecting →
    ((changes m.sessions l).map Prod.fst).getLast? ≠ some .ended

theorem changes_signs (n t : ℕ) (m m' : Mem) (p p' : Pc) (i : Input) :
    changes n (signs t m p i m' p') =
      if n = m.sessions then ((turn? m.connState m'.connState).map fun k => (k, t)).toList else [] := by
  rw [signs, changes_append]
  have hcalls : changes n (p.calls.map fun k => Sign.callback k t).toList = [] := by
    cases p.calls <;> rfl
  rw [hcalls, List.append_nil]
  cases turn? m.connState m'.connState with
  | none => simp [changes]
  | some k =>
    by_cases hn : n = m.sessions
    · subst hn; simp [changes]
    · simp [changes, hn, Ne.symm hn]

/-- A session begins as the state becomes connecting. -/
theorem next_sessions {t : ℕ} {m m' : Mem} {p p' : Pc} {i : Input} (h : next t m p i = some (m', p')) :
    (m'.sessions = m.sessions ∧ ¬ (m.connState = .disconnected ∧ m'.connState = .connecting)) ∨
      (m'.sessions = m.sessions + 1 ∧ m.connState = .disconnected ∧ m'.connState = .connecting) := by
  rcases (next_writes h).sessions with e | ⟨e, hc, n, c, rfl, -⟩
  · refine .inl ⟨e, ?_⟩
    rintro ⟨hc, hc'⟩
    rcases (next_writes h).state with e' | hch
    · rw [e', hc] at hc'
      cases hc'
    · rw [hc'] at hch
      cases hch with
      | start =>
        obtain ⟨o, -, h'⟩ := next_start h
        rw [runStart, if_pos hc] at h'
        cases h'
        simp at e
  · obtain ⟨o, -, h'⟩ := next_start h
    rw [runStart, if_pos hc] at h'
    cases h'
    exact .inr ⟨rfl, hc, rfl⟩

section

variable {m m' : Mem} {l l' : List Sign}

/-- A step that shows no change. -/
theorem Course.idle (h : Course m l) (hl : ∀ n, changes n l' = changes n l) (hse : m'.sessions = m.sessions)
    (hc : m'.connState = m.connState) : Course m' l' := by
  constructor
  · exact fun n => by rw [hl]; exact h.regular n
  · exact fun n hn => by rw [hl]; exact h.later n (by omega)
  · exact fun hc' => by rw [hl, hse]; exact h.connecting (hc ▸ hc')
  · exact fun hc' => by rw [hl, hse]; exact h.connected (hc ▸ hc')
  · exact fun hc' => by rw [hl, hse]; exact h.reconnecting (hc ▸ hc')
  · exact fun hc' => by rw [hl, hse]; exact h.disconnecting (hc ▸ hc')

/-- The last change of the current session allows a change of this kind. -/
theorem Course.follows (h : Course m l) {k : Turn} (hk : turn? m.connState m'.connState = some k) :
    k.follows ((changes m.sessions l).map Prod.fst).getLast? := by
  cases hc : m.connState <;> cases hc' : m'.connState <;> rw [hc, hc'] at hk <;> cases hk
  · rcases h.connected hc with e | e
    · rw [e]; exact .inl rfl
    · rw [e]; exact .inl rfl
  · rw [h.reconnecting hc]; exact .inl rfl
  · have hne := h.disconnecting hc
    cases hlast : ((changes m.sessions l).map Prod.fst).getLast? with
    | none => exact .inr rfl
    | some x =>
      cases x with
      | lost => exact .inr rfl
      | regained => exact .inr rfl
      | ended => exact absurd hlast hne

/-- A step that shows a change of the current session. -/
theorem Course.turn (h : Course m l) {k : Turn} {t : ℕ} (hk : turn? m.connState m'.connState = some k)
    (hl : ∀ n, changes n l' = changes n l ++ if n = m.sessions then [(k, t)] else [])
    (hse : m'.sessions = m.sessions) : Course m' l' := by
  have hlast : ((changes m'.sessions l').map Prod.fst).getLast? = some k := by
    rw [hse, hl, if_pos rfl]
    simp
  constructor
  · intro n
    rw [hl]
    by_cases hn : n = m.sessions
    · subst hn
      rw [if_pos rfl, List.map_append]
      exact regular_append (h.regular _) (h.follows hk)
    · rw [if_neg hn, List.append_nil]
      exact h.regular n
  · intro n hn
    rw [hl, if_neg (by omega), List.append_nil]
    exact h.later n (by omega)
  all_goals
    intro hc'
    rw [hc'] at hk
    generalize m.connState = x at hk
  · cases x <;> cases hk
  · cases x <;> cases hk
    exact .inr hlast
  · cases x <;> cases hk
    exact hlast
  · cases x <;> cases hk

/-- A legal change that no callback belongs to. -/
theorem Course.quiet (h : Course m l) (hle : Legal m.connState m'.connState)
    (hk : turn? m.connState m'.connState = none) (hl : ∀ n, changes n l' = changes n l)
    (hns : ¬ (m.connState = .disconnected ∧ m'.connState = .connecting))
    (hse : m'.sessions = m.sessions) : Course m' l' := by
  have hreg : ∀ n, SignalRClient.Connection.regular ((changes n l').map Prod.fst) = true := fun n => by
    rw [hl]; exact h.regular n
  have hlater : ∀ n, m'.sessions < n → changes n l' = [] := fun n hn => by rw [hl]; exact h.later n (by omega)
  generalize hx : m.connState = x at hle hk hns
  generalize hy : m'.connState = y at hle hk hns
  cases hle with
  | start => exact absurd ⟨rfl, rfl⟩ hns
  | lost => cases hk
  | regained => cases hk
  | stopped => cases hk
  | started =>
    refine ⟨hreg, hlater, ?_, fun _ => .inl ?_, ?_, ?_⟩
    · rw [hy]; intro hc'; cases hc'
    · rw [hse, hl, h.connecting hx]; rfl
    · rw [hy]; intro hc'; cases hc'
    · rw [hy]; intro hc'; cases hc'
  | notStarted => constructor <;> first | assumption | (rw [hy]; intro hc'; cases hc')
  | stop =>
    refine ⟨hreg, hlater, ?_, ?_, ?_, fun _ => ?_⟩
    · rw [hy]; intro hc'; cases hc'
    · rw [hy]; intro hc'; cases hc'
    · rw [hy]; intro hc'; cases hc'
    · rw [hse, hl]
      rcases h.connected hx with e | e <;> rw [e] <;> simp
  | stopLost =>
    refine ⟨hreg, hlater, ?_, ?_, ?_, fun _ => ?_⟩
    · rw [hy]; intro hc'; cases hc'
    · rw [hy]; intro hc'; cases hc'
    · rw [hy]; intro hc'; cases hc'
    · rw [hse, hl, h.reconnecting hx]; simp

end

theorem course_holds {s : State Mem Pc} {l : List Sign} (h : prog.Trace OnTime signs s l) :
    Course s.mem l := by
  refine h.invariant (J := fun s l => Course s.mem l) ?_ fun s a l m' p' hr ha hi hn => ?_
  · constructor <;> simp [prog, Program.init, changes, regular]
  have hl := (life_holds hr.reach).loc a.thread
  have hch := fun n => changes_signs n a.thread s.mem m' (s.pc a.thread) p' a.input
  rw [State.set_mem]
  rcases next_sessions hn with ⟨hse, hns⟩ | ⟨hse, hc, hc'⟩
  · rcases (next_writes hn).state with e | hchange
    · refine hi.idle (fun n => ?_) hse e
      have hnone : turn? s.mem.connState m'.connState = none := by
        rw [e]; cases s.mem.connState <;> rfl
      rw [changes_append, hch, hnone]
      simp
    · have hnew : ∀ n, changes n (l ++ signs a.thread s.mem (s.pc a.thread) a.input m' p') = changes n l ++
          if n = s.mem.sessions then ((turn? s.mem.connState m'.connState).map fun k => (k, a.thread)).toList
            else [] := fun n => by rw [changes_append, hch]
      cases hk : turn? s.mem.connState m'.connState with
      | some k =>
        rw [hk] at hnew
        exact hi.turn hk hnew hse
      | none =>
        rw [hk] at hnew
        exact hi.quiet (hchange.legal hl) hk (by simpa using hnew) hns hse
  · -- a new session has seen no change
    have hsame : ∀ n, changes n (l ++ signs a.thread s.mem (s.pc a.thread) a.input m' p') = changes n l := by
      intro n
      rw [changes_append, hch, hc, hc']
      simp [turn?]
    constructor
    · exact fun n => by rw [hsame]; exact hi.regular n
    · exact fun n hn => by rw [hsame]; exact hi.later n (by omega)
    · exact fun _ => by rw [hsame]; exact hi.later _ (by omega)
    all_goals
      intro hx
      rw [hc'] at hx
      cases hx

/-! ## The callbacks -/

theorem called_signs (t : ℕ) (m m' : Mem) (p p' : Pc) (i : Input) :
    called (signs t m p i m' p') = (p.calls.map fun k => (k, t)).toList := by
  rw [signs, called_append]
  have hturns : called ((turn? m.connState m'.connState).map fun k => Sign.change k t m.sessions).toList = [] := by
    cases turn? m.connState m'.connState <;> rfl
  rw [hturns, List.nil_append]
  cases p.calls <;> rfl

/-- A callback is called once. -/
theorem called_nodup {s : State Mem Pc} {l : List Sign} (h : prog.Trace OnTime signs s l) : (called l).Nodup := by
  refine h.invariant (J := fun _ l => (called l).Nodup) List.nodup_nil fun s a l m' p' hr ha hi hn => ?_
  rw [called_append, called_signs]
  cases hp : (s.pc a.thread).calls with
  | none => simpa using hi
  | some k =>
    have hnot := (caller_holds hr a.thread).due k (due_of_calls hp).1
    refine List.nodup_append.mpr ⟨hi, by simp, fun x hx y hy => ?_⟩
    simp only [Option.map_some, Option.toList_some, List.mem_singleton] at hy
    rintro rfl
    rw [hy] at hx
    exact hnot (mem_called.mp hx)

/-- A change is made once. -/
theorem changes_nodup {s : State Mem Pc} {l : List Sign} (h : prog.Trace OnTime signs s l) (n : ℕ) :
    (changes n l).Nodup := by
  refine h.invariant (J := fun _ l => (changes n l).Nodup) List.nodup_nil fun s a l m' p' hr ha hi hn => ?_
  refine (changes_append n l _).symm ▸ List.nodup_append.mpr ⟨hi, ?_, fun x hx y hy => ?_⟩
  · rw [changes_signs]
    split
    · cases turn? s.mem.connState m'.connState <;> simp
    · exact List.nodup_nil
  · obtain ⟨k, t⟩ := y
    rintro rfl
    obtain ⟨rfl, -, hk⟩ := change_mem_signs.mp (mem_changes.mp hy)
    have ht := turns_of_next hn ((life_holds hr.reach).loc a.thread) hk
    exact ((caller_holds hr a.thread).before k (before_of_turns ht).1).1 n (mem_changes.mp hx)

/-- What comes before the first `y` of a list is on its left wherever the list is cut at a `y`. -/
theorem mem_left_of_notMem {α : Type*} {l₁ l₂ A B : List α} {x y : α} (h : l₁ ++ y :: l₂ = A ++ x :: B)
    (hy : y ∉ A) (hne : y ≠ x) : x ∈ l₁ := by
  rcases List.append_eq_append_iff.mp h with ⟨c, rfl, hc⟩ | ⟨c, rfl, hc⟩
  · cases c with
    | nil => exact absurd (List.cons.inj hc).1 hne
    | cons z c =>
      obtain rfl : y = z := (List.cons.inj hc).1
      exact absurd (by simp) hy
  · cases c with
    | nil => exact absurd (List.cons.inj hc).1.symm hne
    | cons z c =>
      obtain rfl : x = z := (List.cons.inj hc).1
      simp

/-- **The order of the callbacks.**  In every run without a late signal the callbacks of a session come in
the order of the life cycle, unless one is overtaken. -/
theorem callbacks_ordered {s : State Mem Pc} {l : List Sign} (h : prog.Trace OnTime signs s l) (n : ℕ) :
    Ordered n l := by
  have honce : (callbacks n l).Nodup := (called_nodup h).filter _
  have hreg := (course_holds h).regular n
  refine ⟨hreg, fun l₁ l₂ k t hl hm => ?_, honce, fun l₁ l₂ t hl => ?_, fun hin => ?_⟩
  · obtain ⟨A, B, hAB⟩ := List.append_of_mem hm
    obtain ⟨s₀, a, m', p', o₁, o₂, l₀, hr, -, hn, ho, rfl⟩ := h.exists_step hAB
    have hmem : ∀ x, x ∈ o₁ ++ Sign.change k t n :: o₂ →
        x ∈ signs a.thread s₀.mem (s₀.pc a.thread) a.input m' p' := fun x hx => by rw [ho]; exact hx
    obtain ⟨rfl, -, hk⟩ := change_mem_signs.mp (hmem (.change k t n) (by simp))
    have hturn := turns_of_next hn ((life_holds hr.reach).loc a.thread) hk
    obtain ⟨hb, hnone⟩ := before_of_turns hturn
    refine mem_left_of_notMem (hl.symm.trans hAB) (fun hcb => ?_) (by simp)
    rcases List.mem_append.mp hcb with hcb | hcb
    · exact ((caller_holds hr a.thread).before k hb).2 hcb
    · have hcalls := (callback_mem_signs.mp (hmem _ (List.mem_append_left _ hcb))).2
      rw [hnone] at hcalls
      cases hcalls
  · obtain ⟨s₀, a, m', p', o₁, o₂, l₀, hr, -, -, ho, rfl⟩ := h.exists_step hl
    have hm : .callback .regained t ∈ signs a.thread s₀.mem (s₀.pc a.thread) a.input m' p' := by rw [ho]; simp
    obtain ⟨rfl, hcalls⟩ := callback_mem_signs.mp hm
    exact List.mem_append_left _ ((caller_holds hr a.thread).resumes ((due_of_calls hcalls).2 rfl))
  · have hsub : callbacks n l ⊆ changes n l := fun x hx => by simpa using (List.mem_filter.mp hx).2
    obtain ⟨rest, hrest⟩ := prefix_of_inOrder (changes_nodup h n) honce hsub hin
    rw [← hrest, List.map_append] at hreg
    exact regular_of_append hreg

/-- Session 1 is lost and regained (thread 2) and then stopped (thread 3). -/
def lostAndStopped : List (Act Input) :=
  started 0 1 1 ++ [call 2 (.error 1)] ++ tasks 2 20 ++ [call 3 .stop] ++ tasks 3 15

theorem callbacks_ordered_stopped : ∃ l, Ordered 1 l ∧
    callbacks 1 l = [(.lost, 2), (.regained, 2), (.ended, 3)] := by
  obtain ⟨s, l, hr, hf⟩ := prog.exists_of_history signs onTime
    lostAndStopped (fun _ l => callbacks 1 l) [(.lost, 2), (.regained, 2), (.ended, 3)] rfl
  exact ⟨l, callbacks_ordered hr 1, hf⟩

/-- Session 1 is lost (thread 2); before the reconnecting callback is called, a `stop()` (thread 3) runs from
its beginning to its end. -/
def overtaken : List (Act Input) :=
  started 0 1 1 ++ [call 2 (.error 1)] ++ tasks 2 7 ++ [call 3 .stop] ++ tasks 3 15 ++ tasks 2 1

/-- The reconnecting callback is called after the disconnected one. -/
theorem overtaken_disorders : ¬ ∀ s l n, prog.Trace (fun _ _ => True) signs s l →
    regular ((callbacks n l).map Prod.fst) = true := by
  intro hall
  obtain ⟨s, l, hr, hf⟩ := prog.exists_of_history signs Test.all
    overtaken (fun _ l => callbacks 1 l) [(.ended, 3), (.lost, 2)] rfl
  have hreg := hall s l 1 hr
  rw [hf] at hreg
  cases hreg

end SignalRClient.Connection
