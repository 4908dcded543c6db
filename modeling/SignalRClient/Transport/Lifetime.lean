import SignalRClient.Transport.Connectable
import SignalRClient.Threads.References
import SignalRClient.Threads.Progress

/-!
# The life time of a transport

The receive loop has a `weak_ptr` to the transport, which it locks to process a response and to report an error; the
owner, the calls and the continuations of a pending `connect()` have a `shared_ptr`.

* `lifetime` — the references are counted right, the destructor runs once, when there are none, and from then on no
  other thread uses a member;
* `destroyed_in_the_end` — a loop that waits for a response does not keep the transport alive: once the owner has let
  go of it and the connects have been answered, it is destroyed and its loops are cancelled.
-/

namespace SignalRClient.Transport

open Threads

variable {R : Type}

/-! ## The references -/

/-- The references of a continuation … -/
def Frame.refs : Frame R → ℕ
  | .connected _ _ | .observe _ .error | .observe _ .erroring => 1
  | .message _ _ .scheduled | .message _ _ .acquire => 0
  | .message _ _ _ => 1
  | .idle | .observe _ _ => 0

/-- … and of a call: the destructor has none. -/
def Call.refs : Call → ℕ
  | .connect _ => 1
  | .disconnect dtor _ => (!dtor).toNat

def Pc.refs (p : Pc R) : ℕ := p.frame.refs + p.call.elim 0 Call.refs

/-- The call is that of the destructor. -/
def Call.destroys : Call → Bool
  | .connect _ => false
  | .disconnect dtor _ => dtor

def Pc.destroys (p : Pc R) : Bool := p.call.any Call.destroys

/-- The reference of the owner, and one for each client whose connect is pending. -/
def Mem.holds (m : Mem) (n : ℕ) : Prop :=
  ∃ K : Finset ℕ, (∀ k, k ∈ K ↔ m.connecting k = true) ∧ n = m.owned.toNat + K.card

abbrev Counts (s : State Mem (Pc R)) : Prop := Counted Mem.refs Mem.holds Pc.refs s

/-- The members are as they were. -/
structure Untouched (m m' : Mem) : Prop where
  lock : m'.startStopLock = m.startStopLock
  client : m'.websocketClient = m.websocketClient
  cts : m'.receiveLoopCts = m.receiveLoopCts

theorem release_refs (m : Mem) : m.release.2.elim 0 Call.refs = 0 := by
  rcases release_call m with h | h <;> rw [h] <;> rfl

theorem release_destroys (m : Mem) : m.release.2.any Call.destroys = true ↔ m.refs = 1 := by
  by_cases h : m.refs = 1 <;> simp [Mem.release, Call.destroys, h]

theorem Mem.holds.congr {m m' : Mem} {n : ℕ} (h : m.holds n) (hc : m'.connecting = m.connecting)
    (ho : m'.owned = m.owned) : m'.holds n := by
  unfold Mem.holds
  rw [hc, ho]
  exact h

/-- One connect more is pending, or one less. -/
theorem Mem.holds.update {m : Mem} {n k : ℕ} (h : m.holds n) (b : Bool) :
    ∃ n', Mem.holds { m with connecting := Function.update m.connecting k b } n' ∧
      n' + (m.connecting k).toNat = n + b.toNat := by
  obtain ⟨K, hK, rfl⟩ := h
  have hk := hK k
  cases b with
  | true =>
    refine ⟨_, ⟨insert k K, fun j => ?_, rfl⟩, ?_⟩
    · by_cases hj : j = k
      · simp [hj]
      · simp [hj, hK]
    · cases hc : m.connecting k with
      | true =>
        rw [Finset.insert_eq_of_mem (hk.mpr hc)]
      | false =>
        rw [Finset.card_insert_of_notMem fun hm => (by rw [hk.mp hm] at hc; cases hc)]
        simp only [Bool.toNat_true, Bool.toNat_false]
        omega
  | false =>
    refine ⟨_, ⟨K.erase k, fun j => ?_, rfl⟩, ?_⟩
    · by_cases hj : j = k
      · simp [hj]
      · simp [hj, hK]
    · cases hc : m.connecting k with
      | true =>
        have hpos : 0 < K.card := Finset.card_pos.mpr ⟨k, hk.mpr hc⟩
        rw [Finset.card_erase_of_mem (hk.mpr hc)]
        simp only [Bool.toNat_true, Bool.toNat_false]
        omega
      | false =>
        rw [Finset.erase_eq_of_notMem fun hm => (by rw [hk.mp hm] at hc; cases hc)]

section

variable {t n : ℕ} {m m' : Mem} {p p' : Pc R} {i : Input R} {f : Option Fault} {s : State Mem (Pc R)}

theorem CallStep.refs {c : Call} {q : Option Call} (h : CallStep m c f m' q) (hn : m.holds n)
    (hle : n + c.refs ≤ m.refs) (hnew : ∀ k, c = .connect (.connect k) → m.connecting k = false) :
    ∃ n', m'.holds n' ∧ m'.refs + (n + c.refs) = m.refs + (n' + q.elim 0 Call.refs) := by
  cases h with
  | @attach k =>
    obtain ⟨n', hn', heq⟩ := hn.update (k := k) true
    rw [hnew k rfl] at heq
    refine ⟨n', hn'.congr rfl rfl, ?_⟩
    simp only [Bool.toNat_true, Bool.toNat_false] at heq
    simp only [Option.elim_some, Call.refs]
    omega
  | returned | thrown | stopped =>
    refine ⟨n, hn.congr rfl rfl, ?_⟩
    rw [release_refs]
    simp only [Call.refs, Mem.release, Bool.not_false, Bool.toNat_true] at hle ⊢
    omega
  | _ => exact ⟨n, hn.congr rfl rfl, rfl⟩

theorem FrameStep.refs {q : Frame R} (h : FrameStep m q f m' p) (hle : q.refs ≤ m.refs) :
    m'.connecting = m.connecting ∧ m'.owned = m.owned ∧ m'.refs + q.refs = m.refs + p.refs := by
  have hrel : ∀ m₁ : Mem, Pc.refs (⟨.idle, m₁.release.2⟩ : Pc R) = 0 := by
    intro m₁
    simp only [Pc.refs, Frame.refs, release_refs]
  cases h with
  | release | finish | reported =>
    refine ⟨rfl, rfl, ?_⟩
    rw [hrel]
    simp only [Frame.refs, Mem.release, Mem.finish] at hle ⊢
    omega
  | throw hp =>
    refine ⟨rfl, rfl, ?_⟩
    rcases hp with rfl | rfl | ⟨client, rfl⟩ <;> rfl
  | _ => exact ⟨rfl, rfl, rfl⟩

theorem EnterStep.refs (h : EnterStep m i m' p) (hn : m.holds n) (hle : n ≤ m.refs) :
    ∃ n', m'.holds n' ∧ m'.refs + n = m.refs + (n' + p.refs) := by
  have hbegin : ∀ {k : ℕ} {q : ConnectedPc}, m.connecting k = true → ∃ n',
      Mem.holds { m with connecting := Function.update m.connecting k false } n' ∧
        m.refs + n = m.refs + (n' + Pc.refs (⟨.connected k q, none⟩ : Pc R)) := by
    intro k q hk
    obtain ⟨n', hn', heq⟩ := hn.update (k := k) false
    rw [hk] at heq
    refine ⟨n', hn', ?_⟩
    simp only [Bool.toNat_true, Bool.toNat_false] at heq
    simp only [Pc.refs, Frame.refs, Option.elim_none]
    omega
  cases h with
  | drop ho =>
    obtain ⟨K, hK, rfl⟩ := hn
    refine ⟨K.card, ⟨K, hK, by simp [Mem.release]⟩, ?_⟩
    simp only [Pc.refs, Frame.refs, release_refs]
    simp only [Mem.release, ho, Bool.toNat_true] at hle ⊢
    omega
  | connected hk => exact hbegin hk
  | connectFailed _ hk => exact hbegin hk
  | connectUnhandled hk => exact hbegin hk
  | _ => exact ⟨n, hn.congr rfl rfl, rfl⟩

/-- The client of a `connect()` that has still to call its `connect` is new. -/
theorem not_connecting {ok : State Mem (Pc R) → Act (Input R) → Prop} (hs : prog.Reach ok s) {k : ℕ}
    (hc : (s.pc t).call = some (.connect (.connect k))) : s.mem.connecting k = false := by
  by_contra hk
  have hnum := numbered_holds hs
  have hmaking : (s.pc t).making = some k := by simp [Pc.making, hc, Call.making]
  have hlt := (hnum.making t k hmaking).2
  rcases hnum.refers k (.inl (.inl (by simpa using hk))) with e | ⟨u, hu⟩ | ⟨hlt', -⟩
  · omega
  · have hut : u = t := (mutex_holds hs).excl u t (locked_of_making (making_of_setCts hu)) (locked_of_making hmaking)
    rw [hut, hc] at hu
    cases hu
  · omega

theorem counts_holds {ok : State Mem (Pc R) → Act (Input R) → Prop} (h : prog.Reach ok s) : Counts s := by
  refine h.invariant (J := Counts) ⟨1, ∅, ⟨∅, fun k => by simp [Program.init, prog], rfl⟩, fun _ _ => rfl, rfl⟩ ?_
  intro s a m p hr _ hi hn
  refine hi.step fun n hmem hle => ?_
  rcases next_cases (t := a.thread) hn with
    ⟨c, f, c', hc, -, hrun, rfl⟩ | ⟨hc, -, -, rfl, hp⟩ | ⟨f, hc, -, hrun⟩ | ⟨hp, he⟩
  · have hrefs : (s.pc a.thread).refs = (s.pc a.thread).frame.refs + c.refs := by rw [Pc.refs, hc]; rfl
    rw [hrefs] at hle ⊢
    obtain ⟨n', hn', heq⟩ := (runCall_step hrun).refs hmem (by omega) fun k e => not_connecting hr (e ▸ hc)
    refine ⟨n', hn', ?_⟩
    simp only [Pc.refs]
    omega
  · have hrefs : (s.pc a.thread).refs = (s.pc a.thread).frame.refs := by rw [Pc.refs, hc]; rfl
    refine ⟨n, hmem.congr rfl rfl, ?_⟩
    rw [hrefs]
    rcases hp with ⟨-, rfl⟩ | ⟨-, rfl⟩
    all_goals
      simp only [Pc.refs, Option.elim_some, Call.refs, Bool.not_false, Bool.toNat_true]
      omega
  · have hrefs : (s.pc a.thread).refs = (s.pc a.thread).frame.refs := by rw [Pc.refs, hc]; rfl
    rw [hrefs] at hle ⊢
    obtain ⟨hcon, how, heq⟩ := (runFrame_step hrun).refs (by omega)
    exact ⟨n, hmem.congr hcon how, by omega⟩
  · have hrefs : (s.pc a.thread).refs = 0 := by rw [hp]; rfl
    rw [hrefs] at hle ⊢
    exact (enter_step he).refs hmem (by omega)

end

/-! ## The destructor -/

/-- What a step does to the counter and to the destructor: a step that lets go of the last reference, and only such a
one, begins it. -/
structure Disposes (m m' : Mem) (p p' : Pc R) : Prop where
  zero : m.refs = 0 → m'.refs = 0
  begins : (p.destroys = false ∧ p'.destroys = true) ↔ (m.refs ≠ 0 ∧ m'.refs = 0)

section

variable {t : ℕ} {m m' : Mem} {p p' : Pc R} {i : Input R} {f : Option Fault}

theorem CallStep.disposes {c : Call} {q : Option Call} (h : CallStep m c f m' q) (hle : c.refs ≤ m.refs) :
    (m.refs = 0 → m'.refs = 0) ∧ ((c.destroys = false ∧ q.any Call.destroys = true) ↔ (m.refs ≠ 0 ∧ m'.refs = 0)) := by
  cases h with
  | attach =>
    simp only [Call.refs] at hle
    refine ⟨fun h0 => (by omega), ?_⟩
    simp [Call.destroys]
  | returned | thrown | stopped =>
    rw [release_destroys]
    simp only [Mem.release, Call.destroys, true_and]
    omega
  | destroyed => simp [Call.destroys]
  | _ => simp [Call.destroys, Mem.cancel]

theorem FrameStep.disposes {q : Frame R} (h : FrameStep m q f m' p') : Disposes m m' ⟨q, none⟩ p' := by
  cases h with
  | release | finish | reported =>
    refine ⟨fun h0 => (by simp [Mem.release, Mem.finish, h0]), ?_⟩
    simp only [Pc.destroys, release_destroys, Option.any_none, true_and]
    simp only [Mem.release, Mem.finish]
    omega
  | acquire hne | report hne => exact ⟨fun h0 => absurd h0 hne, by simp [Pc.destroys]⟩
  | _ => exact ⟨id, by simp [Pc.destroys, Mem.receive, Mem.completeConnect, Mem.cancel, Mem.finish]⟩

theorem EnterStep.disposes (h : EnterStep m i m' p') : Disposes m m' {} p' := by
  cases h with
  | drop =>
    refine ⟨fun h0 => (by simp [Mem.release, h0]), ?_⟩
    simp only [Pc.destroys, release_destroys, Option.any_none, true_and]
    simp only [Mem.release]
    omega
  | _ => exact ⟨id, by simp [Pc.destroys, Mem.finish]⟩

theorem next_disposes (h : next t m p i = some (m', p')) (hle : p.refs ≤ m.refs) : Disposes m m' p p' := by
  rcases next_cases h with ⟨c, f, c', hc, -, hrun, rfl⟩ | ⟨hc, -, hne, rfl, hp⟩ | ⟨f, hc, -, hrun⟩ | ⟨rfl, he⟩
  · have hcall : c.refs ≤ m.refs := by
      simp only [Pc.refs, hc, Option.elim_some] at hle
      omega
    obtain ⟨hzero, hbegins⟩ := (runCall_step hrun).disposes hcall
    refine ⟨hzero, ?_⟩
    rw [← hbegins]
    simp [Pc.destroys, hc]
  · refine ⟨fun h0 => absurd h0 hne, ?_⟩
    rcases hp with ⟨-, rfl⟩ | ⟨-, rfl⟩ <;> simp [Pc.destroys, Call.destroys]
  · obtain ⟨q, c⟩ := p
    obtain rfl : c = none := hc
    exact (runFrame_step hrun).disposes
  · exact (enter_step he).disposes

/-- Without the destructor a step in which no call is made leaves the members as they are. -/
theorem next_untouched (h : next t m p i = some (m', p')) (h0 : p.refs = 0) : p.destroys = true ∨ Untouched m m' := by
  rcases next_apart h with ⟨c, f, c', hc, -, -⟩ | ⟨-, hl, hw, hr, -⟩
  · refine .inl ?_
    simp only [Pc.refs, hc, Option.elim_some] at h0
    rw [Pc.destroys, hc]
    cases c with
    | connect => simp [Call.refs] at h0
    | disconnect dtor =>
      cases dtor with
      | true => rfl
      | false => simp [Call.refs] at h0
  · exact .inr ⟨hl, hw, hr⟩

end

section

variable {ok : State Mem (Pc R) → Act (Input R) → Prop} {s : State Mem (Pc R)}

theorem disposes_holds {a : Act (Input R)} {m : Mem} {p : Pc R} (h : prog.Reach ok s)
    (hn : next a.thread s.mem (s.pc a.thread) a.input = some (m, p)) : Disposes s.mem m (s.pc a.thread) p := by
  obtain ⟨n, -, hle⟩ := (counts_holds h).le a.thread
  exact next_disposes hn (by omega)

theorem disposed_holds (h : prog.Reach ok s) : Disposed Mem.refs Pc.destroys s := by
  refine h.invariant (J := Disposed Mem.refs Pc.destroys)
    ⟨fun _ e => (by cases e), fun _ _ e _ => (by cases e)⟩ fun s a m p hr _ hi hn => ?_
  have hdis := disposes_holds hr hn
  refine hi.step hdis.zero fun hp => ?_
  cases hold : (s.pc a.thread).destroys with
  | true => exact .inl rfl
  | false => exact .inr (hdis.begins.mp ⟨hold, hp⟩)

theorem refs_eq_zero_iff (h : prog.Reach ok s) : s.mem.refs = 0 ↔
    s.mem.owned = false ∧ (∀ k, s.mem.connecting k = false) ∧ ∀ t, (s.pc t).refs = 0 := by
  have hcounts := counts_holds h
  constructor
  · intro h0
    obtain ⟨⟨K, hK, hsum⟩, hall⟩ := hcounts.none h0
    obtain ⟨how, hcard⟩ : s.mem.owned.toNat = 0 ∧ K.card = 0 := by omega
    refine ⟨by simpa using how, fun k => ?_, hall⟩
    by_contra hk
    have hmem : k ∈ K := (hK k).mpr (by simpa using hk)
    rw [Finset.card_eq_zero.mp hcard] at hmem
    exact Finset.notMem_empty k hmem
  · rintro ⟨how, hcon, hall⟩
    refine hcounts.eq_zero ?_ hall
    rintro n ⟨K, hK, rfl⟩
    have hempty : K = ∅ := by
      apply Finset.eq_empty_of_forall_notMem
      intro k hk
      rw [hK, hcon k] at hk
      cases hk
    rw [hempty, how]
    rfl

end

/-- Seen: the threads that come to the destructor. -/
def destructions (t : ℕ) (_ : Mem) (p : Pc R) (_ : Input R) (_ : Mem) (p' : Pc R) : List ℕ :=
  if p.destroys = false ∧ p'.destroys = true then [t] else []

/-- The owner lets go of the transport while thread 1 is in the message callback. -/
def leaving : List (Act (Input Unit)) :=
  connected 0 1 ++ [⟨1, .received 0 (.inl ())⟩] ++ going 1 3 ++ [⟨2, .drop⟩]

/-- **The life time of a transport.**  The counter is the number of the references of the owner, the calls, the
continuations and the pending connects.  The transport is alive as long as there is one; then one thread runs the
destructor, once; and from then on no `weak_ptr` can be locked, and no other thread uses a member. -/
theorem lifetime {ok : State Mem (Pc R) → Act (Input R) → Prop} {s : State Mem (Pc R)} {l : List ℕ}
    (h : prog.Trace ok destructions s l) : Counts s ∧ l.length = (if s.mem.refs = 0 then 1 else 0) ∧
      (s.mem.refs = 0 ↔ s.mem.owned = false ∧ (∀ k, s.mem.connecting k = false) ∧ ∀ t, (s.pc t).refs = 0) ∧
      (∀ t u, (s.pc t).destroys = true → (s.pc u).destroys = true → t = u) ∧
      (∀ t, (s.pc t).destroys = true → s.mem.refs = 0) ∧
      (s.mem.refs = 0 → ∀ a s', prog.step s a = some s' →
        s'.mem.refs = 0 ∧ ((s.pc a.thread).destroys = true ∨ Untouched s.mem s'.mem)) := by
  have hdisposed := disposed_holds h.reach
  refine ⟨counts_holds h.reach, ?_, refs_eq_zero_iff h.reach, hdisposed.alone, hdisposed.none, fun h0 a s' hs => ?_⟩
  · rw [← List.countP_true]
    refine Program.Trace.once Mem.refs (fun _ => true) Nat.one_ne_zero ?_ h
    intro s a l m p hr _ hn
    have hdis := disposes_holds hr.reach hn
    refine ⟨hdis.zero, ?_⟩
    rw [List.countP_true, destructions]
    by_cases hlast : (s.pc a.thread).destroys = false ∧ p.destroys = true
    · rw [if_pos hlast, if_pos (hdis.begins.mp hlast)]
      rfl
    · rw [if_neg hlast, if_neg fun hc => hlast (hdis.begins.mpr hc)]
      rfl
  · obtain ⟨m, p, hn, rfl⟩ := Program.step_eq_some.mp hs
    have hnone := ((refs_eq_zero_iff h.reach).mp h0).2.2 a.thread
    exact ⟨(disposes_holds h.reach hn).zero h0, next_untouched (t := a.thread) hn hnone⟩

/-- Thread 1 comes back from the callback, asks the client once more, and lets go of the last reference. -/
theorem lifetime_leaving : ∃ s : State Mem (Pc Unit), (s.pc 1).call = some (.disconnect true .lock) ∧ s.mem.refs = 0 ∧
    (∀ u, (s.pc u).destroys = true → u = 1) ∧
    ∀ a s', prog.step s a = some s' →
      s'.mem.refs = 0 ∧ ((s.pc a.thread).destroys = true ∨ Untouched s.mem s'.mem) := by
  obtain ⟨s, l, h, hf⟩ := prog.exists_of_history destructions Test.all (leaving ++ going 1 5)
    (fun s l => ((s.pc 1).call, l)) (some (.disconnect true .lock), [1]) rfl
  simp only [Prod.mk.injEq] at hf
  have hd : (s.pc 1).destroys = true := by rw [Pc.destroys, hf.1]; rfl
  obtain ⟨-, -, -, halone, hnone, hafter⟩ := lifetime h
  exact ⟨s, hf.1, hnone 1 hd, fun u hu => halone u 1 hu hd, hafter (hnone 1 hd)⟩

/-! ## How far a thread is from its end -/

def ConnectPc.todo : ConnectPc → ℕ
  | .lock => 17 | .check => 16 | .factory => 15 | .setClient _ => 14 | .connect _ => 13 | .setCts _ => 12
  | .unlock _ | .unlockThrow => 11 | .returned _ | .thrown => 10

def DisconnectPc.todo : DisconnectPc → ℕ
  | .lock => 8 | .check => 7 | .cancel => 6 | .fetch => 5 | .unlock _ => 4 | .close _ | .unlockIdle => 3
  | .returned | .thrown => 1

/-- A call that returns may go on as the destructor. -/
def Call.todo : Call → ℕ
  | .connect p => p.todo
  | .disconnect dtor p => p.todo + if dtor then 0 else 9

/-- … and so may a continuation. -/
def Frame.todo : Frame R → ℕ
  | .idle => 0
  | .connected _ p => match p with
    | .fetch => 13 | .receive _ | .cancel => 12 | .set | .setException => 11 | .release => 10
  | .message _ _ p => match p with
    | .scheduled => 17 | .acquire => 16 | .process => 15 | .processing => 14 | .check => 13 | .fetch => 12
    | .receive _ => 11 | .release _ => 10
  | .observe _ p => match p with
    | .quiet => 1 | .cancel => 14 | .close => 13 | .acquire => 12 | .error => 11 | .erroring => 10

def Pc.todo (p : Pc R) : ℕ := p.frame.todo + p.call.elim 0 Call.todo

theorem release_todo (m : Mem) : m.release.2.elim 0 Call.todo ≤ 8 := by
  rcases release_call m with h | h <;> rw [h] <;> decide

section

variable {m m' : Mem} {p : Pc R}

/-- A call that goes on gets nearer to its end. -/
theorem CallStep.todo_lt {c : Call} {q : Option Call} (h : CallStep m c none m' q) : q.elim 0 Call.todo < c.todo := by
  have hrel := release_todo m
  cases h with
  | returned | thrown =>
    simp only [Call.todo, ConnectPc.todo]
    omega
  | destroyed hp => rcases hp with rfl | rfl <;> decide
  | stopped hp =>
    rcases hp with rfl | rfl
    all_goals
      simp only [Call.todo, DisconnectPc.todo, Bool.false_eq_true, if_false]
      omega
  | _ => simp [Call.todo, ConnectPc.todo, DisconnectPc.todo]

/-- … and so does a continuation. -/
theorem FrameStep.todo_lt {q : Frame R} (h : FrameStep m q none m' p) : p.todo < q.todo := by
  have hleave : ∀ m₁ : Mem, Pc.todo (⟨.idle, m₁.release.2⟩ : Pc R) < 10 := by
    intro m₁
    have := release_todo m₁
    simp only [Pc.todo, Frame.todo]
    omega
  cases h with
  | release | finish | reported => exact hleave _
  | _ => simp [Pc.todo, Frame.todo]

/-- A call goes on, unless it is to take the lock that another one has. -/
theorem runCall_enabled {c : Call} (h : c.locked = true ∨ m.startStopLock = false) :
    (runCall m c none).isSome = true := by
  cases c with
  | connect p =>
    cases p with
    | lock =>
      have hfree : m.startStopLock = false := h.resolve_left (by decide)
      simp [runCall, runConnect, hfree]
    | check =>
      simp only [runCall, runConnect]
      split <;> rfl
    | _ => rfl
  | disconnect dtor p =>
    cases p with
    | lock =>
      have hfree : m.startStopLock = false := h.resolve_left (by simp [Call.locked])
      simp [runCall, runDisconnect, hfree]
    | check =>
      simp only [runCall, runDisconnect]
      split <;> rfl
    | _ => rfl

theorem next_go (t : ℕ) (hp : p.todo ≠ 0) (h : locked p = true ∨ m.startStopLock = false) :
    ∃ m' p', next t m p (.go none) = some (m', p') ∧ p'.todo < p.todo := by
  obtain ⟨q, c⟩ := p
  cases c with
  | some c =>
    obtain ⟨⟨m', q'⟩, hr⟩ := Option.isSome_iff_exists.mp (runCall_enabled (m := m) (c := c) (by simpa [locked] using h))
    have hlt := (runCall_step hr).todo_lt
    refine ⟨m', ⟨q, q'⟩, by simp [next, hr], ?_⟩
    simp only [Pc.todo, Option.elim_some]
    omega
  | none =>
    obtain ⟨⟨m', p'⟩, hr⟩ : ∃ r, runFrame m q none = some r := by
      cases q with
      | idle => exact absurd rfl hp
      | _ => exact ⟨_, rfl⟩
    exact ⟨m', p', by simp [next, hr], (runFrame_step hr).todo_lt⟩

end

/-! ## The destructor runs in the end -/

/-- A step by which a thread goes on, and the clients do what they are asked. -/
def Goes (_ : State Mem (Pc R)) (a : Act (Input R)) : Prop := a.input = .go none

/-- … or the connect of a client is answered. -/
def Answers (_ : State Mem (Pc R)) (a : Act (Input R)) : Prop := a.input = .go none ∨ ∃ k, a.input = .connected k none

section

variable {s s' : State Mem (Pc R)}

theorem eq_idle_of_todo {p : Pc R} (h : p.todo = 0) : p = {} := by
  obtain ⟨q, c⟩ := p
  simp only [Pc.todo, Nat.add_eq_zero_iff] at h
  obtain ⟨hq, hc⟩ := h
  have hframe : q = .idle := by
    cases q with
    | idle => rfl
    | connected k p | message i x p | observe i p => cases p <;> cases hq
  have hcall : c = none := by
    cases c with
    | none => rfl
    | some c =>
      cases c with
      | connect p => cases p <;> cases hc
      | disconnect dtor p => cases p <;> cases dtor <;> cases hc
  rw [hframe, hcall]

/-- What is under way comes to its end. -/
theorem exists_idle (h : prog.Reachable s) : ∃ s', prog.Runs Goes s s' ∧ ∀ t, s'.pc t = {} := by
  obtain ⟨s', hr, hs'⟩ : ∃ s', prog.Runs Goes s s' ∧ (False ∨ ∀ t, (s'.pc t).todo = 0) := by
    refine h.exists_rest Pc.todo (fun _ => False) rfl (fun _ _ _ => trivial) ?_
    intro s hs _ hbusy
    have howned : Owned Mem.startStopLock locked s := hs.owned rfl fun t _ _ _ _ _ hn => next_lock (t := t) hn
    obtain ⟨t, ht, hl⟩ : ∃ t, (s.pc t).todo ≠ 0 ∧ (locked (s.pc t) = true ∨ s.mem.startStopLock = false) := by
      cases hl : s.mem.startStopLock with
      | false =>
        obtain ⟨t, ht⟩ := hbusy
        exact ⟨t, ht, .inr rfl⟩
      | true =>
        obtain ⟨t, ht⟩ := howned hl
        refine ⟨t, fun h0 => ?_, .inl ht⟩
        rw [eq_idle_of_todo h0] at ht
        cases ht
    obtain ⟨m, p, hn, hlt⟩ := next_go (m := s.mem) t ht hl
    exact ⟨_, .single (t := t) rfl hn, .inr (.set hlt)⟩
  exact ⟨s', hr, fun t => eq_idle_of_todo (hs'.resolve_left id t)⟩

/-- A step by which a thread goes on begins no call. -/
theorem next_goes {t : ℕ} {m m' : Mem} {p p' : Pc R} (h : next t m p (.go none) = some (m', p'))
    (hnone : ∀ q, p.call ≠ some (.connect q)) :
    m'.connecting = m.connecting ∧ m'.owned = m.owned ∧ ∀ q, p'.call ≠ some (.connect q) := by
  have hrel : ∀ (m₁ : Mem) q, m₁.release.2 ≠ some (.connect q) := by
    intro m₁ q
    rcases release_call m₁ with e | e <;> rw [e] <;> simp
  rcases next_cases h with ⟨c, f, c', hc, -, hrun, rfl⟩ | ⟨-, -, -, -, hi⟩ | ⟨f, -, -, hrun⟩ | ⟨-, he⟩
  · cases c with
    | connect q => exact absurd hc (hnone q)
    | disconnect dtor q =>
      cases runCall_step hrun with
      | stopped => exact ⟨rfl, rfl, hrel _⟩
      | _ => exact ⟨rfl, rfl, by simp⟩
  · rcases hi with ⟨hi, -⟩ | ⟨hi, -⟩ <;> cases hi
  · generalize p.frame = r at hrun
    cases runFrame_step hrun with
    | release | finish | reported => exact ⟨rfl, rfl, hrel _⟩
    | _ => exact ⟨rfl, rfl, by simp⟩
  · cases he

/-- No thread is in `connect()`, the owner has let go of the transport, and `K` are the pending connects. -/
structure Left (K : Finset ℕ) (s : State Mem (Pc R)) : Prop where
  calls : ∀ t p, (s.pc t).call ≠ some (.connect p)
  owned : s.mem.owned = false
  pending : ∀ k, k ∈ K ↔ s.mem.connecting k = true

/-- While nothing new is begun, the pending connects stay the same. -/
theorem Left.goes {K : Finset ℕ} (h : Left K s) (hr : prog.Runs Goes s s') : Left K s' := by
  induction hr with
  | refl => exact h
  | @step s₁ s₂ a _ hgo hs ih =>
    obtain ⟨m, p, hn, rfl⟩ := Program.step_eq_some.mp hs
    have hgo : a.input = .go none := hgo
    have hn : next a.thread s₁.mem (s₁.pc a.thread) a.input = some (m, p) := hn
    rw [hgo] at hn
    obtain ⟨hcon, how, hcall⟩ := next_goes hn (ih.calls a.thread)
    refine ⟨fun t q => ?_, how.trans ih.owned, fun k => ?_⟩
    · by_cases hta : t = a.thread
      · subst hta
        rw [State.set_pc_self]
        exact hcall q
      · rw [State.set_pc_of_ne _ _ _ _ hta]
        exact ih.calls t q
    · rw [State.set_mem, hcon]
      exact ih.pending k

theorem answers_of_goes (hr : prog.Runs Goes s s') : prog.Runs Answers s s' := by
  induction hr with
  | refl => exact .refl
  | step _ hgo hs ih => exact ih.step (.inl hgo) hs

/-- The pending connects are answered one after another. -/
theorem exists_released (h : prog.Reachable s) (hidle : ∀ t, s.pc t = {}) {K : Finset ℕ} (hleft : Left K s) :
    ∃ s', prog.Runs Answers s s' ∧ Left ∅ s' ∧ ∀ t, s'.pc t = {} := by
  induction K using Finset.strongInduction generalizing s with
  | _ K ih =>
    by_cases hK : K = ∅
    · exact ⟨s, .refl, hK ▸ hleft, hidle⟩
    obtain ⟨k, hk⟩ := Finset.nonempty_iff_ne_empty.mpr hK
    let m : Mem := { s.mem with connecting := Function.update s.mem.connecting k false }
    let s₁ : State Mem (Pc R) := s.set 0 m ⟨.connected k .fetch, none⟩
    have hpending : s.mem.connecting k = true := (hleft.pending k).mp hk
    have hr₁ : prog.Runs Answers s s₁ := .single (t := 0) (i := .connected k none) (.inr ⟨k, rfl⟩) (by
      show next 0 s.mem (s.pc 0) (.connected k none) = _
      rw [hidle 0]
      simp only [next, enter, hpending, if_true]
      rfl)
    have hleft₁ : Left (K.erase k) s₁ := by
      refine ⟨fun t q => ?_, hleft.owned, fun j => ?_⟩
      · by_cases ht : t = 0
        · subst ht
          rw [State.set_pc_self]
          simp
        · rw [State.set_pc_of_ne _ _ _ _ ht]
          exact hleft.calls t q
      · show j ∈ K.erase k ↔ Function.update s.mem.connecting k false j = true
        by_cases hj : j = k
        · simp [hj]
        · simp [hj, hleft.pending]
    have h₁ : prog.Reachable s₁ := h.runs hr₁ fun _ _ _ => trivial
    obtain ⟨s₂, hr₂, hidle₂⟩ := exists_idle h₁
    obtain ⟨s', hr', hs'⟩ := ih (K.erase k) (Finset.erase_ssubset hk) (h₁.runs hr₂ fun _ _ _ => trivial) hidle₂
      (hleft₁.goes hr₂)
    exact ⟨s', (hr₁.trans (answers_of_goes hr₂)).trans hr', hs'⟩

/-- The destructor has still to stop the loop. -/
def Call.closes : Call → Bool
  | .disconnect dtor p => match p with
    | .lock | .check | .cancel => dtor
    | _ => false
  | _ => false

/-- The transport that is gone has stopped its loop, or is about to. -/
def Closing (s : State Mem (Pc R)) : Prop :=
  s.mem.refs = 0 → s.mem.cancelled s.mem.receiveLoopCts = true ∨ ∃ t, (s.pc t).call.any Call.closes = true

/-- … and comes to do so. -/
theorem CallStep.closes {m m' : Mem} {c : Call} {f : Option Fault} {q : Option Call} (h : CallStep m c f m' q)
    (hc : c.closes = true) : q.any Call.closes = true ∨ m'.cancelled m'.receiveLoopCts = true := by
  cases h with
  | lockStop | stopping => exact .inl hc
  | idle hcan => exact .inr hcan
  | cancel => exact .inr (by simp [Mem.cancel])
  | destroyed hp | stopped hp => rcases hp with rfl | rfl <;> cases hc
  | _ => cases hc

/-- The destructor begins with its call of `disconnect()`. -/
theorem next_begins {t : ℕ} {m m' : Mem} {p p' : Pc R} {i : Input R} (h : next t m p i = some (m', p'))
    (hold : p.destroys = false) (hnew : p'.destroys = true) : p'.call.any Call.closes = true := by
  rcases next_apart h with ⟨c, f, c', hc, hrun, rfl⟩ | ⟨-, -, -, -, hp⟩
  · have hrel : ∀ m₁ : Mem, m₁.release.2.any Call.destroys = true → m₁.release.2.any Call.closes = true := by
      intro m₁ hd
      rcases release_call m₁ with e | e <;> rw [e] at hd ⊢
      · cases hd
      · rfl
    have hold : c.destroys = false := by
      simpa [Pc.destroys, hc] using hold
    have hnew : c'.any Call.destroys = true := hnew
    cases runCall_step hrun with
    | returned | thrown | stopped => exact hrel _ hnew
    | destroyed => cases hold
    | _ => exact absurd (hold.symm.trans hnew) (by decide)
  · unfold Pc.destroys at hnew
    rcases hp with hp | hp | ⟨dtor, hp⟩ <;> rw [hp] at hnew ⊢
    · cases hnew
    · cases hnew
    · exact hnew

theorem closing_holds (h : prog.Reachable s) : Closing s := by
  refine h.invariant (J := Closing) (fun h0 => (by cases h0)) ?_
  intro s a m p hr _ ih hn h0
  have hdis := disposes_holds hr hn
  have hmono : ∀ k, s.mem.cancelled k = true → m.cancelled k = true := fun k =>
    (next_hands (bounded_holds hr) (unique_holds hr) hn).cancelled_mono
  by_cases hbefore : s.mem.refs = 0
  · have hfree := ((refs_eq_zero_iff hr).mp hbefore).2.2
    have hcts : m.receiveLoopCts = s.mem.receiveLoopCts := by
      rcases next_cts (t := a.thread) hn with ⟨hcts, -⟩ | ⟨k, hc, -⟩
      · exact hcts
      · have hone := hfree a.thread
        simp [Pc.refs, hc, Call.refs] at hone
    rw [State.set_mem, hcts]
    rcases ih hbefore with hcan | ⟨t, ht⟩
    · exact .inl (hmono _ hcan)
    by_cases hta : t = a.thread
    · subst hta
      obtain ⟨c, hc, hcl⟩ : ∃ c, (s.pc a.thread).call = some c ∧ c.closes = true := by
        simpa [Option.any_eq_true] using ht
      rcases next_cases (t := a.thread) hn with ⟨c', f, q, hc', -, hrun, rfl⟩ | ⟨hnone, -⟩ | ⟨f, hnone, -⟩ | ⟨hp, -⟩
      · rw [hc] at hc'
        cases hc'
        rcases (runCall_step hrun).closes hcl with hq | hcan
        · exact .inr ⟨a.thread, by rw [State.set_pc_self]; exact hq⟩
        · exact .inl (hcts ▸ hcan)
      · rw [hc] at hnone
        cases hnone
      · rw [hc] at hnone
        cases hnone
      · rw [hp] at hc
        cases hc
    · exact .inr ⟨t, by rw [State.set_pc_of_ne _ _ _ _ hta]; exact ht⟩
  · obtain ⟨hold, hnew⟩ := hdis.begins.mpr ⟨hbefore, h0⟩
    refine .inr ⟨a.thread, ?_⟩
    rw [State.set_pc_self]
    exact next_begins (t := a.thread) hn hold hnew

theorem next_owned {t : ℕ} {m m' : Mem} {p p' : Pc R} {i : Input R} (h : next t m p i = some (m', p'))
    (ho : m.owned = false) : m'.owned = false := by
  rcases next_cases h with ⟨c, f, c', -, -, hrun, rfl⟩ | ⟨-, -, -, rfl, -⟩ | ⟨f, -, -, hrun⟩ | ⟨-, he⟩
  · cases runCall_step hrun <;> exact ho
  · exact ho
  · generalize p.frame = q at hrun
    cases runFrame_step hrun <;> exact ho
  · cases enter_step he with
    | drop => rfl
    | _ => exact ho

/-- **A transport that its owner has let go of is destroyed in the end**, without another response: once the calls and
continuations under way have gone on and the pending connects are answered, the destructor has run, and every loop
that is still waiting for a response is cancelled. -/
theorem destroyed_in_the_end (h : prog.Reachable s) (ho : s.mem.owned = false) :
    ∃ s', prog.Runs Answers s s' ∧ s'.mem.refs = 0 ∧ s'.mem.startStopLock = false ∧ (∀ t, s'.pc t = {}) ∧
      ∀ k, Refers s' k → s'.mem.cancelled k = true := by
  obtain ⟨s₁, hr₁, hidle₁⟩ := exists_idle h
  have h₁ := h.runs hr₁ fun _ _ _ => trivial
  have ho₁ : s₁.mem.owned = false := by
    clear hidle₁ h₁
    induction hr₁ with
    | refl => exact ho
    | @step _ _ a _ _ hs ih =>
      obtain ⟨m, p, hn, rfl⟩ := Program.step_eq_some.mp hs
      exact next_owned (t := a.thread) hn ih
  obtain ⟨n, -, ⟨K, hK, -⟩, -⟩ := counts_holds h₁
  have hleft₁ : Left K s₁ := ⟨fun t p => (by rw [hidle₁ t]; simp), ho₁, hK⟩
  obtain ⟨s', hr', hleft, hidle⟩ := exists_released h₁ hidle₁ hleft₁
  have h' := h₁.runs hr' fun _ _ _ => trivial
  have hrefs : s'.mem.refs = 0 := by
    refine (refs_eq_zero_iff h').mpr ⟨hleft.owned, fun k => ?_, fun t => by rw [hidle t]; rfl⟩
    by_contra hk
    exact Finset.notMem_empty k ((hleft.pending k).mpr (by simpa using hk))
  have hcts : s'.mem.cancelled s'.mem.receiveLoopCts = true := by
    refine (closing_holds h' hrefs).resolve_right fun ⟨t, ht⟩ => ?_
    rw [hidle t] at ht
    cases ht
  refine ⟨s', (answers_of_goes hr₁).trans hr', hrefs, ?_, hidle, fun k hk => ?_⟩
  · by_contra hl
    have howned : Owned Mem.startStopLock locked s' := h'.owned rfl fun t _ _ _ _ _ hn => next_lock (t := t) hn
    obtain ⟨t, ht⟩ := howned (by simpa using hl)
    rw [hidle t] at ht
    cases ht
  · rcases (numbered_holds h').refers k hk with rfl | ⟨u, hu⟩ | ⟨-, hcan⟩
    · exact hcts
    · exact absurd hu (hleft.calls u _)
    · exact hcan

end

theorem destroyed_in_the_end_leaving : ∃ s : State Mem (Pc Unit),
    (s.mem.refs = 1 ∧ (s.pc 1).frame = .message ⟨1, 1⟩ () .processing) ∧
    ∃ s', prog.Runs Answers s s' ∧ s'.mem.refs = 0 ∧ s'.mem.startStopLock = false ∧ (∀ t, s'.pc t = {}) ∧
      ∀ k, Refers s' k → s'.mem.cancelled k = true := by
  obtain ⟨s, h, hf⟩ := prog.exists_of_run Test.all leaving
    (fun s => (s.mem.owned, s.mem.refs, (s.pc 1).frame)) (false, 1, .message ⟨1, 1⟩ () .processing) rfl
  simp only [Prod.mk.injEq] at hf
  exact ⟨s, hf.2, destroyed_in_the_end h hf.1⟩

end SignalRClient.Transport
