import SignalRClient.Transport.Model

/-!
# The steps of the transport

What a step of a call, of a continuation and of a thread that begins a continuation can do, each kind of step with
its guard and what it leaves: `CallStep`, `FrameStep` and `EnterStep`.  Everything that is proved of all steps is
proved by cases on them.
-/

namespace SignalRClient.Transport

variable {R : Type}

/-! ## Calls -/

inductive CallStep (m : Mem) : Call → Option Fault → Mem → Option Call → Prop
  | lock {f : Option Fault} : m.startStopLock = false →
      CallStep m (.connect .lock) f { m with startStopLock := true } (some (.connect .check))
  | accept {f : Option Fault} : m.cancelled m.receiveLoopCts = true →
      CallStep m (.connect .check) f m (some (.connect .factory))
  | reject {f : Option Fault} : m.cancelled m.receiveLoopCts = false →
      CallStep m (.connect .check) f m (some (.connect .unlockThrow))
  | make : CallStep m (.connect .factory) none { m with connects := m.connects + 1 }
      (some (.connect (.setClient (m.connects + 1))))
  | noClient {g : Fault} : CallStep m (.connect .factory) (some g) m (some (.connect .unlockThrow))
  | setClient {f : Option Fault} {k : ℕ} :
      CallStep m (.connect (.setClient k)) f { m with websocketClient := k } (some (.connect (.connect k)))
  | attach {k : ℕ} : CallStep m (.connect (.connect k)) none
      { m with connecting := Function.update m.connecting k true, refs := m.refs + 1 } (some (.connect (.setCts k)))
  | noTask {g : Fault} {k : ℕ} : CallStep m (.connect (.connect k)) (some g) m (some (.connect .unlockThrow))
  | setCts {f : Option Fault} {k : ℕ} :
      CallStep m (.connect (.setCts k)) f { m with receiveLoopCts := k } (some (.connect (.unlock k)))
  | unlock {f : Option Fault} {k : ℕ} :
      CallStep m (.connect (.unlock k)) f { m with startStopLock := false } (some (.connect (.returned k)))
  | unlockThrow {f : Option Fault} :
      CallStep m (.connect .unlockThrow) f { m with startStopLock := false } (some (.connect .thrown))
  | returned {f : Option Fault} {k : ℕ} : CallStep m (.connect (.returned k)) f m.release.1 m.release.2
  | thrown {f : Option Fault} : CallStep m (.connect .thrown) f m.release.1 m.release.2
  | lockStop {f : Option Fault} {d : Bool} : m.startStopLock = false →
      CallStep m (.disconnect d .lock) f { m with startStopLock := true } (some (.disconnect d .check))
  | idle {f : Option Fault} {d : Bool} : m.cancelled m.receiveLoopCts = true →
      CallStep m (.disconnect d .check) f m (some (.disconnect d .unlockIdle))
  | stopping {f : Option Fault} {d : Bool} : m.cancelled m.receiveLoopCts = false →
      CallStep m (.disconnect d .check) f m (some (.disconnect d .cancel))
  | cancel {f : Option Fault} {d : Bool} :
      CallStep m (.disconnect d .cancel) f (m.cancel m.receiveLoopCts) (some (.disconnect d .fetch))
  | fetch {f : Option Fault} {d : Bool} :
      CallStep m (.disconnect d .fetch) f m (some (.disconnect d (.unlock m.websocketClient)))
  | unlockStop {f : Option Fault} {d : Bool} {client : ℕ} : CallStep m (.disconnect d (.unlock client)) f
      { m with startStopLock := false } (some (.disconnect d (.close client)))
  | close {d : Bool} {client : ℕ} : CallStep m (.disconnect d (.close client)) none m (some (.disconnect d .returned))
  | noClose {g : Fault} {d : Bool} {client : ℕ} :
      CallStep m (.disconnect d (.close client)) (some g) m (some (.disconnect d .thrown))
  | unlockIdle {f : Option Fault} {d : Bool} :
      CallStep m (.disconnect d .unlockIdle) f { m with startStopLock := false } (some (.disconnect d .returned))
  /-- the destructor holds no reference -/
  | destroyed {f : Option Fault} {p : DisconnectPc} : p = .returned ∨ p = .thrown →
      CallStep m (.disconnect true p) f m none
  | stopped {f : Option Fault} {p : DisconnectPc} : p = .returned ∨ p = .thrown →
      CallStep m (.disconnect false p) f m.release.1 m.release.2

theorem runCall_step {m m' : Mem} {c : Call} {f : Option Fault} {q : Option Call} (h : runCall m c f = some (m', q)) :
    CallStep m c f m' q := by
  cases c with
  | connect p =>
    cases p with
    | lock =>
      simp only [runCall, runConnect] at h
      split at h <;> cases h
      exact .lock (by simp_all)
    | check =>
      simp only [runCall, runConnect] at h
      split at h <;> cases h
      · exact .accept (by assumption)
      · exact .reject (by simp_all)
    | factory =>
      cases f with
      | none => cases h; exact .make
      | some g => cases h; exact .noClient
    | setClient k => cases h; exact .setClient
    | connect k =>
      cases f with
      | none => cases h; exact .attach
      | some g => cases h; exact .noTask
    | setCts k => cases h; exact .setCts
    | unlock k => cases h; exact .unlock
    | unlockThrow => cases h; exact .unlockThrow
    | returned k => cases h; exact .returned
    | thrown => cases h; exact .thrown
  | disconnect d p =>
    cases p with
    | lock =>
      simp only [runCall, runDisconnect] at h
      split at h <;> cases h
      exact .lockStop (by simp_all)
    | check =>
      simp only [runCall, runDisconnect] at h
      split at h <;> cases h
      · exact .idle (by assumption)
      · exact .stopping (by simp_all)
    | cancel => cases h; exact .cancel
    | fetch => cases h; exact .fetch
    | unlock client => cases h; exact .unlockStop
    | close client =>
      cases f with
      | none => cases h; exact .close
      | some g => cases h; exact .noClose
    | unlockIdle => cases h; exact .unlockIdle
    | returned =>
      cases d with
      | true => cases h; exact .destroyed (.inl rfl)
      | false => cases h; exact .stopped (.inl rfl)
    | thrown =>
      cases d with
      | true => cases h; exact .destroyed (.inr rfl)
      | false => cases h; exact .stopped (.inr rfl)

/-- A call goes on, or lets go of its reference. -/
theorem CallStep.connect {m m' : Mem} {f : Option Fault} {p : ConnectPc} {q : Option Call}
    (h : CallStep m (.connect p) f m' q) : (∃ p', q = some (.connect p')) ∨ q = m.release.2 := by
  cases h with
  | returned | thrown => exact .inr rfl
  | _ => exact .inl ⟨_, rfl⟩

theorem CallStep.disconnect {m m' : Mem} {f : Option Fault} {d : Bool} {p : DisconnectPc} {q : Option Call}
    (h : CallStep m (.disconnect d p) f m' q) :
    (∃ p', q = some (.disconnect d p')) ∨ q = none ∨ q = m.release.2 := by
  cases h with
  | destroyed => exact .inr (.inl rfl)
  | stopped => exact .inr (.inr rfl)
  | _ => exact .inl ⟨_, rfl⟩

/-! ## Continuations -/

inductive FrameStep (m : Mem) : Frame R → Option Fault → Mem → Pc R → Prop
  | fetchFirst {f : Option Fault} {k : ℕ} :
      FrameStep m (.connected k .fetch) f m ⟨.connected k (.receive m.websocketClient), none⟩
  | receiveFirst {k client : ℕ} :
      FrameStep m (.connected k (.receive client)) none (m.receive ⟨k, client⟩) ⟨.connected k .set, none⟩
  | refuse {g : Fault} {k client : ℕ} : g ≠ .other →
      FrameStep m (.connected k (.receive client)) (some g) m ⟨.connected k .cancel, none⟩
  /-- the continuation handles std exceptions only -/
  | unhandled {k client : ℕ} :
      FrameStep m (.connected k (.receive client)) (some .other) m ⟨.connected k .release, none⟩
  | set {f : Option Fault} {k : ℕ} :
      FrameStep m (.connected k .set) f (m.completeConnect k .set) ⟨.connected k .release, none⟩
  | cancel {f : Option Fault} {k : ℕ} :
      FrameStep m (.connected k .cancel) f (m.cancel k) ⟨.connected k .setException, none⟩
  | setException {f : Option Fault} {k : ℕ} :
      FrameStep m (.connected k .setException) f (m.completeConnect k .failed) ⟨.connected k .release, none⟩
  | release {f : Option Fault} {k : ℕ} :
      FrameStep m (.connected k .release) f m.release.1 ⟨.idle, m.release.2⟩
  | skip {f : Option Fault} {i : Iteration} {x : R} : m.cancelled i.loop = true →
      FrameStep m (.message i x .scheduled) f (m.finish i (some .canceled)) {}
  | begin {f : Option Fault} {i : Iteration} {x : R} : m.cancelled i.loop = false →
      FrameStep m (.message i x .scheduled) f m ⟨.message i x .acquire, none⟩
  | expired {f : Option Fault} {i : Iteration} {x : R} : m.refs = 0 →
      FrameStep m (.message i x .acquire) f (m.finish i none) {}
  | acquire {f : Option Fault} {i : Iteration} {x : R} : m.refs ≠ 0 →
      FrameStep m (.message i x .acquire) f { m with refs := m.refs + 1 } ⟨.message i x .process, none⟩
  | process {i : Iteration} {x : R} : FrameStep m (.message i x .process) none m ⟨.message i x .processing, none⟩
  | processing {i : Iteration} {x : R} : FrameStep m (.message i x .processing) none m ⟨.message i x .check, none⟩
  | throw {g : Fault} {i : Iteration} {x : R} {p : MessagePc} :
      p = .process ∨ p = .processing ∨ (∃ client, p = .receive client) →
      FrameStep m (.message i x p) (some g) m ⟨.message i x (.release (some g)), none⟩
  | stop {f : Option Fault} {i : Iteration} {x : R} : m.cancelled i.loop = true →
      FrameStep m (.message i x .check) f m ⟨.message i x (.release none), none⟩
  | goOn {f : Option Fault} {i : Iteration} {x : R} : m.cancelled i.loop = false →
      FrameStep m (.message i x .check) f m ⟨.message i x .fetch, none⟩
  | fetch {f : Option Fault} {i : Iteration} {x : R} :
      FrameStep m (.message i x .fetch) f m ⟨.message i x (.receive m.websocketClient), none⟩
  | receive {i : Iteration} {x : R} {client : ℕ} : FrameStep m (.message i x (.receive client)) none
      (m.receive ⟨i.loop, client⟩) ⟨.message i x (.release none), none⟩
  | finish {f g : Option Fault} {i : Iteration} {x : R} : FrameStep m (.message i x (.release g)) f
      (m.finish i g).release.1 ⟨.idle, (m.finish i g).release.2⟩
  | quiet {f : Option Fault} {i : Iteration} : FrameStep m (.observe i .quiet) f (m.cancel i.loop) {}
  | fail {f : Option Fault} {i : Iteration} :
      FrameStep m (.observe i .cancel) f (m.cancel i.loop) ⟨.observe i .close, none⟩
  | close {i : Iteration} : FrameStep m (.observe i .close) none m ⟨.observe i .acquire, none⟩
  | noClose {g : Fault} {i : Iteration} : FrameStep m (.observe i .close) (some g) m {}
  | gone {f : Option Fault} {i : Iteration} : m.refs = 0 → FrameStep m (.observe i .acquire) f m {}
  | report {f : Option Fault} {i : Iteration} : m.refs ≠ 0 →
      FrameStep m (.observe i .acquire) f { m with refs := m.refs + 1 } ⟨.observe i .error, none⟩
  | error {f : Option Fault} {i : Iteration} : FrameStep m (.observe i .error) f m ⟨.observe i .erroring, none⟩
  | reported {f : Option Fault} {i : Iteration} :
      FrameStep m (.observe i .erroring) f m.release.1 ⟨.idle, m.release.2⟩

theorem runFrame_step {m m' : Mem} {q : Frame R} {f : Option Fault} {p : Pc R} (h : runFrame m q f = some (m', p)) :
    FrameStep m q f m' p := by
  cases q with
  | idle => cases h
  | connected k q =>
    have h := Option.some.inj h
    cases q with
    | fetch => cases h; exact .fetchFirst
    | receive client =>
      rcases f with _ | _ | _ | _
      · cases h; exact .receiveFirst
      · cases h; exact .refuse (by decide)
      · cases h; exact .refuse (by decide)
      · cases h; exact .unhandled
    | set => cases h; exact .set
    | cancel => cases h; exact .cancel
    | setException => cases h; exact .setException
    | release => cases h; exact .release
  | message i x q =>
    have h := Option.some.inj h
    cases q with
    | scheduled =>
      simp only [runMessage] at h
      split at h <;> cases h
      · exact .skip (by assumption)
      · exact .begin (by simp_all)
    | acquire =>
      simp only [runMessage] at h
      split at h <;> cases h
      · exact .expired (by assumption)
      · exact .acquire (by assumption)
    | process =>
      cases f with
      | none => cases h; exact .process
      | some g => cases h; exact .throw (.inl rfl)
    | processing =>
      cases f with
      | none => cases h; exact .processing
      | some g => cases h; exact .throw (.inr (.inl rfl))
    | check =>
      simp only [runMessage] at h
      split at h <;> cases h
      · exact .stop (by assumption)
      · exact .goOn (by simp_all)
    | fetch => cases h; exact .fetch
    | receive client =>
      cases f with
      | none => cases h; exact .receive
      | some g => cases h; exact .throw (.inr (.inr ⟨client, rfl⟩))
    | release g => cases h; exact .finish
  | observe i q =>
    have h := Option.some.inj h
    cases q with
    | quiet => cases h; exact .quiet
    | cancel => cases h; exact .fail
    | close =>
      cases f with
      | none => cases h; exact .close
      | some g => cases h; exact .noClose
    | acquire =>
      simp only [runObserve] at h
      split at h <;> cases h
      · exact .gone (by assumption)
      · exact .report (by assumption)
    | error => cases h; exact .error
    | erroring => cases h; exact .reported

/-! ## Beginnings -/

inductive EnterStep (m : Mem) : Input R → Mem → Pc R → Prop
  | drop : m.owned = true → EnterStep m .drop ({ m with owned := false } : Mem).release.1
      ⟨.idle, ({ m with owned := false } : Mem).release.2⟩
  | connected {k : ℕ} : m.connecting k = true → EnterStep m (.connected k none)
      { m with connecting := Function.update m.connecting k false } ⟨.connected k .fetch, none⟩
  | connectFailed {g : Fault} {k : ℕ} : g ≠ .other → m.connecting k = true → EnterStep m (.connected k (some g))
      { m with connecting := Function.update m.connecting k false } ⟨.connected k .cancel, none⟩
  | connectUnhandled {k : ℕ} : m.connecting k = true → EnterStep m (.connected k (some .other))
      { m with connecting := Function.update m.connecting k false } ⟨.connected k .release, none⟩
  | received {r : ℕ} {i : Iteration} {x : R} : m.receiving r = some i →
      EnterStep m (.received r (.inl x)) { m with receiving := Function.update m.receiving r none }
        ⟨.message i x .scheduled, none⟩
  | receiveFailed {g : Fault} {r : ℕ} {i : Iteration} : m.receiving r = some i → EnterStep m (.received r (.inr g))
      (({ m with receiving := Function.update m.receiving r none } : Mem).finish i (some g)) {}
  | observed {e : ℕ} {i : Iteration} : m.ended e = some (i, none) →
      EnterStep m (.observe e) { m with ended := Function.update m.ended e none } {}
  | observeCanceled {e : ℕ} {i : Iteration} : m.ended e = some (i, some .canceled) →
      EnterStep m (.observe e) { m with ended := Function.update m.ended e none } ⟨.observe i .quiet, none⟩
  | observeFailed {g : Fault} {e : ℕ} {i : Iteration} : g ≠ .canceled → m.ended e = some (i, some g) →
      EnterStep m (.observe e) { m with ended := Function.update m.ended e none } ⟨.observe i .cancel, none⟩

theorem enter_step {m m' : Mem} {i : Input R} {p : Pc R} (h : enter m i = some (m', p)) : EnterStep m i m' p := by
  cases i with
  | connect | disconnect | go => cases h
  | drop =>
    simp only [enter, Option.ite_none_right_eq_some, Option.some.injEq] at h
    obtain ⟨ho, h⟩ := h
    cases h
    exact .drop ho
  | connected k f =>
    simp only [enter, Option.ite_none_right_eq_some] at h
    obtain ⟨hk, h⟩ := h
    rcases f with _ | _ | _ | _ <;> cases h
    · exact .connected hk
    · exact .connectFailed (by decide) hk
    · exact .connectFailed (by decide) hk
    · exact .connectUnhandled hk
  | received r o =>
    simp only [enter, Option.map_eq_some_iff] at h
    obtain ⟨i, hi, h⟩ := h
    cases o with
    | inl x => cases h; exact .received hi
    | inr g => cases h; exact .receiveFailed hi
  | observe e =>
    simp only [enter, Option.map_eq_some_iff] at h
    obtain ⟨⟨i, f⟩, hi, h⟩ := h
    rcases f with _ | _ | _ | _ <;> cases h
    · exact .observed hi
    · exact .observeCanceled hi
    · exact .observeFailed (by decide) hi
    · exact .observeFailed (by decide) hi

end SignalRClient.Transport
