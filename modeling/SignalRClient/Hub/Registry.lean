import SignalRClient.Containers.UnorderedMap
import SignalRClient.Hub.Message

/-!
# Hub proxies and their handlers

The names of hubs and of their events are compared without regard to case.  `Registry` is what
`create_hub_proxy()` and `on()` have left of them in the two kinds of tables, and `deliver` says which handler a
message gets to.

`dispatch`: that is the one which was registered under equal names, for every `std::toupper` and `std::hash`.
-/

namespace SignalRClient.Hub

open Containers Connection

/-! ## Comparing names -/

/-- The characters of a `utility::string_t`, `std::toupper`, and `std::hash<size_t>`. -/
structure Chars (C : Type) where
  units : String → List C
  toupper : C → Int32
  hasher : UInt64 → UInt64

namespace Chars

variable {C : Type} (A : Chars C)

/-- The loop of `case_insensitive_equals`, over two strings of one length. -/
def equalsLoop : List C → List C → Bool
  | c :: s, d :: t => if A.toupper c ≠ A.toupper d then false else equalsLoop s t
  | _, _ => true

def caseInsensitiveEquals (s t : String) : Bool :=
  if (A.units s).length ≠ (A.units t).length then false else A.equalsLoop (A.units s) (A.units t)

/-- One round of the loop of `case_insensitive_hash`, for the `int` that `std::toupper` returns. -/
def hashStep (hash : UInt64) (x : Int32) : UInt64 :=
  hash ^^^ (A.hasher x.toInt64.toUInt64 + (hash <<< 5) + (hash >>> 2))

def caseInsensitiveHash (s : String) : UInt64 := (A.units s).foldl (fun hash c => A.hashStep hash (A.toupper c)) 0

theorem equalsLoop_iff {s t : List C} (h : s.length = t.length) :
    A.equalsLoop s t = true ↔ s.map A.toupper = t.map A.toupper := by
  induction s generalizing t with
  | nil =>
    obtain rfl := List.length_eq_zero_iff.mp h.symm
    simp [equalsLoop]
  | cons c s ih =>
    cases t with
    | nil => cases h
    | cons d t =>
      rw [List.map_cons, List.map_cons, List.cons.injEq, ← ih (Nat.succ.inj h)]
      by_cases hc : A.toupper c = A.toupper d <;> simp [equalsLoop, hc]

/-- Two strings are equal when their characters are, in upper case. -/
theorem caseInsensitiveEquals_iff {s t : String} :
    A.caseInsensitiveEquals s t = true ↔ (A.units s).map A.toupper = (A.units t).map A.toupper := by
  unfold caseInsensitiveEquals
  by_cases h : (A.units s).length = (A.units t).length
  · rw [if_neg (not_not.mpr h), A.equalsLoop_iff h]
  · rw [if_pos h]
    refine ⟨fun hf => (by cases hf), fun he => absurd ?_ h⟩
    simpa using congrArg List.length he

theorem equivalence : Equivalence fun s t => A.caseInsensitiveEquals s t = true where
  refl _ := A.caseInsensitiveEquals_iff.mpr rfl
  symm h := A.caseInsensitiveEquals_iff.mpr (A.caseInsensitiveEquals_iff.mp h).symm
  trans h h' := A.caseInsensitiveEquals_iff.mpr
    ((A.caseInsensitiveEquals_iff.mp h).trans (A.caseInsensitiveEquals_iff.mp h'))

/-- Equal strings have equal hashes. -/
theorem hash_eq {s t : String} (h : A.caseInsensitiveEquals s t = true) :
    A.caseInsensitiveHash s = A.caseInsensitiveHash t := by
  calc A.caseInsensitiveHash s = ((A.units s).map A.toupper).foldl A.hashStep 0 := List.foldl_map.symm
    _ = ((A.units t).map A.toupper).foldl A.hashStep 0 := by rw [A.caseInsensitiveEquals_iff.mp h]
    _ = A.caseInsensitiveHash t := List.foldl_map

/-- How the tables compare their keys. -/
def keys : Keys String := ⟨A.caseInsensitiveHash, A.caseInsensitiveEquals⟩

theorem keys_lawful : A.keys.Lawful := ⟨A.equivalence.refl, A.equivalence.symm, A.equivalence.trans, A.hash_eq⟩

end Chars

/-! ## The tables -/

inductive RegistryError where
  | invalidArgument (what : String)
  | signalr (what : String)

/-- The hub proxies, numbered in the order of their creation.  A handler is a value of `F`. -/
structure Registry {C : Type} (A : Chars C) (F : Type) where
  proxies : UnorderedMap A.keys ℕ := .empty                          -- m_proxies
  count : ℕ := 0
  hubName : ℕ → String := fun _ => ""                                -- m_hub_name of a proxy
  subscriptions : ℕ → UnorderedMap A.keys F := fun _ => .empty       -- m_subscriptions of a proxy

namespace Registry

variable {C F : Type} {A : Chars C}

def createHubProxy (r : Registry A F) (state : ConnectionState) (hubName : String) :
    Except RegistryError (Registry A F × ℕ) :=
  if (A.units hubName).length = 0 then .error (.invalidArgument "hub name cannot be empty")
  else if state ≠ .disconnected then
    .error (.signalr "hub proxies cannot be created when the connection is not in the disconnected state")
  else match r.proxies.find? hubName with
    | some p => .ok (r, p)
    | none => .ok ({ r with proxies := r.proxies.insert hubName r.count, count := r.count + 1,
                            hubName := Function.update r.hubName r.count hubName }, r.count)

/-- `internal_hub_proxy::on` of proxy `p`; `state?` is `none` when the connection does not exist any more. -/
def on (r : Registry A F) (state? : Option ConnectionState) (p : ℕ) (eventName : String) (handler : F) :
    Except RegistryError (Registry A F) :=
  if (A.units eventName).length = 0 then .error (.invalidArgument "event_name cannot be empty")
  else if state?.any (· ≠ .disconnected) then
    .error (.signalr "can't register a handler if the connection is in a disconnected state")
  else if ((r.subscriptions p).find? eventName).isSome then
    .error (.signalr ("an action for this event has already been registered. event name: " ++ eventName))
  else .ok { r with subscriptions := Function.update r.subscriptions p ((r.subscriptions p).insert eventName handler) }

/-! ## The way of a message -/

/-- What becomes of a message for a handler. -/
inductive Effect (F : Type) where
  | invoke (handler : F) (arguments : Json)
  | log (text : String)

/-- `internal_hub_proxy::invoke_event` of proxy `p` -/
def invokeEvent (r : Registry A F) (p : ℕ) (eventName : String) (arguments : Json) : List (Effect F) :=
  match (r.subscriptions p).find? eventName with
  | some handler => [.invoke handler arguments]
  | none => [.log ("no handler found for event. hub name: " ++ r.hubName p ++ ", event name: " ++ eventName)]

/-- `process_message`, for the messages that are meant for a handler. -/
def deliver (r : Registry A F) (message : Json) : List (Effect F) :=
  match processMessage message with
  | .event hubName method arguments =>
    match r.proxies.find? hubName with
    | some p => r.invokeEvent p method arguments
    | none => [.log ("no proxy found for hub invocation. hub: " ++ hubName ++ ", method: " ++ method)]
  | _ => []

/-- The calls of handlers. -/
def Effect.call? : Effect F → Option (F × Json)
  | .invoke handler arguments => some (handler, arguments)
  | .log _ => none

def calls (r : Registry A F) (message : Json) : List (F × Json) := (r.deliver message).filterMap Effect.call?

/-! ## What has been registered -/

/-- What a call has returned: a proxy for a name, or nothing, as the handler is registered. -/
inductive Event (F : Type) where
  | created (hubName : String) (p : ℕ)
  | registered (p : ℕ) (eventName : String) (handler : F)

/-- Sequences of calls in the disconnected state, with those that have returned.  A call that throws changes
nothing.  `on()` is called on a proxy there is. -/
inductive Run : Registry A F → List (Event F) → Prop
  | init : Run {} []
  | create {r r' : Registry A F} {l : List (Event F)} {hubName : String} {p : ℕ} : Run r l →
      r.createHubProxy .disconnected hubName = .ok (r', p) → Run r' (l ++ [.created hubName p])
  | on {r r' : Registry A F} {l : List (Event F)} {p : ℕ} {eventName : String} {handler : F} : Run r l →
      p < r.count → r.on (some .disconnected) p eventName handler = .ok r' →
      Run r' (l ++ [.registered p eventName handler])

variable {r r' : Registry A F} {l : List (Event F)}

/-- What `create_hub_proxy()` does when it returns. -/
theorem createHubProxy_ok {hubName : String} {p : ℕ} (h : r.createHubProxy .disconnected hubName = .ok (r', p)) :
    (r.proxies.find? hubName = some p ∧ r' = r) ∨
    (r.proxies.find? hubName = none ∧ p = r.count ∧
      r' = { r with proxies := r.proxies.insert hubName r.count, count := r.count + 1,
                    hubName := Function.update r.hubName r.count hubName }) := by
  simp only [createHubProxy] at h
  split at h
  · cases h
  rw [if_neg (by simp)] at h
  split at h
  · rename_i q hq
    cases h
    exact .inl ⟨hq, rfl⟩
  · rename_i hn
    cases h
    exact .inr ⟨hn, rfl, rfl⟩

/-- What `on()` does when it returns. -/
theorem on_ok {state? : Option ConnectionState} {p : ℕ} {eventName : String} {handler : F}
    (h : r.on state? p eventName handler = .ok r') :
    (r.subscriptions p).find? eventName = none ∧
      r' = { r with subscriptions :=
               Function.update r.subscriptions p ((r.subscriptions p).insert eventName handler) } := by
  simp only [on] at h
  split at h
  · cases h
  split at h
  · cases h
  split at h
  · cases h
  · rename_i hn
    cases h
    exact ⟨by simpa using hn, rfl⟩

/-- Two registrations of one proxy are for different events. -/
def Apart (A : Chars C) (x y : Event F) : Prop :=
  ∀ p e f e' f', x = .registered p e f → y = .registered p e' f' → A.caseInsensitiveEquals e e' = false

/-- The tables hold what has been returned. -/
structure Recorded (r : Registry A F) (l : List (Event F)) : Prop where
  proxies : ∀ n p, r.proxies.find? n = some p ↔ ∃ n', .created n' p ∈ l ∧ A.caseInsensitiveEquals n' n = true
  handlers : ∀ p e f, (r.subscriptions p).find? e = some f ↔
    ∃ e', .registered p e' f ∈ l ∧ A.caseInsensitiveEquals e' e = true
  numbered : ∀ n p, .created n p ∈ l → p < r.count
  apart : ∀ n n' p, .created n p ∈ l → .created n' p ∈ l → A.caseInsensitiveEquals n n' = true
  once : l.Pairwise (Apart A)

theorem Recorded.create (hr : Recorded r l) {hubName : String} {p : ℕ}
    (h : r.createHubProxy .disconnected hubName = .ok (r', p)) : Recorded r' (l ++ [.created hubName p]) := by
  have hk := A.keys_lawful
  have hmem : ∀ n q, Event.created n q ∈ l ++ [(.created hubName p : Event F)] ↔
      .created n q ∈ l ∨ n = hubName ∧ q = p := by simp
  have hreg : ∀ q e f, Event.registered q e f ∈ l ++ [(.created hubName p : Event F)] ↔ .registered q e f ∈ l := by
    simp
  have honce : (l ++ [(.created hubName p : Event F)]).Pairwise (Apart A) := by
    refine List.pairwise_append.mpr ⟨hr.once, List.pairwise_singleton _ _, fun x _ y hy => ?_⟩
    obtain rfl := List.mem_singleton.mp hy
    intro q e f e' f' _ hy
    cases hy
  rcases createHubProxy_ok h with ⟨hp, rfl⟩ | ⟨hn, rfl, rfl⟩
  · -- there is a proxy for an equal name already
    obtain ⟨m, hm, hme⟩ := (hr.proxies hubName p).mp hp
    refine ⟨fun n q => ?_, fun q e f => ?_, fun n q hq => ?_, fun n n' q hq hq' => ?_, honce⟩
    · rw [hr.proxies]
      constructor
      · rintro ⟨n', hn', he⟩
        exact ⟨n', (hmem n' q).mpr (.inl hn'), he⟩
      · rintro ⟨n', hn', he⟩
        rcases (hmem n' q).mp hn' with hn' | ⟨rfl, rfl⟩
        · exact ⟨n', hn', he⟩
        · exact ⟨m, hm, hk.trans hme he⟩
    · simp only [hr.handlers, hreg]
    · rcases (hmem n q).mp hq with hq | ⟨rfl, rfl⟩
      · exact hr.numbered n q hq
      · exact hr.numbered m q hm
    · rcases (hmem n q).mp hq with h₁ | ⟨rfl, rfl⟩
      · rcases (hmem n' q).mp hq' with h₂ | ⟨rfl, rfl⟩
        · exact hr.apart n n' q h₁ h₂
        · exact hk.trans (hr.apart n m _ h₁ hm) hme
      · rcases (hmem n' q).mp hq' with h₂ | ⟨rfl, -⟩
        · exact hk.trans (hk.symm hme) (hr.apart m n' _ hm h₂)
        · exact hk.refl _
  · -- a new proxy
    have hfresh : ∀ n, Event.created n r.count ∉ l := fun n hc => absurd (hr.numbered n _ hc) (lt_irrefl _)
    refine ⟨fun n q => ?_, fun q e f => ?_, fun n q hq => ?_, fun n n' q hq hq' => ?_, honce⟩
    · simp only [UnorderedMap.find?_insert_iff hk hr.proxies hn, hmem]
      rfl
    · simp only [hr.handlers, hreg]
    · rcases (hmem n q).mp hq with hq | ⟨-, rfl⟩
      · exact Nat.lt_succ_of_lt (hr.numbered n q hq)
      · exact Nat.lt_succ_self _
    · rcases (hmem n q).mp hq with h₁ | ⟨rfl, rfl⟩
      · rcases (hmem n' q).mp hq' with h₂ | ⟨-, rfl⟩
        · exact hr.apart n n' q h₁ h₂
        · exact absurd h₁ (hfresh n)
      · rcases (hmem n' _).mp hq' with h₂ | ⟨rfl, -⟩
        · exact absurd h₂ (hfresh n')
        · exact hk.refl _

theorem Recorded.on (hr : Recorded r l) {p : ℕ} {eventName : String} {handler : F}
    (h : r.on (some .disconnected) p eventName handler = .ok r') :
    Recorded r' (l ++ [.registered p eventName handler]) := by
  have hk := A.keys_lawful
  obtain ⟨hn, rfl⟩ := on_ok h
  have hcre : ∀ n q, Event.created n q ∈ l ++ [.registered p eventName handler] ↔ .created n q ∈ l := by simp
  have hmem : ∀ q e f, Event.registered q e f ∈ l ++ [.registered p eventName handler] ↔
      .registered q e f ∈ l ∨ q = p ∧ e = eventName ∧ f = handler := by simp
  refine ⟨fun n q => ?_, fun q e f => ?_, fun n q hq => ?_, fun n n' q hq hq' => ?_, ?_⟩
  · simp only [hr.proxies, hcre]
  · by_cases hq : q = p
    · subst hq
      simp only [Function.update_self, UnorderedMap.find?_insert_iff hk (hr.handlers q) hn, hmem, true_and]
      rfl
    · simp only [Function.update_of_ne hq, hr.handlers, hmem, hq, false_and, or_false]
  · exact hr.numbered n q ((hcre n q).mp hq)
  · exact hr.apart n n' q ((hcre n q).mp hq) ((hcre n' q).mp hq')
  · refine List.pairwise_append.mpr ⟨hr.once, List.pairwise_singleton _ _, fun x hx y hy => ?_⟩
    obtain rfl := List.mem_singleton.mp hy
    rintro q e f e' f' rfl hy
    cases hy
    -- an equal event would have been found
    by_contra hne
    have := (hr.handlers p eventName f).mpr ⟨e, hx, by simpa using hne⟩
    rw [hn] at this
    cases this

theorem Run.recorded (h : Run r l) : Recorded r l := by
  induction h with
  | init => exact ⟨by simp, by simp, by simp, by simp, .nil⟩
  | create _ hc ih => exact ih.create hc
  | on _ _ ho ih => exact ih.on ho

/-! ## Dispatch -/

/-- A message for a handler: an object with strings `H` and `M`, a field `A` and no field `I`. -/
structure Addressed (message : Json) (hubName method : String) (arguments : Json) : Prop where
  object : message.isObject = true
  noId : message.hasField "I" = false
  hub : message.at? "H" = some (.string hubName)
  method : message.at? "M" = some (.string method)
  arguments : message.at? "A" = some arguments

theorem Addressed.processMessage {message : Json} {hubName method : String} {arguments : Json}
    (h : Addressed message hubName method arguments) : processMessage message = .event hubName method arguments := by
  simp [Hub.processMessage, h.object, h.noId, h.hub, h.method, h.arguments, Json.asString?]

/-- A handler is called when the tables have it, and else none. -/
theorem Addressed.calls {message : Json} {hubName method : String} {arguments : Json}
    (h : Addressed message hubName method arguments) (r : Registry A F) :
    r.calls message = ((r.proxies.find? hubName).bind fun p => (r.subscriptions p).find? method).toList.map
      (·, arguments) := by
  rw [Registry.calls, deliver, h.processMessage]
  dsimp only
  cases hp : r.proxies.find? hubName with
  | none => simp [Effect.call?]
  | some p =>
    cases hf : (r.subscriptions p).find? method with
    | none => simp [invokeEvent, hf, Effect.call?]
    | some f => simp [invokeEvent, hf, Effect.call?]

/-- **Dispatch without regard to case.**  However `std::toupper` and `std::hash` behave, the key equality is an
equivalence that the hash respects; there is one proxy for equal hub names and one handler of it for equal events;
and a message gets to the handler that was registered under names equal to its own, once, and to no other. -/
theorem dispatch (h : Run r l) :
    (Equivalence fun s t => A.caseInsensitiveEquals s t = true) ∧
    (∀ s t, A.caseInsensitiveEquals s t = true → A.caseInsensitiveHash s = A.caseInsensitiveHash t) ∧
    (∀ n p n' p', r.proxies.Has n p → r.proxies.Has n' p' → A.caseInsensitiveEquals n n' = true → n = n' ∧ p = p') ∧
    (∀ q e f e' f', (r.subscriptions q).Has e f → (r.subscriptions q).Has e' f' →
      A.caseInsensitiveEquals e e' = true → e = e' ∧ f = f') ∧
    (∀ n p n' p', .created n p ∈ l → .created n' p' ∈ l → (p = p' ↔ A.caseInsensitiveEquals n n' = true)) ∧
    l.Pairwise (Apart A) ∧
    ∀ message hubName method arguments, Addressed message hubName method arguments →
      (∀ n p e f, .created n p ∈ l → .registered p e f ∈ l → A.caseInsensitiveEquals n hubName = true →
        A.caseInsensitiveEquals e method = true → r.calls message = [(f, arguments)]) ∧
      ((∀ n p e f, .created n p ∈ l → .registered p e f ∈ l → A.caseInsensitiveEquals n hubName = true →
        A.caseInsensitiveEquals e method = false) → r.calls message = []) := by
  have hk := A.keys_lawful
  have hr := h.recorded
  refine ⟨A.equivalence, fun _ _ => A.hash_eq, fun _ _ _ _ hn hn' => UnorderedMap.entry_unique hk hn hn',
    fun _ _ _ _ _ he he' => UnorderedMap.entry_unique hk he he', fun n p n' p' hn hn' => ?_, hr.once,
    fun message hubName method arguments ha => ⟨fun n p e f hn he hne hee => ?_, fun hnone => ?_⟩⟩
  · constructor
    · rintro rfl
      exact hr.apart n n' p hn hn'
    · intro heq
      have hp := (hr.proxies n' p).mpr ⟨n, hn, heq⟩
      rw [(hr.proxies n' p').mpr ⟨n', hn', hk.refl n'⟩] at hp
      exact (Option.some.inj hp).symm
  · rw [ha.calls, (hr.proxies hubName p).mpr ⟨n, hn, hne⟩, Option.bind_some, (hr.handlers p method f).mpr ⟨e, he, hee⟩]
    rfl
  · rw [ha.calls]
    cases hp : r.proxies.find? hubName with
    | none => rfl
    | some p =>
      obtain ⟨n, hn, hne⟩ := (hr.proxies hubName p).mp hp
      rw [Option.bind_some]
      cases hf : (r.subscriptions p).find? method with
      | none => rfl
      | some f =>
        obtain ⟨e, he, hee⟩ := (hr.handlers p method f).mp hf
        have := hnone n p e f hn he hne
        rw [hee] at this
        cases this

/-- Characters of an ASCII text. -/
def asciiChars : Chars Char := ⟨String.toList, fun c => Int32.ofNat c.toUpper.toNat, id⟩

theorem dispatch_broadcast : ∃ r : Registry asciiChars ℕ,
    Run r [.created "MY_hub" 0, .registered 0 "broadCAST" 7] ∧
      r.calls (.object [("H", .string "my_HUB"), ("M", .string "BROADcast"), ("A", .array [.integer 1])]) =
        [(7, .array [.integer 1])] := by
  have hc : ∃ r : Registry asciiChars ℕ, Run r [.created "MY_hub" 0] ∧ 0 < r.count ∧
      (r.subscriptions 0).find? "broadCAST" = none := ⟨_, Run.init.create rfl, by decide, rfl⟩
  obtain ⟨r, hr, hlt, hn⟩ := hc
  have hne : (asciiChars.units "broadCAST").length ≠ 0 := by decide
  have ho : ∃ r', r.on (some .disconnected) 0 "broadCAST" 7 = .ok r' :=
    ⟨_, by rw [on, if_neg hne, if_neg (by simp), if_neg (by rw [hn]; simp)]⟩
  obtain ⟨r', hr'⟩ := ho
  have hrun := hr.on hlt hr'
  refine ⟨r', hrun, ?_⟩
  exact ((dispatch hrun).2.2.2.2.2.2 _ "my_HUB" "BROADcast" (.array [.integer 1]) ⟨rfl, rfl, rfl, rfl, rfl⟩).1
    "MY_hub" 0 "broadCAST" 7 (by simp) (by simp) (by decide) (by decide)

end Registry

end SignalRClient.Hub
