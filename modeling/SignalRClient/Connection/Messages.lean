import SignalRClient.Connection.Model

/-!
# `process_response` on its own, and the resume point

`processResponse` is the function as one thread runs it, with its exceptions: the accessors that throw
end in its own handler, and whatever the `message_received` callback throws is caught around the call.
`processResponse_from` says that it performs `processEffects`, one after another, and never throws; that
list is also what the message callback of the connection model performs, step by step.

From this follow the deliveries and the resume point of a sequence of responses, and with `url_builder`
what the next reconnect request says about them; and what is left of a response that ends in the handler
(`intact_iff`).
-/

namespace SignalRClient.Connection

open Uri UrlBuilder

/-- What is thrown: something derived from `std::exception`, or anything else. -/
inductive Exn where
  | std | other
  deriving DecidableEq

/-- What `process_response` writes, and the calls of the `message_received` callback so far. -/
structure Session where
  messageId : String := ""              -- m_message_id
  groupsToken : String := ""            -- m_groups_token
  connectRequestTce : Tce := .unset     -- connect_request_tce
  received : List Json := []

abbrev Exec := ExceptT Exn (StateM Session)

/-- The outcome and the session behind it. -/
def Exec.from {α : Type} (x : Exec α) (s : Session) : Except Exn α × Session := x.run.run s

/-- `try { … } catch (const std::exception &) { … }` with a handler that writes to the log. -/
def catchStd (body : Exec Unit) : Exec Unit :=
  tryCatch body fun
    | .std => pure ()
    | .other => throw .other

/-- The value of an accessor. -/
def orThrow {α : Type} : Option α → Exec α
  | some a => pure a
  | none => throw .std

section

variable (parse : String → Option Json) (handler : List Json → Option Exn)

/-- `m_message_received(message)`.  What the callback throws may depend on all calls so far. -/
def messageReceived (message : Json) : Exec Unit := do
  modify fun s => { s with received := s.received ++ [message] }
  match handler (← get).received with
  | some e => throw e
  | none => pure ()

/-- Both handlers write to the log. -/
def invokeMessageReceived (message : Json) : Exec Unit :=
  tryCatch (messageReceived handler message) fun _ => pure ()

/-- The statement of `process_response` on the field `G`. -/
def updateGroupsToken (result : Json) : Exec Unit :=
  match result.stringField? "G" with
  | some g => modify fun s => { s with groupsToken := g }
  | none => pure ()

/-- The statement of `process_response` on the field `M`. -/
def processMessages (result : Json) : Exec Unit :=
  match (result.at? "M").bind Json.asArray? with
  | some ms => do
    let c ← orThrow (result.stringField? "C")
    modify fun s => { s with messageId := c }
    if isInit result then
      modify fun s => { s with connectRequestTce := s.connectRequestTce.complete .set }
    ms.forM (invokeMessageReceived handler)
  | none => pure ()

/-- The `try` block of `process_response`. -/
def processBody (response : String) : Exec Unit := do
  let result ← orThrow (parse response)
  if !result.isObject then pure ()
  else if result.hasField "I" then invokeMessageReceived handler result
  else do
    updateGroupsToken result
    processMessages handler result

def processResponse (response : String) : Exec Unit := catchStd (processBody parse handler response)

/-- The message callback for one response after another. -/
def processResponses (responses : List String) : Exec Unit := responses.forM (processResponse parse handler)

end

/-! ## The effects of a response -/

def Session.effect (s : Session) : Effect → Session
  | .setGroupsToken g => { s with groupsToken := g }
  | .setMessageId c => { s with messageId := c }
  | .connectSet => { s with connectRequestTce := s.connectRequestTce.complete .set }
  | .receive m => { s with received := s.received ++ [m] }

/-- What the transport of session `n` sees of the shared memory. -/
def Mem.session (m : Mem) (n : ℕ) (received : List Json) : Session :=
  ⟨m.messageId, m.groupsToken, m.connectTce n, received⟩

/-- A step of the message callback in the connection model does what the effect says. -/
theorem Mem.session_effect (m : Mem) (n : ℕ) (received : List Json) (e : Effect) :
    (m.effect n e).session n ((m.session n received).effect e).received = (m.session n received).effect e := by
  cases e with
  | connectSet => simp [Mem.effect, Mem.session, Session.effect, Mem.completeConnect]
  | setGroupsToken g => rfl
  | setMessageId c => rfl
  | receive m => rfl

variable {parse : String → Option Json} {handler : List Json → Option Exn}

@[simp] theorem bind_from {α β : Type} (x : Exec α) (f : α → Exec β) (s : Session) :
    (x >>= f).from s = match x.from s with
      | (.ok a, s') => (f a).from s'
      | (.error e, s') => (.error e, s') := by
  show ExceptT.bindCont f (x s).1 (x s).2 = _
  show _ = match x s with
    | (.ok a, s') => (f a).from s'
    | (.error e, s') => (.error e, s')
  rcases x s with ⟨r, s'⟩
  cases r <;> rfl

@[simp] theorem pure_from {α : Type} (a : α) (s : Session) : (pure a : Exec α).from s = (.ok a, s) := rfl

@[simp] theorem modify_from (f : Session → Session) (s : Session) : (modify f : Exec PUnit).from s = (.ok (), f s) :=
  rfl

theorem tryCatch_from (x : Exec Unit) (h : Exn → Exec Unit) (s : Session) :
    (tryCatch x h : Exec Unit).from s = match x.from s with
      | (.ok a, s') => (.ok a, s')
      | (.error e, s') => (h e).from s' := by
  have hx : x.from s = x s := rfl
  rw [hx, Exec.from]
  simp only [tryCatch, tryCatchThe, MonadExceptOf.tryCatch, ExceptT.tryCatch, ExceptT.run, ExceptT.mk,
    StateT.run, bind, StateT.bind]
  rcases x s with ⟨r, s'⟩
  cases r <;> rfl

/-- Whatever the callback throws, the call is made once and the next statement is reached. -/
@[simp] theorem invokeMessageReceived_from (message : Json) (s : Session) :
    (invokeMessageReceived handler message).from s = (.ok (), s.effect (.receive message)) := by
  have hcall : (messageReceived handler message).from s = (.ok (), s.effect (.receive message)) ∨
      ∃ e, (messageReceived handler message).from s = (.error e, s.effect (.receive message)) := by
    have hget : (get : Exec Session).from (s.effect (.receive message)) =
        (.ok (s.effect (.receive message)), s.effect (.receive message)) := rfl
    have hmod : (modify fun s => { s with received := s.received ++ [message] } : Exec PUnit).from s =
        (.ok (), s.effect (.receive message)) := rfl
    rw [messageReceived, bind_from, hmod]
    simp only [bind_from, hget]
    cases handler (s.effect (.receive message)).received with
    | none => exact .inl rfl
    | some e => exact .inr ⟨e, rfl⟩
  rw [invokeMessageReceived, tryCatch_from]
  rcases hcall with h | ⟨e, h⟩
  · rw [h]
  · rw [h]
    rfl

theorem forM_invokeMessageReceived_from (ms : List Json) (s : Session) :
    (forM ms (invokeMessageReceived handler) : Exec PUnit).from s =
      (.ok (), (ms.map Effect.receive).foldl Session.effect s) := by
  induction ms generalizing s with
  | nil => rfl
  | cons m ms ih =>
    show (invokeMessageReceived handler m >>= fun _ =>
      (forM ms (invokeMessageReceived handler) : Exec PUnit)).from s = _
    simp only [bind_from, invokeMessageReceived_from, ih, List.map_cons, List.foldl_cons]

theorem updateGroupsToken_from (result : Json) (s : Session) :
    (updateGroupsToken result).from s =
      (.ok (), ((result.stringField? "G").toList.map Effect.setGroupsToken).foldl Session.effect s) := by
  unfold updateGroupsToken
  cases result.stringField? "G" <;> rfl

/-- The effects happen up to the first accessor that throws, and only a std exception gets out. -/
theorem processMessages_from (result : Json) (s : Session) :
    ∃ r, r ≠ .error .other ∧ (processMessages handler result).from s =
      (r, (((result.at? "M").bind Json.asArray?).elim [] (messagesEffects result)).foldl Session.effect s) := by
  unfold processMessages
  cases (result.at? "M").bind Json.asArray? with
  | none => exact ⟨.ok (), by simp, rfl⟩
  | some ms =>
    simp only [Option.elim_some, messagesEffects]
    cases result.stringField? "C" with
    | none => exact ⟨.error .std, by simp, rfl⟩
    | some c =>
      refine ⟨.ok (), by simp, ?_⟩
      cases isInit result with
      | true => simp [orThrow, forM_invokeMessageReceived_from, Session.effect]
      | false => simp [orThrow, forM_invokeMessageReceived_from, Session.effect]

/-- **`process_response` performs `processEffects`** and returns, whatever the text is and whatever the
callback throws. -/
theorem processResponse_from (response : String) (s : Session) :
    (processResponse parse handler response).from s =
      (.ok (), (processEffects (parse response)).foldl Session.effect s) := by
  rw [processResponse, catchStd, tryCatch_from, processBody]
  cases parse response with
  | none => rfl
  | some result =>
    simp only [orThrow, bind_from, pure_from, processEffects]
    cases result.isObject with
    | false => rfl
    | true =>
      cases result.hasField "I" with
      | true => simp
      | false =>
        simp only [Bool.not_true, Bool.false_eq_true, if_false, if_true, bind_from, updateGroupsToken_from,
          List.foldl_append]
        obtain ⟨r, hr, h⟩ := @processMessages_from handler result
          (((result.stringField? "G").toList.map Effect.setGroupsToken).foldl Session.effect s)
        rw [h]
        match r, hr with
        | .ok _, _ => rfl
        | .error .std, _ => rfl

theorem processResponses_from (responses : List String) (s : Session) :
    (processResponses parse handler responses).from s =
      (.ok (), (responses.flatMap fun r => processEffects (parse r)).foldl Session.effect s) := by
  induction responses generalizing s with
  | nil => rfl
  | cons r rs ih =>
    show (processResponse parse handler r >>= fun _ => processResponses parse handler rs).from s = _
    rw [bind_from, processResponse_from]
    simp only [ih, List.flatMap_cons, List.foldl_append]

/-! ## Deliveries and the resume point -/

def Effect.message? : Effect → Option Json
  | .receive m => some m
  | _ => none

def Effect.messageId? : Effect → Option String
  | .setMessageId c => some c
  | _ => none

def Effect.groupsToken? : Effect → Option String
  | .setGroupsToken g => some g
  | _ => none

theorem foldl_effect (es : List Effect) (s : Session) :
    (es.foldl Session.effect s).received = s.received ++ es.filterMap Effect.message? ∧
    (es.foldl Session.effect s).messageId = (es.filterMap Effect.messageId?).getLast?.getD s.messageId ∧
    (es.foldl Session.effect s).groupsToken = (es.filterMap Effect.groupsToken?).getLast?.getD s.groupsToken := by
  induction es generalizing s with
  | nil => simp
  | cons e es ih =>
    obtain ⟨hr, hm, hg⟩ := ih (s.effect e)
    rw [List.foldl_cons, hr, hm, hg]
    cases e <;> simp [Session.effect, Effect.message?, Effect.messageId?, Effect.groupsToken?,
      List.filterMap_cons, List.getLast?_cons]

/-- A response that parses to an object without a field `I` and with an array `M`: its elements. -/
def messagesOf? (v : Json) : Option (List Json) :=
  if v.isObject && !v.hasField "I" then (v.at? "M").bind Json.asArray? else none

/-- The messages of a response: the object with a field `I`, or the elements of `M`. -/
def delivered : Option Json → List Json
  | none => []
  | some v => if v.isObject && v.hasField "I" then [v] else (messagesOf? v).getD []

/-- The `C` of a response with an array `M`. -/
def messageIdOf : Option Json → Option String
  | none => none
  | some v => if (messagesOf? v).isSome then v.stringField? "C" else none

/-- The string `G` of an object without a field `I`. -/
def groupsTokenOf : Option Json → Option String
  | none => none
  | some v => if v.isObject && !v.hasField "I" then v.stringField? "G" else none

/-- Where there is an array `M`, there is a string `C`. -/
def Numbered (r : Option Json) : Prop := ∀ v, r = some v → (messagesOf? v).isSome → (v.stringField? "C").isSome

theorem filterMap_receive (ms : List Json) :
    (ms.map Effect.receive).filterMap Effect.message? = ms ∧
    (ms.map Effect.receive).filterMap Effect.messageId? = [] ∧
    (ms.map Effect.receive).filterMap Effect.groupsToken? = [] := by
  induction ms with
  | nil => exact ⟨rfl, rfl, rfl⟩
  | cons m ms ih => simpa [Effect.message?, Effect.messageId?, Effect.groupsToken?] using ih

/-- The effects of an array of messages with a string `C`. -/
theorem filterMap_messagesEffects {v : Json} {c : String} (hc : v.stringField? "C" = some c) (ms : List Json) :
    (messagesEffects v ms).filterMap Effect.message? = ms ∧
    (messagesEffects v ms).filterMap Effect.messageId? = [c] ∧
    (messagesEffects v ms).filterMap Effect.groupsToken? = [] := by
  obtain ⟨hm, hi, hg⟩ := filterMap_receive ms
  unfold messagesEffects
  rw [hc]
  cases isInit v <;>
    simp [List.filterMap_cons, Effect.message?, Effect.messageId?, Effect.groupsToken?, hm, hi, hg]

theorem filterMap_setGroupsToken (g : Option String) :
    (g.toList.map Effect.setGroupsToken).filterMap Effect.message? = [] ∧
    (g.toList.map Effect.setGroupsToken).filterMap Effect.messageId? = [] ∧
    (g.toList.map Effect.setGroupsToken).filterMap Effect.groupsToken? = g.toList := by
  cases g <;> exact ⟨rfl, rfl, rfl⟩

theorem filterMap_processEffects {r : Option Json} (h : Numbered r) :
    (processEffects r).filterMap Effect.message? = delivered r ∧
    (processEffects r).filterMap Effect.messageId? = (messageIdOf r).toList ∧
    (processEffects r).filterMap Effect.groupsToken? = (groupsTokenOf r).toList := by
  cases r with
  | none => exact ⟨rfl, rfl, rfl⟩
  | some v =>
    have hv := h v rfl
    obtain ⟨hg₁, hg₂, hg₃⟩ := filterMap_setGroupsToken (v.stringField? "G")
    cases hobj : v.isObject with
    | false => simp [processEffects, delivered, messageIdOf, groupsTokenOf, messagesOf?, hobj]
    | true =>
      cases hI : v.hasField "I" with
      | true =>
        simp [processEffects, delivered, messageIdOf, groupsTokenOf, messagesOf?, hobj, hI, Effect.message?,
          Effect.messageId?, Effect.groupsToken?]
      | false =>
        cases hM : (v.at? "M").bind Json.asArray? with
        | none =>
          simp [processEffects, delivered, messageIdOf, groupsTokenOf, messagesOf?, hobj, hI, hM, hg₁, hg₂, hg₃]
        | some ms =>
          have hof : messagesOf? v = some ms := by simp [messagesOf?, hobj, hI, hM]
          obtain ⟨c, hc⟩ := Option.isSome_iff_exists.mp (hv (by rw [hof]; rfl))
          obtain ⟨hm₁, hm₂, hm₃⟩ := filterMap_messagesEffects hc ms
          simp [processEffects, delivered, messageIdOf, groupsTokenOf, hof, hobj, hI, hM, hc, hg₁, hg₂, hg₃, hm₁,
            hm₂, hm₃]

/-- The same for a sequence of responses. -/
theorem filterMap_flatMap_processEffects {rs : List (Option Json)} (h : ∀ r ∈ rs, Numbered r) :
    (rs.flatMap processEffects).filterMap Effect.message? = rs.flatMap delivered ∧
    (rs.flatMap processEffects).filterMap Effect.messageId? = rs.filterMap messageIdOf ∧
    (rs.flatMap processEffects).filterMap Effect.groupsToken? = rs.filterMap groupsTokenOf := by
  induction rs with
  | nil => exact ⟨rfl, rfl, rfl⟩
  | cons r rs ih =>
    obtain ⟨h₁, h₂, h₃⟩ := filterMap_processEffects (h r (by simp))
    obtain ⟨ih₁, ih₂, ih₃⟩ := ih fun r' hr' => h r' (by simp [hr'])
    refine ⟨?_, ?_, ?_⟩
    · rw [List.flatMap_cons, List.filterMap_append, h₁, ih₁, List.flatMap_cons]
    · rw [List.flatMap_cons, List.filterMap_append, h₂, ih₂, List.filterMap_cons]
      cases messageIdOf r <;> rfl
    · rw [List.flatMap_cons, List.filterMap_append, h₃, ih₃, List.filterMap_cons]
      cases groupsTokenOf r <;> rfl

/-! ## The next reconnect request -/

/-- The other members that go into the reconnect URL. -/
structure Endpoint (U : Type) where
  baseUrl : U
  transportType : TransportType
  connectionToken : String
  connectionData : String
  queryString : String

/-- The URL that `reconnect()` builds. -/
def reconnectUrl {U B : Type} (A : UriApi U B) (c : Endpoint U) (s : Session) : Option U :=
  buildReconnect A c.baseUrl c.transportType c.connectionToken c.connectionData s.messageId s.groupsToken c.queryString

/-- What the URL says about a parameter of the connection with value `v`: between the base URL and the
query string of the user, `v` when it is not empty. -/
def Carries {U B : Type} (A : UriApi U B) (c : Endpoint U) (u : U) (name v : String) : Prop :=
  values name (A.uriQuery u) =
    values name (A.uriQuery c.baseUrl) ++ (if v = "" then [] else [utf8 v]) ++ values name c.queryString

theorem carries_reconnectUrl {U B : Type} {A : UriApi U B} (hA : A.Lawful) {c : Endpoint U} {s : Session} {u : U}
    (h : reconnectUrl A c s = some u) :
    Carries A c u "messageId" s.messageId ∧ Carries A c u "groupsToken" s.groupsToken := by
  unfold Carries
  rw [values_buildReconnect hA h, values_buildReconnect hA h]
  have htransport : ∀ t : Option TransportType, ∀ name, name = "messageId" ∨ name = "groupsToken" →
      (t.toList.map fun t => ("transport", getTransportName t)).filter (fun p => p.1 = name) = [] := by
    intro t name hn
    cases t with
    | none => rfl
    | some t => rcases hn with rfl | rfl <;> rfl
  refine ⟨?_, ?_⟩
  · rw [parameters, List.filter_append, htransport _ _ (.inl rfl), List.filter_cons_of_neg (by decide),
      List.filter_filter]
    by_cases h : s.messageId = "" <;> simp [h]
  · rw [parameters, List.filter_append, htransport _ _ (.inr rfl), List.filter_cons_of_neg (by decide),
      List.filter_filter]
    by_cases h : s.groupsToken = "" <;> simp [h]

/-- **Deliveries and resume point.**  Whatever the texts are and whatever the callback throws, the callback
gets the messages of the responses in order, and the next reconnect URL names the last message id and
the last groups token. -/
theorem deliver_in_order {U B : Type} {A : UriApi U B} (hA : A.Lawful) (parse : String → Option Json)
    (handler : List Json → Option Exn) (responses : List String) (s : Session)
    (hC : ∀ r ∈ responses, Numbered (parse r)) :
    ∃ s', (processResponses parse handler responses).from s = (.ok (), s') ∧
      s'.received = s.received ++ responses.flatMap (fun r => delivered (parse r)) ∧
      s'.messageId = (responses.filterMap fun r => messageIdOf (parse r)).getLast?.getD s.messageId ∧
      s'.groupsToken = (responses.filterMap fun r => groupsTokenOf (parse r)).getLast?.getD s.groupsToken ∧
      ∀ c : Endpoint U,
        (∀ u, reconnectUrl A c s' = some u →
          Carries A c u "messageId" s'.messageId ∧ Carries A c u "groupsToken" s'.groupsToken) ∧
        (c.queryString.toList.all isQueryCharacter = true → (reconnectUrl A c s').isSome = true) := by
  have hall : ∀ r ∈ responses.map parse, Numbered r := by
    intro r hr
    obtain ⟨t, ht, rfl⟩ := List.mem_map.mp hr
    exact hC t ht
  obtain ⟨hmsg, hid, hgroups⟩ := filterMap_flatMap_processEffects hall
  rw [List.flatMap_map] at hmsg hid hgroups
  rw [List.flatMap_map] at hmsg
  rw [List.filterMap_map] at hid hgroups
  refine ⟨_, processResponses_from responses s, ?_, ?_, ?_, fun c => ⟨?_, ?_⟩⟩
  · rw [(foldl_effect _ s).1, hmsg]
  · rw [(foldl_effect _ s).2.1, hid]
    rfl
  · rw [(foldl_effect _ s).2.2, hgroups]
    rfl
  · exact fun u hu => carries_reconnectUrl hA hu
  · exact fun hq => buildReconnect_isSome hA _ _ _ _ _ _ hq

/-- An answer, a text that does not parse and two messages; the callback throws at each of its first two
calls. -/
theorem deliver_in_order_sample :
    ∃ s', (processResponses
        (fun r =>
          if r = "\x7b\"I\":\"0\"\x7d" then some (.object [("I", .string "0")])
          else if r = "\x7b\"C\":\"d-1\",\"G\":\"g+1\",\"M\":[null,true]\x7d" then
            some (.object [("C", .string "d-1"), ("G", .string "g+1"), ("M", .array [.null, .bool true])])
          else none)
        (fun calls => if calls.length = 1 then some .other else if calls.length = 2 then some .std else none)
        ["\x7b\"I\":\"0\"\x7d", "?", "\x7b\"C\":\"d-1\",\"G\":\"g+1\",\"M\":[null,true]\x7d"]).from {} =
          (.ok (), s') ∧
      s'.received = [.object [("I", .string "0")], .null, .bool true] ∧
      s'.messageId = "d-1" ∧ s'.groupsToken = "g+1" ∧
      ∃ u, reconnectUrl uriApi ⟨⟨"http", "fake", "/signalr", "", "", ⟨rfl, rfl⟩⟩, .websockets, "token", "", ""⟩ s' =
          some u ∧
        values "messageId" u.query = [utf8 "d-1"] ∧ values "groupsToken" u.query = [utf8 "g+1"] := by
  obtain ⟨s', hrun, hrec, hid, hgroups, hurl⟩ := deliver_in_order uriApi_lawful
    (fun r =>
      if r = "\x7b\"I\":\"0\"\x7d" then some (.object [("I", .string "0")])
      else if r = "\x7b\"C\":\"d-1\",\"G\":\"g+1\",\"M\":[null,true]\x7d" then
        some (.object [("C", .string "d-1"), ("G", .string "g+1"), ("M", .array [.null, .bool true])])
      else none)
    (fun calls => if calls.length = 1 then some .other else if calls.length = 2 then some .std else none)
    ["\x7b\"I\":\"0\"\x7d", "?", "\x7b\"C\":\"d-1\",\"G\":\"g+1\",\"M\":[null,true]\x7d"] {} (by
      intro r hr v hv hm
      rcases List.mem_cons.mp hr with rfl | hr
      · cases hv
        cases hm
      · rcases List.mem_cons.mp hr with rfl | hr
        · cases hv
        · obtain rfl := List.mem_singleton.mp hr
          cases hv
          rfl)
  have hid' : s'.messageId = "d-1" := hid
  have hgroups' : s'.groupsToken = "g+1" := hgroups
  obtain ⟨hcarries, hbuilt⟩ := hurl ⟨⟨"http", "fake", "/signalr", "", "", ⟨rfl, rfl⟩⟩, .websockets, "token", "", ""⟩
  obtain ⟨u, hu⟩ := Option.isSome_iff_exists.mp (hbuilt rfl)
  obtain ⟨h₁, h₂⟩ := hcarries u hu
  refine ⟨s', hrun, hrec, hid', hgroups', u, hu, ?_, ?_⟩
  · rw [Carries, hid'] at h₁
    exact h₁
  · rw [Carries, hgroups'] at h₂
    exact h₂

/-! ## A response that cannot be processed -/

/-- It does not parse, or it is an object with an array `M`, without a field `I` and without a string `C`. -/
def unprocessable : Option Json → Bool
  | none => true
  | some v => (messagesOf? v).isSome && (v.stringField? "C").isNone

/-- When the statement on `M` throws. -/
theorem processMessages_fst (result : Json) (s : Session) :
    ((processMessages handler result).from s).1 =
      if ((result.at? "M").bind Json.asArray?).isSome && (result.stringField? "C").isNone then .error .std
      else .ok () := by
  unfold processMessages
  cases (result.at? "M").bind Json.asArray? with
  | none => rfl
  | some ms =>
    cases result.stringField? "C" with
    | none => rfl
    | some c => cases isInit result <;> simp [orThrow, forM_invokeMessageReceived_from]

/-- **The handler of `process_response` is reached for the responses that cannot be processed.** -/
theorem processBody_fst (response : String) (s : Session) :
    ((processBody parse handler response).from s).1 =
      if unprocessable (parse response) then .error .std else .ok () := by
  unfold processBody unprocessable messagesOf?
  cases parse response with
  | none => rfl
  | some result =>
    simp only [orThrow, bind_from, pure_from]
    by_cases hobj : result.isObject = true
    · by_cases hI : result.hasField "I" = true
      · simp [hobj, hI]
      · simp [hobj, hI, updateGroupsToken_from, processMessages_fst]
    · simp [hobj]

/-- Nothing has come of a response. -/
structure Intact (s s' : Session) : Prop where
  messageId : s'.messageId = s.messageId
  groupsToken : s'.groupsToken = s.groupsToken
  connectRequestTce : s'.connectRequestTce = s.connectRequestTce
  received : s'.received = s.received

theorem Intact.refl (s : Session) : Intact s s := ⟨rfl, rfl, rfl, rfl⟩

/-- What an unprocessable response does before the accessor throws. -/
theorem processEffects_of_unprocessable {r : Option Json} (h : unprocessable r = true) :
    processEffects r = (groupsTokenOf r).toList.map .setGroupsToken := by
  cases r with
  | none => rfl
  | some v =>
    simp only [unprocessable, Bool.and_eq_true, Option.isNone_iff_eq_none] at h
    obtain ⟨hM, hC⟩ := h
    obtain ⟨ms, hms⟩ := Option.isSome_iff_exists.mp hM
    unfold messagesOf? at hms
    split at hms
    · rename_i hobj
      rw [Bool.and_eq_true, Bool.not_eq_true'] at hobj
      simp [processEffects, groupsTokenOf, messagesEffects, hobj.1, hobj.2, hms, hC]
    · cases hms

/-- A response that writes the groups token and then throws: an object without a field `I`, with a string `G` that
is not the present groups token, an array `M` and no string `C`. -/
def Tears (r : Option Json) (s : Session) : Prop :=
  ∃ v g, r = some v ∧ (messagesOf? v).isSome = true ∧ v.stringField? "C" = none ∧ v.stringField? "G" = some g ∧
    g ≠ s.groupsToken

/-- **When a response that ends in the handler leaves the resume point as it was.** -/
theorem intact_iff (parse : String → Option Json) (handler : List Json → Option Exn) (response : String) (s : Session) :
    (((processBody parse handler response).from s).1 = .error .std →
      Intact s ((processResponse parse handler response).from s).2) ↔ ¬ Tears (parse response) s := by
  rw [processBody_fst, processResponse_from]
  refine ⟨fun hintact => ?_, fun htears hcatch => ?_⟩
  · rintro ⟨v, g, hv, hM, hC, hG, hne⟩
    have hunp : unprocessable (parse response) = true := by
      rw [hv]
      simp [unprocessable, hM, hC]
    have hgroups : groupsTokenOf (parse response) = some g := by
      obtain ⟨ms, hms⟩ := Option.isSome_iff_exists.mp hM
      unfold messagesOf? at hms
      split at hms
      · rename_i hobj
        rw [hv, groupsTokenOf, if_pos hobj, hG]
      · cases hms
    have hi := hintact (by rw [if_pos hunp])
    rw [processEffects_of_unprocessable hunp, hgroups] at hi
    exact hne hi.groupsToken
  · have hunp : unprocessable (parse response) = true := by
      by_contra hno
      rw [if_neg hno] at hcatch
      cases hcatch
    show Intact s (List.foldl Session.effect s (processEffects (parse response)))
    rw [processEffects_of_unprocessable hunp]
    cases hg : groupsTokenOf (parse response) with
    | none => exact .refl s
    | some g =>
      -- the token that is written is the one that is there
      have hsame : g = s.groupsToken := by
        by_contra hne
        refine htears ?_
        cases hr : parse response with
        | none =>
          rw [hr] at hg
          cases hg
        | some v =>
          rw [hr] at hg hunp
          simp only [unprocessable, Bool.and_eq_true, Option.isNone_iff_eq_none] at hunp
          simp only [groupsTokenOf] at hg
          split at hg
          · exact ⟨v, g, rfl, hunp.1, hunp.2, hg, hne⟩
          · cases hg
      rw [hsame]
      exact .refl s

/-- A groups token and messages, but no message id. -/
theorem missing_id_tears : ¬ ∀ (parse : String → Option Json) (handler : List Json → Option Exn) (response : String)
    (s : Session), ((processBody parse handler response).from s).1 = .error .std →
      Intact s ((processResponse parse handler response).from s).2 := by
  intro hall
  have hintact := hall
    (fun r => if r = "\x7b\"G\":\"g\",\"M\":[]\x7d" then some (.object [("G", .string "g"), ("M", .array [])]) else none)
    (fun _ => none) "\x7b\"G\":\"g\",\"M\":[]\x7d" {} (by
      rw [processBody_fst]
      rfl)
  rw [processResponse_from] at hintact
  have hgroups : ("g" : String) = "" := hintact.groupsToken
  exact absurd hgroups (by decide)

end SignalRClient.Connection
