import SignalRClient.Connection.Model

/-!
# The negotiate and the start request

What `http_sender::get` makes of a response, and `request_sender::negotiate` and `request_sender::start`
of its body.  The parser of the JSON library is a parameter.  All their exceptions are std exceptions.

* `negotiate_fields` — what `negotiate` returns was in the body;
* `start_ok_iff` — `start` accepts the answer `started` and no other.
-/

namespace SignalRClient

/-! ## Two more accessors -/

namespace Json

def isNull : Json → Bool
  | .null => true
  | _ => false

/-- `json[key]` of a value that is not constant: a missing field is made as null, and so is an object of a
null value; `none` where it throws. -/
def index? : Json → String → Option Json
  | .null, _ => some .null
  | .object fields, key => some ((fields.lookup key).getD .null)
  | _, _ => none

/-- `as_double()`; `none` where it throws. -/
def asDouble? : Json → Option ℚ
  | .integer i => some i
  | .double q => some q
  | _ => none

/-- A field that is not null was in the value. -/
theorem at?_of_index? {v w : Json} {key : String} (h : v.index? key = some w) (hw : w.isNull = false) :
    v.at? key = some w := by
  cases v with
  | object fields =>
    simp only [index?, Option.some.injEq] at h
    cases hl : fields.lookup key with
    | none =>
      rw [hl] at h
      subst h
      cases hw
    | some x =>
      rw [hl] at h
      rw [at?, hl, ← h]
      rfl
  | null =>
    simp only [index?, Option.some.injEq] at h
    subst h
    cases hw
  | _ => cases h

theorem at?_of_asString? {v w : Json} {key s : String} (h : v.index? key = some w) (hs : w.asString? = some s) :
    v.at? key = some (.string s) := by
  cases w with
  | string s' =>
    cases hs
    exact at?_of_index? h rfl
  | _ => cases hs

theorem at?_of_asBool? {v w : Json} {key : String} {b : Bool} (h : v.index? key = some w)
    (hb : w.asBool? = some b) : v.at? key = some (.bool b) := by
  cases w with
  | bool b' =>
    cases hb
    exact at?_of_index? h rfl
  | _ => cases hb

theorem index?_of_at? {v w : Json} {key : String} (h : v.at? key = some w) : v.index? key = some w := by
  cases v with
  | object fields =>
    have hl : fields.lookup key = some w := h
    simp [index?, hl]
  | _ => cases h

end Json

namespace Connection

/-! ## Responses -/

structure WebResponse where
  statusCode : ℕ
  reasonPhrase : String
  body : String

/-- `web_exception`, `signalr_exception`, or what the JSON library throws. -/
inductive RequestError where
  | web (what : String) (statusCode : ℕ)
  | signalr (what : String)
  | json

/-- `http_sender::get`, from the response on -/
def get (response : WebResponse) : Except RequestError String :=
  if response.statusCode ≠ 200 then
    .error (.web ("web exception - " ++ toString response.statusCode ++ " " ++ response.reasonPhrase)
      response.statusCode)
  else .ok response.body

/-- `(int)(seconds * 1000)`, before the conversion to 32 bits -/
def milliseconds (seconds : ℚ) : ℤ := (seconds * 1000).num.tdiv (seconds * 1000).den

/-- The keep-alive timeout, which may be null. -/
def keepAliveTimeout? (v : Json) : Option ℤ :=
  (v.index? "KeepAliveTimeout").bind fun k => if k.isNull then some (-1) else k.asDouble?.map milliseconds

/-- The fields of a negotiation response; `none` where an accessor throws. -/
def NegotiationResponse.ofJson (v : Json) : Option NegotiationResponse := do
  let connectionId ← (← v.index? "ConnectionId").asString?
  let connectionToken ← (← v.index? "ConnectionToken").asString?
  let disconnectTimeout ← (← v.index? "DisconnectTimeout").asDouble?
  let keepAliveTimeout ← keepAliveTimeout? v
  let protocolVersion ← (← v.index? "ProtocolVersion").asString?
  let tryWebSockets ← (← v.index? "TryWebSockets").asBool?
  let transportConnectTimeout ← (← v.index? "TransportConnectTimeout").asDouble?
  return ⟨connectionId, connectionToken, milliseconds disconnectTimeout, keepAliveTimeout, protocolVersion,
    tryWebSockets, milliseconds transportConnectTimeout⟩

section

variable (parse : String → Option Json)

/-- `request_sender::negotiate`, from the body of the response on -/
def negotiate (body : String) : Except RequestError NegotiationResponse :=
  match (parse body).bind NegotiationResponse.ofJson with
  | some r => .ok r
  | none => .error .json

def startError (body : String) : RequestError :=
  .signalr ("start request failed due to unexpected response from the server: " ++ body)

/-- `request_sender::start`, from the body of the response on -/
def start (body : String) : Except RequestError Unit :=
  match (parse body).bind (·.index? "Response") with
  | none => .error .json
  | some v =>
    if v.isNull then .error (startError body)
    else match v.asString? with
      | none => .error .json
      | some s => if s ≠ "started" then .error (startError body) else .ok ()

/-- The body answers the start request with `started`. -/
def Started (body : String) : Prop := ∃ v, parse body = some v ∧ v.at? "Response" = some (.string "started")

end

section

variable {parse : String → Option Json} {body : String}

theorem start_ok_iff : start parse body = .ok () ↔ Started parse body := by
  constructor
  · intro h
    simp only [start] at h
    split at h
    · cases h
    · rename_i w hw
      obtain ⟨v, hv, hi⟩ := Option.bind_eq_some_iff.mp hw
      split at h
      · cases h
      · split at h
        · cases h
        · rename_i x hs
          split at h
          · cases h
          · rename_i hx
            obtain rfl : x = "started" := by simpa using hx
            exact ⟨v, hv, Json.at?_of_asString? hi hs⟩
  · rintro ⟨v, hv, hr⟩
    have hi : (parse body).bind (·.index? "Response") = some (.string "started") := by
      rw [hv]
      exact Json.index?_of_at? hr
    simp [start, hi, Json.isNull, Json.asString?]

/-- What `negotiate` returns was in the body. -/
theorem negotiate_fields {r : NegotiationResponse} (h : negotiate parse body = .ok r) :
    ∃ v, parse body = some v ∧ v.at? "ConnectionId" = some (.string r.connectionId) ∧
      v.at? "ConnectionToken" = some (.string r.connectionToken) ∧
      v.at? "ProtocolVersion" = some (.string r.protocolVersion) ∧
      v.at? "TryWebSockets" = some (.bool r.tryWebSockets) := by
  simp only [negotiate] at h
  split at h
  · rename_i r' hr
    cases h
    obtain ⟨v, hv, hd⟩ := Option.bind_eq_some_iff.mp hr
    simp only [NegotiationResponse.ofJson, Option.bind_eq_bind, Option.bind_eq_some_iff, Option.pure_def,
      Option.some.injEq] at hd
    obtain ⟨i, hi, id, hid, k, hk, tok, htok, -, -, -, -, -, -, w, hw, pv, hpv, b, hb, ws, hws, -, -, -, -,
      rfl⟩ := hd
    exact ⟨v, hv, Json.at?_of_asString? hi hid, Json.at?_of_asString? hk htok, Json.at?_of_asString? hw hpv,
      Json.at?_of_asBool? hb hws⟩
  · cases h

end

/-! ## Outcomes of the requests -/

/-- How the task of an HTTP request ends: with a response, a std or another exception. -/
inductive Reply where
  | response (r : WebResponse) | fault | faultOther

/-- What comes of a reply whose body is read by `decode`. -/
def Reply.outcome {α : Type} (decode : String → Except RequestError α) (ok : α → Outcome) : Reply → Outcome
  | .response r => match (get r).bind decode with
    | .ok a => ok a
    | .error _ => .fault
  | .fault => .fault
  | .faultOther => .faultOther

theorem Reply.outcome_eq {α : Type} {decode : String → Except RequestError α} {ok : α → Outcome} {reply : Reply}
    {o : Outcome} (h : reply.outcome decode ok = o) (hf : o ≠ .fault) (hf' : o ≠ .faultOther) :
    ∃ r a, reply = .response r ∧ r.statusCode = 200 ∧ decode r.body = .ok a ∧ ok a = o := by
  cases reply with
  | response r =>
    simp only [outcome, get] at h
    by_cases hs : r.statusCode = 200
    · simp only [hs, ne_eq, not_true_eq_false, if_false] at h
      cases hd : decode r.body with
      | ok a =>
        simp only [Except.bind, hd] at h
        exact ⟨r, a, rfl, hs, hd, h⟩
      | error e =>
        simp only [Except.bind, hd] at h
        exact absurd h.symm hf
    · simp only [ne_eq, hs, not_false_eq_true, if_true, Except.bind] at h
      exact absurd h.symm hf
  | fault => exact absurd h.symm hf
  | faultOther => exact absurd h.symm hf'

end Connection

end SignalRClient
