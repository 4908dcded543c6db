import SignalRClient.Connection.Model

/-!
# The messages of a hub

What `hub_connection_impl` reads out of a message: `processMessage` is the decision of
`process_message` and `invoke_callback` where a message goes, `invocationReply` that of the callback
which `create_hub_invocation_callback` makes for an invocation.  An exception is kept by the JSON that
its text is the serialization of.
-/

namespace SignalRClient.Hub

/-! ## Where a message goes -/

inductive Dispatch where
  /-- to the callback with this id; `remove` tells whether it is taken out of the table -/
  | callback (id : String) (remove : Bool)
  /-- to the handler of an event of a hub proxy -/
  | event (hubName method : String) (arguments : Json)
  /-- an accessor throws -/
  | throws
  | discard

def isProgress (message : Json) : Bool := message.hasField "P"

/-- `is_progress ? message.at("P") : message` -/
def idSource (message : Json) : Json := (message.at? "P").getD message

def callbackId? (message : Json) : Option String := (idSource message).stringField? "I"

def processMessage (message : Json) : Dispatch :=
  if message.isObject then
    match if message.hasField "I" then callbackId? message else none with
    | some id => .callback id (!isProgress message)
    | none =>
      match message.at? "H", message.at? "M", message.at? "A" with
      | some h, some m, some a =>
        match h.asString?, m.asString? with
        | some hubName, some method => .event hubName method a
        | _, _ => .throws
      | _, _, _ => .discard
  else .discard

theorem of_processMessage {message : Json} {id : String} {remove : Bool}
    (h : processMessage message = .callback id remove) :
    callbackId? message = some id ∧ remove = !message.hasField "P" := by
  unfold processMessage at h
  split at h
  · split at h
    · rename_i id' hid
      injection h with h₁ h₂
      refine ⟨?_, h₂.symm⟩
      rw [← h₁]
      split at hid
      · exact hid
      · cases hid
    · split at h
      · split at h <;> cases h
      · cases h
  · cases h

/-! ## What a message tells an invocation -/

inductive Reply where
  | result (value : Json)
  | progress (data : Json)
  | hubException (error data : Json)
  | signalrException (error : Json)

/-- The callback of an invocation, up to what it does with the reply. -/
def invocationReply (message : Json) : Reply :=
  match message.at? "R" with
  | some value => .result value
  | none =>
    match message.at? "P" with
    | some progress => .progress ((progress.at? "D").getD .null)
    | none =>
      match message.at? "E" with
      | some error =>
        if (message.at? "H").bind Json.asBool? = some true then
          .hubException error ((message.at? "D").getD .null)
        else .signalrException error
      | none => .result .null

inductive SendError where
  /-- "cannot send data when the connection is not in the connected state. current connection state: " -/
  | notConnected (current : Connection.ConnectionState)
  /-- the exception of the task of `transport->send()` -/
  | fault

inductive Completion where
  | result (value : Json)
  | done
  | hubException (error data : Json)
  | signalrException (error : Json)
  | sendError (e : SendError)

/-- What a reply completes a task with; `void` tells `invoke_void` from `invoke_json`. -/
def Reply.completion? (void : Bool) : Reply → Option Completion
  | .result value => some (if void then .done else .result value)
  | .progress _ => none
  | .hubException error data => some (.hubException error data)
  | .signalrException error => some (.signalrException error)

/-- A message that answers: it has a field `R` or lacks a field `P`. -/
def Answers (message : Json) : Prop := message.hasField "R" = true ∨ message.hasField "P" = false

instance (message : Json) : Decidable (Answers message) := inferInstanceAs (Decidable (_ ∨ _))

/-- **The callback completes the task for the messages that answer**, and reports progress for the
others. -/
theorem completion?_isSome (void : Bool) (message : Json) :
    ((invocationReply message).completion? void).isSome = true ↔ Answers message := by
  unfold invocationReply Answers Json.hasField
  cases message.at? "R" with
  | some value => simp [Reply.completion?]
  | none =>
    cases message.at? "P" with
    | some progress => simp [Reply.completion?]
    | none =>
      cases message.at? "E" with
      | some error =>
        dsimp only
        split <;> simp [Reply.completion?]
      | none => simp [Reply.completion?]

/-- What `on_progress` is called with. -/
def progressData? (message : Json) : Option Json :=
  if message.hasField "R" then none else (message.at? "P").map fun p => (p.at? "D").getD .null

theorem progressData?_eq (message : Json) :
    progressData? message = match invocationReply message with
      | .progress data => some data
      | _ => none := by
  unfold invocationReply progressData? Json.hasField
  cases message.at? "R" with
  | some value => rfl
  | none =>
    cases message.at? "P" with
    | some progress => rfl
    | none =>
      cases message.at? "E" with
      | some error => by_cases hb : (message.at? "H").bind Json.asBool? = some true <;> simp [hb]
      | none => rfl

end SignalRClient.Hub
