import SignalRClient.Json

/-!
# What a response from the server does to the connection

`processEffects` lists, in program order, the writes and calls that `connection_impl::process_response`
makes for one response.  The list is what the connection model interleaves and what the sequential
`processResponse` is shown to perform.
-/

namespace SignalRClient

/-- One write or call of `process_response`. -/
inductive Effect where
  | setGroupsToken (g : String)        -- m_groups_token = ...
  | setMessageId (c : String)          -- m_message_id = ...
  | connectSet                         -- connect_request_tce.set()
  | receive (m : Json)                 -- invoke_message_received(m)

/-- The init message: `S` is the integer 1. -/
def isInit (result : Json) : Bool := (result.at? "S").bind Json.asInteger? == some 1

/-- The part of `process_response` behind the test for an array `M` with the elements `ms`. -/
def messagesEffects (result : Json) (ms : List Json) : List Effect :=
  match result.stringField? "C" with
  | some c => .setMessageId c :: ((if isInit result then [.connectSet] else []) ++ ms.map .receive)
  -- at("C") or as_string() throws, and the handler of process_response swallows the exception
  | none => []

/-- What is done with the parsed response; `none` is a response that does not parse. -/
def processEffects : Option Json → List Effect
  | none => []
  | some result =>
    if result.isObject then
      if result.hasField "I" then [.receive result]
      else
        (result.stringField? "G").toList.map .setGroupsToken ++
          ((result.at? "M").bind Json.asArray?).elim [] (messagesEffects result)
    else []

end SignalRClient
