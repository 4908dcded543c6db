import SignalRClient.Uri.Query

/-!
# URIs and their builder

`web::uri` and `web::uri_builder` come with the HTTP library.  `UriApi` has the operations that the
client uses, `UriApi.Lawful` what it relies on: what the query of a builder is after each of them, and
when `to_uri()` throws.  `Uri` and `UriBuilder` are an implementation.
-/

namespace SignalRClient

open Uri

/-- The operations on a `web::uri` (`U`) and a `web::uri_builder` (`B`). -/
structure UriApi (U B : Type) where
  builder : U → B                          -- uri_builder(uri)
  appendPath : B → String → B              -- append_path(path)
  appendQuery : B → String → B             -- append_query(query)
  appendNamed : B → String → String → B    -- append_query(name, value, /* do_encoding */ true)
  scheme : B → String                      -- scheme()
  setScheme : B → String → B               -- set_scheme(scheme)
  toUri : B → Option U                     -- to_uri(); `none` where it throws a uri_exception
  uriQuery : U → String                    -- uri::query()
  query : B → String                       -- uri_builder::query()
  valid : B → Prop                         -- the parts are those of a URI

/-- What the client relies on.  `to_uri()` parses the parts once more, so that a `#` that got into the
query ends it. -/
structure UriApi.Lawful {U B : Type} (A : UriApi U B) : Prop where
  uriQuery_char : ∀ u, ∀ c ∈ (A.uriQuery u).toList, isQueryCharacter c = true
  query_builder : ∀ u, A.query (A.builder u) = A.uriQuery u
  query_appendPath : ∀ b p, A.query (A.appendPath b p) = A.query b
  query_setScheme : ∀ b s, A.query (A.setScheme b s) = A.query b
  query_appendQuery : ∀ b q, (A.query (A.appendQuery b q)).toList = joinQuery (A.query b).toList q.toList
  appendNamed_eq : ∀ b n v, A.appendNamed b n v = A.appendQuery b (namedEntry n v)
  valid_builder : ∀ u, A.valid (A.builder u)
  valid_appendPath : ∀ b p, p.toList.all Char.isAlpha = true → A.valid b → A.valid (A.appendPath b p)
  valid_setScheme : ∀ b s, s.toList.all Char.isAlpha = true → A.valid b → A.valid (A.setScheme b s)
  valid_appendQuery : ∀ b q, q.toList.all isQueryCharacter = true → A.valid b → A.valid (A.appendQuery b q)
  toUri_isSome : ∀ b, A.valid b → (A.toUri b).isSome = true
  uriQuery_toUri : ∀ b u, A.toUri b = some u → (A.uriQuery u).toList = (A.query b).toList.takeWhile (· ≠ '#')

namespace UriApi.Lawful

variable {U B : Type} {A : UriApi U B}

theorem entries_appendQuery (hA : A.Lawful) {b : B} (h : '#' ∉ (A.query b).toList) (q : String) :
    entries (A.query (A.appendQuery b q)).toList = entries (A.query b).toList ++ entries q.toList := by
  rw [hA.query_appendQuery, entries_joinQuery h]

theorem entries_appendNamed (hA : A.Lawful) {b : B} (h : '#' ∉ (A.query b).toList) (n v : String) :
    entries (A.query (A.appendNamed b n v)).toList = entries (A.query b).toList ++ [(namedEntry n v).toList] := by
  rw [hA.appendNamed_eq, hA.entries_appendQuery h, entries_namedEntry]

theorem hash_appendNamed (hA : A.Lawful) {b : B} (h : '#' ∉ (A.query b).toList) (n v : String) :
    '#' ∉ (A.query (A.appendNamed b n v)).toList := by
  rw [hA.appendNamed_eq, hA.query_appendQuery]
  intro hm
  rcases of_mem_joinQuery hm with hm | hm | hm
  · exact h hm
  · exact namedEntry_hash n v hm
  · cases hm

theorem hash_builder (hA : A.Lawful) (u : U) : '#' ∉ (A.query (A.builder u)).toList := by
  rw [hA.query_builder]
  intro hm
  exact absurd (hA.uriQuery_char u _ hm) (by decide)

theorem valid_appendNamed (hA : A.Lawful) {b : B} (h : A.valid b) (n v : String) : A.valid (A.appendNamed b n v) := by
  rw [hA.appendNamed_eq]
  refine hA.valid_appendQuery b _ ?_ h
  rw [List.all_eq_true]
  exact fun c hc => (of_mem_namedEntry hc).1

/-- `to_uri()` changes nothing that a query says. -/
theorem values_toUri (hA : A.Lawful) {b : B} {u : U} (h : A.toUri b = some u) (name : String) :
    values name (A.uriQuery u) = values name (A.query b) := by
  rw [values, hA.uriQuery_toUri b u h, entries, List.takeWhile_idem]
  rfl

end UriApi.Lawful

/-! ## An implementation -/

structure Uri where
  scheme : String
  authority : String
  path : String
  query : String
  fragment : String
  valid : query.toList.all isQueryCharacter = true ∧ fragment.toList.all isQueryCharacter = true

structure UriBuilder where
  scheme : String
  authority : String
  path : String
  query : String
  fragment : String

namespace UriBuilder

def ofUri (u : Uri) : UriBuilder := ⟨u.scheme, u.authority, u.path, u.query, u.fragment⟩

/-- One `/` between the two paths; nothing is done for an empty path and for `/`. -/
def appendPath (b : UriBuilder) (p : String) : UriBuilder :=
  if p = "" ∨ p = "/" then b
  else if b.path = "" ∨ b.path = "/" then { b with path := if p.front = '/' then p else "/" ++ p }
  else if b.path.back = '/' ∧ p.front = '/' then { b with path := String.ofList b.path.toList.dropLast ++ p }
  else if b.path.back ≠ '/' ∧ p.front ≠ '/' then { b with path := b.path ++ "/" ++ p }
  else { b with path := b.path ++ p }

def appendQuery (b : UriBuilder) (q : String) : UriBuilder :=
  { b with query := String.ofList (joinQuery b.query.toList q.toList) }

def setScheme (b : UriBuilder) (s : String) : UriBuilder := { b with scheme := s }

/-- The query and what stands between it and the end of the URI. -/
def tail (b : UriBuilder) : List Char :=
  b.query.toList ++ if b.fragment = "" then [] else '#' :: b.fragment.toList

/-- The tail is split again, at its first character that does not belong to a query. -/
def toUri (b : UriBuilder) : Option Uri :=
  let rest := b.tail.dropWhile isQueryCharacter
  if h : rest.head?.all (· = '#') = true ∧ rest.tail.all isQueryCharacter = true then
    some { scheme := b.scheme, authority := b.authority, path := b.path,
           query := String.ofList (b.tail.takeWhile isQueryCharacter),
           fragment := String.ofList rest.tail,
           valid := by
             rw [String.toList_ofList, String.toList_ofList]
             exact ⟨List.all_takeWhile, h.2⟩ }
  else none

end UriBuilder

def uriApi : UriApi Uri UriBuilder where
  builder := UriBuilder.ofUri
  appendPath := UriBuilder.appendPath
  appendQuery := UriBuilder.appendQuery
  appendNamed b n v := b.appendQuery (namedEntry n v)
  scheme := UriBuilder.scheme
  setScheme := UriBuilder.setScheme
  toUri := UriBuilder.toUri
  uriQuery := Uri.query
  query := UriBuilder.query
  valid b := b.query.toList.all isQueryCharacter = true ∧ b.fragment.toList.all isQueryCharacter = true

theorem isQueryCharacter_ne {c : Char} (h : isQueryCharacter c = true) : c ≠ '#' := by
  rintro rfl
  exact absurd h (by decide)

/-- A text that stops being a query at a `#` is cut there. -/
theorem takeWhile_isQueryCharacter {l : List Char} (h : (l.dropWhile isQueryCharacter).head?.all (· = '#') = true) :
    l.takeWhile isQueryCharacter = l.takeWhile (· ≠ '#') := by
  induction l with
  | nil => rfl
  | cons c l ih =>
    by_cases hc : isQueryCharacter c = true
    · rw [List.dropWhile_cons_of_pos hc] at h
      rw [List.takeWhile_cons_of_pos hc, ih h, List.takeWhile_cons, if_pos (by simpa using isQueryCharacter_ne hc)]
    · rw [List.dropWhile_cons_of_neg hc] at h
      have he : c = '#' := by simpa using h
      rw [List.takeWhile_cons_of_neg hc, he]
      rfl

theorem takeWhile_tail (b : UriBuilder) : b.tail.takeWhile (· ≠ '#') = b.query.toList.takeWhile (· ≠ '#') := by
  unfold UriBuilder.tail
  generalize b.query.toList = q
  induction q with
  | nil => split_ifs <;> rfl
  | cons c q ih =>
    rw [List.cons_append, List.takeWhile_cons, List.takeWhile_cons, ih]

theorem uriApi_lawful : uriApi.Lawful where
  uriQuery_char u c hc := List.all_eq_true.mp u.valid.1 c hc
  query_builder _ := rfl
  query_appendPath b p := by
    show (b.appendPath p).query = b.query
    unfold UriBuilder.appendPath
    split_ifs <;> rfl
  query_setScheme _ _ := rfl
  query_appendQuery b q := by
    show (String.ofList _).toList = _
    rw [String.toList_ofList]
    rfl
  appendNamed_eq _ _ _ := rfl
  valid_builder u := u.valid
  valid_appendPath b p _ h := by
    have hf : (b.appendPath p).query = b.query ∧ (b.appendPath p).fragment = b.fragment := by
      unfold UriBuilder.appendPath
      split_ifs <;> exact ⟨rfl, rfl⟩
    show _ ∧ _
    rw [show uriApi.appendPath b p = b.appendPath p from rfl, hf.1, hf.2]
    exact h
  valid_setScheme _ _ _ h := h
  valid_appendQuery b q hq h := by
    refine ⟨?_, h.2⟩
    show (String.ofList (joinQuery b.query.toList q.toList)).toList.all isQueryCharacter = true
    rw [String.toList_ofList, List.all_eq_true]
    intro c hc
    rcases of_mem_joinQuery hc with hc | hc | rfl
    · exact List.all_eq_true.mp h.1 c hc
    · exact List.all_eq_true.mp hq c hc
    · decide
  toUri_isSome b h := by
    have hq : ∀ c ∈ b.query.toList, isQueryCharacter c = true := List.all_eq_true.mp h.1
    have hrest : b.tail.dropWhile isQueryCharacter = if b.fragment = "" then [] else '#' :: b.fragment.toList := by
      rw [UriBuilder.tail, List.dropWhile_append_of_pos hq]
      split_ifs
      · rfl
      · rfl
    have hok : (b.tail.dropWhile isQueryCharacter).head?.all (· = '#') = true ∧
        (b.tail.dropWhile isQueryCharacter).tail.all isQueryCharacter = true := by
      rw [hrest]
      split_ifs
      · exact ⟨rfl, rfl⟩
      · exact ⟨rfl, h.2⟩
    show (b.toUri).isSome = true
    rw [UriBuilder.toUri, dif_pos hok]
    rfl
  uriQuery_toUri b u h := by
    have hb : b.toUri = some u := h
    simp only [UriBuilder.toUri] at hb
    split at hb
    · rename_i hok
      injection hb with hb
      rw [← hb]
      show (String.ofList _).toList = _
      rw [String.toList_ofList, takeWhile_isQueryCharacter hok.1, takeWhile_tail]
      rfl
    · cases hb

end SignalRClient
