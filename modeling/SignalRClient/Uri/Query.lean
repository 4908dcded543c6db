import SignalRClient.Uri.Percent

/-!
# Query strings

A query is a text of entries between `&`; it ends at the first `#`, where the fragment of a URI begins.
`entries` leaves out the empty ones, and `values` reads off what a query says about a name, with both
sides of the `=` decoded.

`joinQuery` is how one more piece gets into a query: between the two there is exactly one `&`, whether
or not the one ends with it or the other begins with it.  Seen through `entries` it is concatenation.

`Spells` is a query that is made of named entries and nothing else; whatever is joined to it comes behind them.
-/

namespace SignalRClient.Uri

/-! ## Characters -/

/-- `unreserved / pct-encoded / sub-delims / ":" / "@" / "/" / "?"` -/
def isQueryCharacter (c : Char) : Bool := c.isAlphanum || "-._~%!$&'()*+,;=/:@?".toList.contains c

/-- The bytes of a name or a value that are left as they are. -/
def isValueCharacter (b : UInt8) : Bool :=
  b < 128 && isQueryCharacter (Char.ofNat b.toNat) && !"&;=%+".toList.contains (Char.ofNat b.toNat)

theorem isValueCharacter_safe : SafeTest isValueCharacter where
  ascii b hb := by
    simp only [isValueCharacter, Bool.and_eq_true, decide_eq_true_eq] at hb
    exact hb.1.1
  percent := by decide

/-- What gets into an encoded text can stand in a query and is not one of its delimiters. -/
theorem of_mem_encodeText {v : String} {c : Char} (h : c ∈ (encodeText isValueCharacter v).toList) :
    isQueryCharacter c = true ∧ c ≠ '&' ∧ c ≠ '=' := by
  rw [encodeText, String.toList_ofList] at h
  rcases of_mem_encodeBytes h with ⟨b, hb, rfl⟩ | rfl | ⟨d, hd, rfl⟩
  · simp only [isValueCharacter, Bool.and_eq_true, Bool.not_eq_true'] at hb
    refine ⟨hb.1.2, ?_, ?_⟩
    · intro e
      rw [e] at hb
      exact absurd hb.2 (by decide)
    · intro e
      rw [e] at hb
      exact absurd hb.2 (by decide)
  · decide
  · have hall : ∀ d : Fin 16, isQueryCharacter (hexDigit d) = true ∧ hexDigit d ≠ '&' ∧ hexDigit d ≠ '=' := by
      decide
    exact hall ⟨d, hd⟩

/-! ## Reading -/

/-- The entries of a query. -/
def entries (q : List Char) : List (List Char) :=
  ((q.takeWhile (· ≠ '#')).splitOn '&').filter (· ≠ [])

/-- The value of an entry for a name. -/
def entryValue (name : String) (e : List Char) : Option (List UInt8) :=
  if decodeBytes (e.takeWhile (· ≠ '=')) = utf8 name then some (decodeBytes ((e.dropWhile (· ≠ '=')).drop 1))
  else none

/-- What a query says about a name. -/
def values (name query : String) : List (List UInt8) := (entries query.toList).filterMap (entryValue name)

theorem takeWhile_of_not_mem {a : Char} {s : List Char} (h : a ∉ s) (t : List Char) :
    (s ++ t).takeWhile (· ≠ a) = s ++ t.takeWhile (· ≠ a) := by
  refine List.takeWhile_append_of_pos fun c hc => ?_
  have hne : c ≠ a := fun e => h (e ▸ hc)
  simpa using hne

theorem entries_append_cons {s : List Char} (h : '#' ∉ s) (t : List Char) :
    entries (s ++ '&' :: t) = entries s ++ entries t := by
  have hs : s.takeWhile (· ≠ '#') = s := by simpa using takeWhile_of_not_mem h []
  have ht : ('&' :: t).takeWhile (· ≠ '#') = '&' :: t.takeWhile (· ≠ '#') := rfl
  rw [entries, takeWhile_of_not_mem h, ht, List.splitOn_append_cons_self, List.filter_append, entries, hs, entries]

/-- A query without delimiters is one entry. -/
theorem entries_of_not_mem {s : List Char} (hh : '#' ∉ s) (h : '&' ∉ s) (hne : s ≠ []) : entries s = [s] := by
  have hs : s.takeWhile (· ≠ '#') = s := by simpa using takeWhile_of_not_mem hh []
  rw [entries, hs, List.splitOn_eq_singleton h]
  simp [hne]

/-- The text that a name and a value make. -/
def namedEntry (name value : String) : String :=
  encodeText isValueCharacter name ++ "=" ++ encodeText isValueCharacter value

theorem of_mem_namedEntry {n v : String} {c : Char} (h : c ∈ (namedEntry n v).toList) :
    isQueryCharacter c = true ∧ c ≠ '&' := by
  rw [namedEntry, String.toList_append, String.toList_append, List.mem_append, List.mem_append] at h
  rcases h with (h | h) | h
  · exact ⟨(of_mem_encodeText h).1, (of_mem_encodeText h).2.1⟩
  · have hc : c = '=' := by simpa using h
    rw [hc]
    decide
  · exact ⟨(of_mem_encodeText h).1, (of_mem_encodeText h).2.1⟩

/-- The two sides of an entry, decoded. -/
def pair (e : List Char) : List UInt8 × List UInt8 :=
  (decodeBytes (e.takeWhile (· ≠ '=')), decodeBytes ((e.dropWhile (· ≠ '=')).drop 1))

theorem pair_namedEntry (n v : String) : pair (namedEntry n v).toList = (utf8 n, utf8 v) := by
  have hn : '=' ∉ (encodeText isValueCharacter n).toList := fun h => (of_mem_encodeText h).2.2 rfl
  have hl : (namedEntry n v).toList =
      (encodeText isValueCharacter n).toList ++ '=' :: (encodeText isValueCharacter v).toList := by
    simp [namedEntry]
  have htake : (namedEntry n v).toList.takeWhile (· ≠ '=') = (encodeText isValueCharacter n).toList := by
    rw [hl, takeWhile_of_not_mem hn]
    simp
  have hdrop : (namedEntry n v).toList.dropWhile (· ≠ '=') = '=' :: (encodeText isValueCharacter v).toList := by
    have hall : ∀ c ∈ (encodeText isValueCharacter n).toList, decide (c ≠ '=') = true := by
      intro c hc
      have hne : c ≠ '=' := fun e => hn (e ▸ hc)
      simpa using hne
    rw [hl, List.dropWhile_append_of_pos hall]
    simp
  rw [pair, htake, hdrop, List.drop_succ_cons, List.drop_zero, decode_encodeText isValueCharacter_safe,
    decode_encodeText isValueCharacter_safe]

theorem entryValue_namedEntry (name n v : String) :
    entryValue name (namedEntry n v).toList = if n = name then some (utf8 v) else none := by
  obtain ⟨hn, hv⟩ := Prod.ext_iff.mp (pair_namedEntry n v)
  simp only [pair] at hn hv
  rw [entryValue, hn, hv]
  by_cases h : n = name
  · rw [if_pos h, if_pos (congrArg utf8 h)]
  · rw [if_neg h, if_neg fun e => h (utf8_inj e)]

theorem namedEntry_hash (n v : String) : '#' ∉ (namedEntry n v).toList := by
  intro h
  exact absurd (of_mem_namedEntry h).1 (by decide)

theorem entries_namedEntry (n v : String) : entries (namedEntry n v).toList = [(namedEntry n v).toList] := by
  refine entries_of_not_mem (namedEntry_hash n v) (fun h => (of_mem_namedEntry h).2 rfl) ?_
  simp [namedEntry]

/-! ## Joining -/

/-- The two texts with one `&` between them, or the one that is not empty. -/
def joinQuery (s q : List Char) : List Char :=
  if q = [] then s
  else if s = [] then q
  else if s.getLast? = some '&' ∧ q.head? = some '&' then s.dropLast ++ q
  else if s.getLast? ≠ some '&' ∧ q.head? ≠ some '&' then s ++ '&' :: q
  else s ++ q

theorem joinQuery_cases (s q : List Char) :
    (q = [] ∧ joinQuery s q = s) ∨ (s = [] ∧ joinQuery s q = q) ∨
      ∃ s' q', (s = s' ∨ s = s' ++ ['&']) ∧ (q = q' ∨ q = '&' :: q') ∧ joinQuery s q = s' ++ '&' :: q' := by
  have hlast : s.getLast? = some '&' → s = s.dropLast ++ ['&'] := by
    intro h
    exact (List.dropLast_append_getLast? _ h).symm
  have hhead : q.head? = some '&' → q = '&' :: q.tail := by
    intro h
    exact (List.cons_head?_tail h).symm
  unfold joinQuery
  split_ifs with hq hs hboth hnone
  · exact .inl ⟨hq, rfl⟩
  · exact .inr (.inl ⟨hs, rfl⟩)
  · exact .inr (.inr ⟨s.dropLast, q.tail, .inr (hlast hboth.1), .inr (hhead hboth.2), by rw [← hhead hboth.2]⟩)
  · exact .inr (.inr ⟨s, q, .inl rfl, .inl rfl, rfl⟩)
  · by_cases hl : s.getLast? = some '&'
    · refine .inr (.inr ⟨s.dropLast, q, .inr (hlast hl), .inl rfl, ?_⟩)
      calc s ++ q = (s.dropLast ++ ['&']) ++ q := congrArg (· ++ q) (hlast hl)
        _ = s.dropLast ++ '&' :: q := by simp
    · have hh : q.head? = some '&' := by
        by_contra hh
        exact hnone ⟨hl, hh⟩
      exact .inr (.inr ⟨s, q.tail, .inl rfl, .inr (hhead hh), by rw [← hhead hh]⟩)

/-- **The entries of a joined query.** -/
theorem entries_joinQuery {s : List Char} (h : '#' ∉ s) (q : List Char) :
    entries (joinQuery s q) = entries s ++ entries q := by
  have hnil : entries [] = [] := rfl
  have hamp : ∀ t, entries ('&' :: t) = entries t := by
    intro t
    simpa [hnil] using entries_append_cons (s := []) (by simp) t
  rcases joinQuery_cases s q with ⟨rfl, he⟩ | ⟨rfl, he⟩ | ⟨s', q', hs, hq, he⟩
  · rw [he, hnil, List.append_nil]
  · rw [he, hnil, List.nil_append]
  · have hs' : '#' ∉ s' := by
      rcases hs with rfl | rfl
      · exact h
      · exact fun hm => h (List.mem_append_left _ hm)
    have hsame : entries s = entries s' := by
      rcases hs with rfl | rfl
      · rfl
      · rw [entries_append_cons hs', hnil, List.append_nil]
    have hqame : entries q = entries q' := by
      rcases hq with rfl | rfl
      · rfl
      · exact hamp q'
    rw [he, entries_append_cons hs', hsame, hqame]

theorem of_mem_joinQuery {s q : List Char} {c : Char} (h : c ∈ joinQuery s q) : c ∈ s ∨ c ∈ q ∨ c = '&' := by
  rcases joinQuery_cases s q with ⟨-, he⟩ | ⟨-, he⟩ | ⟨s', q', hs, hq, he⟩
  · rw [he] at h
    exact .inl h
  · rw [he] at h
    exact .inr (.inl h)
  · rw [he, List.mem_append, List.mem_cons] at h
    rcases h with h | h | h
    · refine .inl ?_
      rcases hs with rfl | rfl
      · exact h
      · exact List.mem_append_left _ h
    · exact .inr (.inr h)
    · refine .inr (.inl ?_)
      rcases hq with rfl | rfl
      · exact h
      · exact List.mem_cons_of_mem _ h

/-! ## Queries of named entries -/

/-- The query is the entries of these names and values, in this order. -/
structure Spells (q : List Char) (ps : List (String × String)) : Prop where
  nil : ps = [] → q = []
  split : ps ≠ [] → q.splitOn '&' = ps.map fun p => (namedEntry p.1 p.2).toList
  last : q.getLast? ≠ some '&'
  hash : '#' ∉ q

theorem namedEntry_ne_nil (n v : String) : (namedEntry n v).toList ≠ [] := by
  simp [namedEntry]

theorem namedEntry_getLast? (n v : String) : (namedEntry n v).toList.getLast? ≠ some '&' := fun h =>
  (of_mem_namedEntry (List.mem_of_getLast? h)).2 rfl

theorem spells_namedEntry (n v : String) : Spells (namedEntry n v).toList [(n, v)] where
  nil h := by cases h
  split _ := List.splitOn_eq_singleton fun h => (of_mem_namedEntry h).2 rfl
  last := namedEntry_getLast? n v
  hash := namedEntry_hash n v

theorem Spells.ne_nil {q : List Char} {ps : List (String × String)} (h : Spells q ps) (hps : ps ≠ []) : q ≠ [] := by
  rintro rfl
  have hsplit := h.split hps
  obtain ⟨p, ps', rfl⟩ := List.exists_cons_of_ne_nil hps
  simp only [List.splitOn_nil, List.map_cons, List.cons.injEq] at hsplit
  exact namedEntry_ne_nil _ _ hsplit.1.symm

/-- One more entry. -/
theorem Spells.join {q : List Char} {ps : List (String × String)} (h : Spells q ps) (n v : String) :
    Spells (joinQuery q (namedEntry n v).toList) (ps ++ [(n, v)]) := by
  by_cases hps : ps = []
  · have hq := h.nil hps
    subst hq hps
    have hj : joinQuery [] (namedEntry n v).toList = (namedEntry n v).toList := by
      rw [joinQuery, if_neg (namedEntry_ne_nil n v), if_pos rfl]
    rw [hj]
    exact spells_namedEntry n v
  · have hsplit := h.split hps
    have hq := h.ne_nil hps
    have hj : joinQuery q (namedEntry n v).toList = q ++ '&' :: (namedEntry n v).toList := by
      have hhead : (namedEntry n v).toList.head? ≠ some '&' := fun hh =>
        (of_mem_namedEntry (List.mem_of_head? hh)).2 rfl
      rw [joinQuery, if_neg (namedEntry_ne_nil n v), if_neg hq, if_neg fun hb => h.last hb.1,
        if_pos ⟨h.last, hhead⟩]
    rw [hj]
    refine ⟨fun hn => absurd hn (by simp), fun _ => ?_, ?_, ?_⟩
    · rw [List.splitOn_append_cons_self, hsplit, (spells_namedEntry n v).split (by simp), List.map_append]
    · rw [List.getLast?_append_of_ne_nil _ (by simp), List.getLast?_cons_of_ne_nil (namedEntry_ne_nil n v)]
      exact namedEntry_getLast? n v
    · simp only [List.mem_append, List.mem_cons, not_or]
      exact ⟨h.hash, by decide, namedEntry_hash n v⟩

end SignalRClient.Uri
