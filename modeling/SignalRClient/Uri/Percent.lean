import Mathlib

/-!
# Percent-encoding

The bytes of a text for which a test `safe` holds stand for themselves, the others are written as `%`
and two upper-case hexadecimal digits.  Decoding undoes this for every test that holds of ASCII bytes
only and not of `%` itself, and no other character gets into an encoded text.
-/

namespace SignalRClient.Uri

/-! ## Hexadecimal digits -/

def hexDigit (d : ℕ) : Char := if d < 10 then Char.ofNat (48 + d) else Char.ofNat (55 + d)

def hexVal (c : Char) : ℕ := if c.toNat < 58 then c.toNat - 48 else c.toNat - 55

theorem hexVal_hexDigit {d : ℕ} (h : d < 16) : hexVal (hexDigit d) = d := by
  have hall : ∀ d : Fin 16, hexVal (hexDigit d) = d := by decide
  exact hall ⟨d, h⟩

/-! ## Bytes -/

section

variable (safe : UInt8 → Bool)

/-- What a test for safe bytes has to meet. -/
structure SafeTest : Prop where
  ascii : ∀ b, safe b = true → b < 128
  percent : safe 37 = false

def encodeByte (b : UInt8) : List Char :=
  if safe b then [Char.ofNat b.toNat] else ['%', hexDigit (b.toNat / 16), hexDigit (b.toNat % 16)]

def encodeBytes (bs : List UInt8) : List Char := bs.flatMap (encodeByte safe)

end

def decodeBytes : List Char → List UInt8
  | '%' :: h :: l :: cs => UInt8.ofNat (hexVal h * 16 + hexVal l) :: decodeBytes cs
  | c :: cs => UInt8.ofNat c.toNat :: decodeBytes cs
  | [] => []

variable {safe : UInt8 → Bool}

theorem toNat_ofNat_of_lt {n : ℕ} (h : n < 128) : (Char.ofNat n).toNat = n := by
  have hv : n.isValidChar := .inl (by omega)
  simp [Char.ofNat, hv, Char.ofNatAux, Char.toNat]

/-- A character other than `%` is decoded alone. -/
theorem decodeBytes_cons {c : Char} (h : c ≠ '%') (cs : List Char) :
    decodeBytes (c :: cs) = UInt8.ofNat c.toNat :: decodeBytes cs := by
  rw [decodeBytes]
  rintro h l cs rfl
  contradiction

theorem decodeBytes_encodeByte (hs : SafeTest safe) (b : UInt8) (cs : List Char) :
    decodeBytes (encodeByte safe b ++ cs) = b :: decodeBytes cs := by
  unfold encodeByte
  split
  · rename_i hb
    have hlt : b.toNat < 128 := by
      have := hs.ascii b hb
      simpa [UInt8.lt_iff_toNat_lt] using this
    have hne : Char.ofNat b.toNat ≠ '%' := by
      intro e
      have he : b.toNat = 37 := by
        have := congrArg Char.toNat e
        rwa [toNat_ofNat_of_lt hlt] at this
      have : b = 37 := UInt8.toNat_inj.mp he
      rw [this, hs.percent] at hb
      cases hb
    rw [List.singleton_append, decodeBytes_cons hne, toNat_ofNat_of_lt hlt, UInt8.ofNat_toNat]
  · have hlt := b.toNat_lt
    have he : hexVal (hexDigit (b.toNat / 16)) * 16 + hexVal (hexDigit (b.toNat % 16)) = b.toNat := by
      rw [hexVal_hexDigit (by omega), hexVal_hexDigit (by omega)]
      omega
    simp only [List.cons_append, List.nil_append, decodeBytes, he, UInt8.ofNat_toNat]

/-- **Decoding undoes encoding.** -/
theorem decodeBytes_encodeBytes (hs : SafeTest safe) (bs : List UInt8) :
    decodeBytes (encodeBytes safe bs) = bs := by
  induction bs with
  | nil => rfl
  | cons b bs ih =>
    rw [encodeBytes, List.flatMap_cons, decodeBytes_encodeByte hs]
    exact congrArg _ ih

/-- Only safe bytes, `%` and hexadecimal digits get into an encoded text. -/
theorem of_mem_encodeBytes {bs : List UInt8} {c : Char} (h : c ∈ encodeBytes safe bs) :
    (∃ b, safe b = true ∧ c = Char.ofNat b.toNat) ∨ c = '%' ∨ ∃ d < 16, c = hexDigit d := by
  obtain ⟨b, -, hc⟩ := List.mem_flatMap.mp h
  unfold encodeByte at hc
  split at hc
  · rename_i hb
    exact .inl ⟨b, hb, List.mem_singleton.mp hc⟩
  · have hlt := b.toNat_lt
    simp only [List.mem_cons, List.not_mem_nil, or_false] at hc
    rcases hc with rfl | rfl | rfl
    · exact .inr (.inl rfl)
    · exact .inr (.inr ⟨_, by omega, rfl⟩)
    · exact .inr (.inr ⟨_, by omega, rfl⟩)

/-! ## Texts -/

/-- The UTF-8 bytes of a text. -/
def utf8 (s : String) : List UInt8 := s.toByteArray.data.toList

theorem utf8_inj {s t : String} (h : utf8 s = utf8 t) : s = t := by
  have hd : s.toByteArray.data = t.toByteArray.data := Array.toList_inj.mp h
  refine String.toByteArray_inj.mp ?_
  cases hs : s.toByteArray
  cases ht : t.toByteArray
  rw [hs, ht] at hd
  exact congrArg ByteArray.mk hd

/-- The percent-encoded text. -/
def encodeText (safe : UInt8 → Bool) (s : String) : String := String.ofList (encodeBytes safe (utf8 s))

theorem decode_encodeText (hs : SafeTest safe) (s : String) :
    decodeBytes (encodeText safe s).toList = utf8 s := by
  rw [encodeText, String.toList_ofList, decodeBytes_encodeBytes hs]

end SignalRClient.Uri
