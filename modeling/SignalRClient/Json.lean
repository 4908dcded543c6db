import Mathlib

/-!
# The JSON values the client reads

`Json` is `web::json::value` as far as the client looks at it.  An accessor that throws where the
field is missing or has another type is a function to `Option`; the tests (`hasField`, `isObject`, …)
answer `false` on a value of another kind and never throw.
-/

namespace SignalRClient

/-- A parsed value.  Numbers are kept apart as `is_integer()` tells them apart. -/
inductive Json where
  | null
  | bool (b : Bool)
  | integer (i : ℤ)
  | double (q : ℚ)
  | string (s : String)
  | array (l : List Json)
  | object (fields : List (String × Json))

namespace Json

def isObject : Json → Bool
  | .object _ => true
  | _ => false

/-- `at(key)`; `none` where it throws. -/
def at? : Json → String → Option Json
  | .object fields, key => fields.lookup key
  | _, _ => none

/-- `has_field(key)` -/
def hasField (v : Json) (key : String) : Bool := (v.at? key).isSome

/-- `as_string()`; `none` where it throws.  `is_string()` is its `isSome`. -/
def asString? : Json → Option String
  | .string s => some s
  | _ => none

/-- `as_array()`; `none` where it throws.  `is_array()` is its `isSome`. -/
def asArray? : Json → Option (List Json)
  | .array l => some l
  | _ => none

/-- `as_integer()` of a value that `is_integer()`: the low 32 bits. -/
def asInteger? : Json → Option ℤ
  | .integer i => some (i.bmod (2 ^ 32))
  | _ => none

/-- `as_bool()` of a value that `is_boolean()`. -/
def asBool? : Json → Option Bool
  | .bool b => some b
  | _ => none

/-- The string field `key` of a value: `has_field(key) && at(key).is_string()`, then `as_string()`. -/
def stringField? (v : Json) (key : String) : Option String := (v.at? key).bind asString?

end Json

end SignalRClient
