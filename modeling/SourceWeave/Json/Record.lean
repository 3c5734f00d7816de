import SourceWeave.Json.Reader

/-!
Records in JSON. A record is an object, in which unknown keys are passed over
and none of its own may be repeated, or an array of all its fields in order.
-/

set_option autoImplicit false

namespace SourceWeave.Json

/-- The value of a field in an object; a repeated key has none. -/
def member? (name : String) (members : List (Option String × Json)) : Option (Option Json) :=
  match members.filter fun (key, _) => key == some name with
  | [] => some none
  | [(_, value)] => some (some value)
  | _ => none

def fields? (names : List String) : Json → Option (List (Option Json))
  | .object members =>
      if members.any fun (key, _) => key.isNone then none
      else names.mapM (member? · members)
  | .array elements =>
      if elements.length = names.length then some (elements.map some) else none
  | _ => none

/-! ### Fields -/

def required {α : Type} (read : Json → Option α) (value : Option Json) : Option α :=
  value.bind read

def withDefault {α : Type} (absent : α) (read : Json → Option α) : Option Json → Option α
  | none => some absent
  | some value => read value

def nullable {α : Type} (read : Json → Option α) : Json → Option (Option α)
  | .null => some none
  | value => (read value).map some

/-- A field that may be missing or null. -/
def optionalField {α : Type} (read : Json → Option α) : Option Json → Option (Option α) :=
  withDefault none (nullable read)

/-! ### Contents -/

def word? : Json → Option Nat
  | .number (some value) => if value < 0x100000000 then some value else none
  | _ => none

def text? : Json → Option String
  | .string text => text
  | _ => none

def list? {α : Type} (read : Json → Option α) : Json → Option (List α)
  | .array elements => elements.mapM read
  | _ => none

end SourceWeave.Json
