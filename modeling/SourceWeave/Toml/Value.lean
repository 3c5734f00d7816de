/-!
TOML values and statements, as far as a document of options can use them.
-/

set_option autoImplicit false

namespace SourceWeave.Toml

/-- A number, a date or a time is `other`: it must be well written, but no option
is one. A table keeps the key paths as they were written. -/
inductive Value
  | text (value : String)
  | boolean (value : Bool)
  | other
  | array (elements : List Value)
  | table (members : List (List String × Value))
deriving Repr, Inhabited

inductive Statement
  | header (path : List String)
  | elementHeader (path : List String)
  | assign (path : List String) (value : Value)
deriving Repr

/-- No path leads to or through what another one defines. -/
def apart (paths : List (List String)) : Bool :=
  paths.zipIdx.all fun (path, index) =>
    (paths.drop (index + 1)).all fun later => !path.isPrefixOf later && !later.isPrefixOf path

end SourceWeave.Toml
