import SourceWeave.Toml.Reader

/-!
How the mapping of a tree is to be rendered, and the documents that say so. A
document has one table, `map`, with the fields `columns` and `file`; it may be
written as a table, with dotted keys, inline, or as an array of its fields.
-/

set_option autoImplicit false

namespace SourceWeave

structure MappingOptions where
  columns : Bool := true
  file : Option String := none
deriving DecidableEq, Repr

inductive OptionsError
  | unreadable
  | emptyFile
deriving DecidableEq, Repr

def OptionsError.message : OptionsError → String
  | .unreadable => "failed to parse options"
  | .emptyFile => "validation error: map.file must not be empty"

namespace MappingOptions

/-- How the table has been written so far. Dotted keys may go on with what dotted
keys began; nothing may go on with a table that was written as a whole. -/
inductive Opening
  | missing
  | dotted
  | whole
deriving DecidableEq, Repr

structure Draft where
  inside : Bool := false
  opening : Opening := .missing
  columns : Option Bool := none
  file : Option String := none
deriving DecidableEq, Repr

namespace Draft

def assign (draft : Draft) (key : String) (value : Toml.Value) : Option Draft :=
  match key, value with
  | "columns", .boolean columns =>
      if draft.columns.isSome then none else some { draft with columns := some columns }
  | "file", .text file =>
      if draft.file.isSome then none else some { draft with file := some file }
  | _, _ => none

/-- The whole table as one value. Of an array, only the first two elements count. -/
def assignAll (draft : Draft) : Toml.Value → Option Draft
  | .table members =>
      members.foldlM (fun draft (path, value) =>
        match path with
        | [key] => draft.assign key value
        | _ => none) draft
  | .array [] => some draft
  | .array [columns] => draft.assign "columns" columns
  | .array (columns :: file :: _) => do (← draft.assign "columns" columns).assign "file" file
  | _ => none

def add (draft : Draft) : Toml.Statement → Option Draft
  | .header ["map"] =>
      if draft.opening = .missing then some { draft with inside := true, opening := .whole }
      else none
  | .assign [key] value =>
      if draft.inside then draft.assign key value
      else if key = "map" ∧ draft.opening = .missing then
        { draft with opening := .whole }.assignAll value
      else none
  | .assign ["map", key] value =>
      if draft.inside ∨ draft.opening = .whole then none
      else { draft with opening := .dotted }.assign key value
  | _ => none

end Draft

/-- The options a document asks for. What it does not mention is as by default, and
a file must have a name. -/
def read (document : String) : Except OptionsError MappingOptions :=
  match Toml.read document >>= List.foldlM Draft.add {} with
  | none => .error .unreadable
  | some draft =>
      if draft.file = some "" then .error .emptyFile
      else .ok { columns := draft.columns.getD true, file := draft.file }

end MappingOptions

end SourceWeave
