import SourceWeave.Error

/-!
Tables under construction. Sources are kept apart by their identity and names
by their spelling; every entry stays at the index where it was first added.
-/

set_option autoImplicit false

namespace SourceWeave

/-- One source of a mapping. A source without an identity can be traced to but
is never given content when it is added. -/
structure SourceRecord where
  identity : Option String
  content : Option String
deriving DecidableEq, Repr, Inhabited

structure SourceRegistry where
  entries : Array SourceRecord := #[]
deriving DecidableEq, Repr

namespace SourceRegistry

def indexOf? (table : SourceRegistry) (identity : Option String) : Option Nat :=
  table.entries.findIdx? fun entry => entry.identity == identity

def conflicts : Option String → Option String → Bool
  | some held, some given => held != given
  | _, _ => false

/-- The index of a source, which is added if its identity is new. A source that
is already there keeps the content it came with, also when that is unknown. -/
def add (table : SourceRegistry) (identity content : Option String) :
    Except MappingError (Nat × SourceRegistry) :=
  let content := if identity.isSome then content else none
  match table.indexOf? identity with
  | some index =>
      if conflicts (table.entries[index]?.bind (·.content)) content then
        .error (.identityConflict (identity.getD ""))
      else
        .ok (index, table)
  | none => .ok (table.entries.size, ⟨table.entries.push ⟨identity, content⟩⟩)

def addRecord (table : SourceRegistry) (entry : SourceRecord) :
    Except MappingError (Nat × SourceRegistry) :=
  table.add entry.identity entry.content

def addAll (table : SourceRegistry) :
    List SourceRecord → Except MappingError (List Nat × SourceRegistry)
  | [] => .ok ([], table)
  | entry :: rest => do
      let (index, table) ← table.addRecord entry
      let (indices, table) ← table.addAll rest
      return (index :: indices, table)

end SourceRegistry

structure NameRegistry where
  names : Array String := #[]
deriving DecidableEq, Repr

namespace NameRegistry

def add (table : NameRegistry) (name : String) : Nat × NameRegistry :=
  match table.names.findIdx? (· == name) with
  | some index => (index, table)
  | none => (table.names.size, ⟨table.names.push name⟩)

def addAll (table : NameRegistry) : List String → List Nat × NameRegistry
  | [] => ([], table)
  | name :: rest =>
      let (index, table) := table.add name
      let (indices, table) := table.addAll rest
      (index :: indices, table)

def add? (table : NameRegistry) : Option String → Option Nat × NameRegistry
  | none => (none, table)
  | some name =>
      let (index, table) := table.add name
      (some index, table)

end NameRegistry

end SourceWeave
