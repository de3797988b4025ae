import EntitySql.Artifact
import EntitySql.Value.Document

/-!
# Compiled queries as data

The data text of a compiled query, and how it is read back. Reading takes a record also as an array
of its fields, passes over members it does not know, and refuses a member that comes twice.
-/

namespace EntitySql

/-! ## Writing -/

/-- The value, or null. -/
def Value.ofOption {α : Type} (f : α → Value) : Option α → Value
  | some a => f a
  | none => .null

def FieldType.toData (t : FieldType) : Value := .string t.name

def ParameterKey.toData : ParameterKey → Value
  | .name n => .object [("Name", .string n)]
  | .position i => .object [("Position", .int i)]

def Slot.toData : Slot → Value
  | .required key ty =>
    .object [("Required", .object [("key", key.toData), ("ty", .ofOption FieldType.toData ty)])]
  | .fixed v ty =>
    .object [("Fixed", .object [("value", v), ("ty", .ofOption FieldType.toData ty)])]

def ResultColumn.toData (c : ResultColumn) : Value :=
  .object [("column", .string c.column), ("ty", .ofOption FieldType.toData c.ty),
    ("nullable", .bool c.nullable), ("source", .ofOption .string c.source)]

namespace Artifact

def toData (a : Artifact) : Value :=
  .object [("sql", .string a.sql),
    ("parameters", .object [("slots", .array (a.slots.map Slot.toData))]),
    ("result_map", .object (a.results.map fun r => (r.1, r.2.toData))),
    ("generated_value", .ofOption .string a.generated)]

/-- The data text. -/
def text (a : Artifact) : String := a.toData.text

end Artifact

/-! ## Reading -/

namespace Document

/-- The levels left inside an array or object. -/
def inside : Nat → Option Nat
  | 0 => none
  | l + 1 => some l

def text? : Document → Option String
  | string s => s
  | _ => none

def flag? : Document → Option Bool
  | bool b => some b
  | _ => none

/-- A number that is an index. -/
def index? : Document → Option Nat
  | number n =>
    match n.value? with
    | some (.int (.ofNat i)) => some i
    | _ => none
  | _ => none

/-- The members of an object, whose names are all texts. -/
def named? (members : List (Option String × Document)) : Option (List (String × Document)) :=
  members.mapM fun (key, d) => key.map fun k => (k, d)

/-- The member of a name; failing where it comes twice. -/
def member? (name : String) (members : List (String × Document)) : Option (Option Document) :=
  match members.filter fun m => m.1 == name with
  | [] => some none
  | [m] => some (some m.2)
  | _ => none

/-- The fields of a record: the items of an array of that length, or the members of an object. -/
def fields? (names : List String) : Document → Option (List (Option Document))
  | array items => if items.length = names.length then some (items.map some) else none
  | object members => do
    let ms ← named? members
    names.mapM fun name => member? name ms
  | _ => none

/-- The content of a variant: the name and the document under it. -/
def variant? : Document → Option (String × Document)
  | object [(some name, d)] => some (name, d)
  | _ => none

/-- A field that may be missing or null. -/
def optional? {α : Type} (read : Document → Option α) : Option Document → Option (Option α)
  | none | some null => some none
  | some d => (read d).map some

end Document

/-- A type: its name, or a variant of it without content. -/
def FieldType.ofDocument? (levels : Nat) : Document → Option FieldType
  | .string (some name) => ofName? name
  | d => do
    let _ ← Document.inside levels
    match ← d.variant? with
    | (name, .null) => ofName? name
    | _ => none

def ParameterKey.ofDocument? (levels : Nat) (d : Document) : Option ParameterKey := do
  let _ ← Document.inside levels
  match ← d.variant? with
  | ("Name", d) => .name <$> d.text?
  | ("Position", d) => .position <$> d.index?
  | _ => none

def Slot.ofDocument? (levels : Nat) (d : Document) : Option Slot := do
  let outer ← Document.inside levels
  let inner ← Document.inside outer
  match ← d.variant? with
  | ("Required", d) =>
    match ← d.fields? ["key", "ty"] with
    | [some key, ty] =>
      let key ← ParameterKey.ofDocument? inner key
      let ty ← Document.optional? (FieldType.ofDocument? inner) ty
      return .required key ty
    | _ => none
  | ("Fixed", d) =>
    match ← d.fields? ["value", "ty"] with
    | [some value, ty] =>
      let value ← value.value? inner
      let ty ← Document.optional? (FieldType.ofDocument? inner) ty
      return .fixed value ty
    | _ => none
  | _ => none

def ResultColumn.ofDocument? (levels : Nat) (d : Document) : Option ResultColumn := do
  let inner ← Document.inside levels
  match ← d.fields? ["column", "ty", "nullable", "source"] with
  | [some column, ty, some nullable, source] =>
    let column ← column.text?
    let ty ← Document.optional? (FieldType.ofDocument? inner) ty
    let nullable ← nullable.flag?
    let source ← Document.optional? Document.text? source
    return ⟨column, ty, nullable, source⟩
  | _ => none

namespace Artifact

/-- The deepest nesting of a data text. -/
def levels : Nat := 127

def slots? (levels : Nat) (d : Document) : Option (List Slot) := do
  let inner ← Document.inside levels
  match ← d.fields? ["slots"] with
  | [some (.array items)] => do
    let inner ← Document.inside inner
    items.mapM (Slot.ofDocument? inner)
  | _ => none

def results? (levels : Nat) : Document → Option (List (String × ResultColumn))
  | .object members => do
    let inner ← Document.inside levels
    let ms ← Document.named? members
    let columns ← ms.mapM fun (name, d) => do return (name, ← ResultColumn.ofDocument? inner d)
    return Pairs.ofList columns
  | _ => none

def ofDocument? (d : Document) : Option Artifact := do
  let inner ← Document.inside levels
  match ← d.fields? ["sql", "parameters", "result_map", "generated_value"] with
  | [some sql, some parameters, some results, generated] =>
    let sql ← sql.text?
    let slots ← slots? inner parameters
    let results ← results? inner results
    let generated ← Document.optional? Document.text? generated
    return ⟨sql, slots, results, generated⟩
  | _ => none

/-- The compiled query that a data text holds. -/
def ofText? (s : String) : Option Artifact := do ofDocument? (← Document.ofText? s)

end Artifact

end EntitySql
