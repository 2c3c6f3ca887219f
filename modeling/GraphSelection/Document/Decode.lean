import GraphSelection.Document.Plain
import GraphSelection.Document.Yaml.Tree

/-!
Reading typed values out of documents. A reader either finds what it asks for or gives up, since
only the kind of a fault is reported. What stands under a name that nobody asks for is passed over,
however deep it nests. The two formats differ in two more points: a JSON list may give the fields
of a record by position, and a JSON record with the single member `name: null` stands for the name
of a choice. A document is handed in as data or as a text in YAML, which JSON is a part of.
-/
namespace GraphSelection

/-- How a value is read out of a document. -/
abbrev Decoder (α : Type) := Format → Doc → Option α

namespace Decode

variable {α β : Type}

def text : Decoder String
  | _, .text s => some s
  | _, .plain s => some s
  | _, _ => none

def bool : Decoder Bool
  | _, .bool b => some b
  | _, .plain s =>
      match Plain.scalar s with
      | some (.bool b) => some b
      | _ => none
  | _, _ => none

/-- A whole number from zero up to, not including, `bound`. -/
def countBelow (bound : Nat) : Decoder Nat := fun _ doc =>
  let number : Option Int := match doc with
    | .int n => some n
    | .plain s =>
        match Plain.scalar s with
        | some (.int n) => some n
        | _ => none
    | _ => none
  number.bind fun n => if 0 ≤ n ∧ n < bound then some n.toNat else none

def word : Decoder Nat := countBelow Decimal.word64

/-- Nothing where a document may leave a value out. -/
def isAbsent : Doc → Bool
  | .null => true
  | .plain s => s ∈ ["", "~", "null", "Null", "NULL"]
  | _ => false

def optional (d : Decoder α) : Decoder (Option α) := fun format doc =>
  if isAbsent doc then some none else (d format doc).map some

/-- The items of a list and the format inside it. An empty plain scalar is an empty list. -/
def items? (format : Format) : Doc → Option (Format × List Doc)
  | .list items => format.inner?.map (·, items)
  | .plain "" => some (format, [])
  | _ => none

/-- The members of a record and the format inside it. An empty plain scalar is an empty record. -/
def members? (format : Format) : Doc → Option (Format × Doc.Members)
  | .record members => format.inner?.map (·, members)
  | .plain "" => some (format, [])
  | _ => none

def list (d : Decoder α) : Decoder (List α) := fun format doc =>
  (items? format doc).bind fun (inner, items) => items.mapM (d inner)

/-- Values under free names; a repeated name takes its last value. -/
def entries (d : Decoder α) : Decoder (Entries α) := fun format doc =>
  (members? format doc).bind fun (inner, members) =>
    (members.mapM fun m : String × Doc => (d inner m.2).map fun a => (m.1, a)).map Entries.merge

/-- Data of any shape. -/
def free : Decoder Doc := Doc.settle

/-- A record of any shape. -/
def freeRecord : Decoder Doc.Members := fun format doc =>
  (members? format doc).bind fun (inner, members) =>
    (Doc.settleMembers inner members).map Entries.merge

/-- One of the named choices. -/
def choice (table : List (String × α)) : Decoder α
  | .json, .record [(name, .null)] => List.lookup name table
  | format, doc => (text format doc).bind fun name => List.lookup name table

/-- A set of choices, without repetitions and in the order of the table. -/
def choices [BEq α] (table : List (String × α)) : Decoder (List α) := fun format doc =>
  (list (choice table) format doc).map fun found =>
    (table.map Prod.snd).filter found.contains

/-- The fields of a record, and the format in which they are read. -/
structure Fields where
  format : Format
  members : Doc.Members

/-- The fields of a record by name. A known name must not be given twice. -/
def fields (names : List String) : Decoder Fields
  | .json, .list items =>
      if items.length ≤ names.length then some ⟨.json, names.zip items⟩ else none
  | format, doc =>
      (members? format doc).bind fun (inner, members) =>
        if names.all fun name => (members.filter (·.1 == name)).length ≤ 1 then
          some ⟨inner, members⟩
        else none

/-- A field that must be there. -/
def required (d : Decoder α) (fs : Fields) (name : String) : Option α :=
  (fs.members.get? name).bind (d fs.format)

/-- A field with a default. -/
def orElse (d : Decoder α) (fs : Fields) (name : String) (value : α) : Option α :=
  match fs.members.get? name with
  | none => some value
  | some doc => d fs.format doc

end Decode

/-- A document as it is handed in. -/
inductive Source where
  | data (doc : Doc)
  | yaml (text : String)

/-- What a source holds; none when it is not well formed or not of the right shape. -/
def Source.decode {α : Type} (d : Decoder α) : Source → Option α
  | .data doc => d .json doc
  | .yaml text => (Yaml.read text).bind (d .yamlText)

end GraphSelection
