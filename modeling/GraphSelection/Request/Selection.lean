import GraphSelection.Document.Decode

/-!
Selected fields: a name, the key its value gets in the response, arguments, and what is selected
below it, for every type (`selection`) or for one type only (`on`).
-/
namespace GraphSelection

structure Selection where
  name : String
  responseName : Option String := none
  args : List (String × Doc) := []
  selection : List Selection := []
  on : List (String × List Selection) := []
  deriving Inhabited

/-- Selections that only count for one type. -/
abbrev Fragments := Entries (List Selection)

namespace Selection

/-- The key of the field in the response. -/
def key (s : Selection) : String := s.responseName.getD s.name

def leaf (name : String) : Selection := { name }

def withAlias (s : Selection) (responseName : String) : Selection :=
  { s with responseName := some responseName }

def withArg (s : Selection) (name : String) (value : Doc) : Selection :=
  { s with args := Entries.put s.args name value }

def select (s : Selection) (fields : List Selection) : Selection :=
  { s with selection := s.selection ++ fields }

def onType (s : Selection) (typeName : String) (fields : List Selection) : Selection :=
  { s with on := Entries.put s.on typeName fields }

def child? (s : Selection) (name : String) : Option Selection :=
  s.selection.find? (·.name == name)

mutual
/-- How many selections stand inside one another. -/
def height : Selection → Nat
  | ⟨_, _, _, selection, on⟩ => max (listHeight selection) (fragmentsHeight on) + 1
def listHeight : List Selection → Nat
  | [] => 0
  | s :: rest => max s.height (listHeight rest)
def fragmentsHeight : List (String × List Selection) → Nat
  | [] => 0
  | (_, fields) :: rest => max (listHeight fields) (fragmentsHeight rest)
end

/-- The fields of a selection that have been found so far. -/
structure Parts where
  name : Option String := none
  responseName : Option (Option String) := none
  args : Option (List (String × Doc)) := none
  selection : Option (List Selection) := none
  on : Option (List (String × List Selection)) := none

def Parts.finish (p : Parts) : Option Selection :=
  p.name.map fun name =>
    { name
      responseName := p.responseName.getD none
      args := p.args.getD []
      selection := p.selection.getD []
      on := p.on.getD [] }

def fieldNames : List String := ["name", "alias", "args", "selection", "on"]

/-- Takes one more field in; a field must not be given twice, and unknown names are passed over.
What the value stands for as a list of selections or as fragments is looked at on demand. -/
def Parts.take (format : Format) (p : Parts) (key : String) (value : Doc)
    (nested : Unit → Option (List Selection))
    (fragments : Unit → Option (List (String × List Selection))) : Option Parts :=
  match key with
  | "name" =>
      if p.name.isSome then none
      else (Decode.text format value).map fun s => { p with name := some s }
  | "alias" =>
      if p.responseName.isSome then none
      else (Decode.optional Decode.text format value).map fun s => { p with responseName := some s }
  | "args" =>
      if p.args.isSome then none
      else (Decode.freeRecord format value).map fun ms => { p with args := some ms }
  | "selection" =>
      if p.selection.isSome then none
      else (nested ()).map fun fields => { p with selection := some fields }
  | "on" =>
      if p.on.isSome then none
      else (fragments ()).map fun found => { p with on := some found }
  | _ => some p

mutual
def decode (format : Format) : Doc → Option Selection
  | .record members =>
      format.inner?.bind fun inner => (gather inner {} members).bind Parts.finish
  | .list items =>
      if format = .json then (gatherInOrder format {} fieldNames items).bind Parts.finish else none
  | _ => none
def decodeList (format : Format) : List Doc → Option (List Selection)
  | [] => some []
  | item :: rest =>
      match decode format item, decodeList format rest with
      | some s, some ss => some (s :: ss)
      | _, _ => none
def decodeNested (format : Format) : Doc → Option (List Selection)
  | .list items => format.inner?.bind fun inner => decodeList inner items
  | .plain "" => some []
  | _ => none
def decodeFragments (format : Format) :
    List (String × Doc) → Option (List (String × List Selection))
  | [] => some []
  | (typeName, value) :: rest =>
      match decodeNested format value, decodeFragments format rest with
      | some fields, some more => some ((typeName, fields) :: more)
      | _, _ => none
def decodeOn (format : Format) : Doc → Option (List (String × List Selection))
  | .record members =>
      format.inner?.bind fun inner => (decodeFragments inner members).map Entries.merge
  | .plain "" => some []
  | _ => none
def gather (format : Format) (p : Parts) : List (String × Doc) → Option Parts
  | [] => some p
  | (key, value) :: rest =>
      (p.take format key value (fun _ => decodeNested format value)
        (fun _ => decodeOn format value)).bind fun p => gather format p rest
/-- Fields given by position. -/
def gatherInOrder (format : Format) (p : Parts) (names : List String) : List Doc → Option Parts
  | [] => some p
  | value :: rest =>
      match names with
      | [] => none
      | key :: names =>
          (p.take format key value (fun _ => decodeNested format value)
            (fun _ => decodeOn format value)).bind fun p => gatherInOrder format p names rest
end

mutual
def encode : Selection → Doc
  | ⟨name, responseName, args, selection, on⟩ =>
      .record
        (("name", .text name) :: (responseName.map fun a => ("alias", Doc.text a)).toList ++
          [("args", .record args), ("selection", .list (encodeList selection)),
           ("on", .record (encodeFragments on))])
def encodeList : List Selection → List Doc
  | [] => []
  | s :: rest => s.encode :: encodeList rest
def encodeFragments : List (String × List Selection) → List (String × Doc)
  | [] => []
  | (typeName, fields) :: rest => (typeName, .list (encodeList fields)) :: encodeFragments rest
end

end Selection

end GraphSelection
