import GraphSelection.Document.Basic

/-!
Places in a text, and the tokens that a text in YAML is made of. The structure of a block is in
the columns of its tokens, so a place knows its line and its column.
-/
namespace GraphSelection.Yaml

inductive Token where
  /-- A scalar; only one without quotes can be anything but text. -/
  | scalar (isPlain : Bool) (text : String)
  | sequenceStart
  | mappingStart
  | blockEnd
  | entry
  | key
  | value
  | flowSequenceStart
  | flowSequenceEnd
  | flowMappingStart
  | flowMappingEnd
  | comma
  | documentStart
  | documentEnd
  deriving DecidableEq, Repr

structure Place where
  rest : List Char
  line : Nat := 0
  column : Nat := 0
  index : Nat := 0

/-- The ends of lines: line feeds, and the separators of lines and paragraphs. -/
def isBreak (c : Char) : Bool := c == '\n' || c == '\u2028' || c == '\u2029'

namespace Place

def step (p : Place) : Place :=
  match p.rest with
  | [] => p
  | c :: rest =>
      if isBreak c then { rest, line := p.line + 1, column := 0, index := p.index + 1 }
      else { rest, line := p.line, column := p.column + 1, index := p.index + 1 }

def advance (p : Place) : Nat → Place
  | 0 => p
  | n + 1 => p.step.advance n

/-- The place at which only `rest` is left. -/
def moveTo (p : Place) (rest : List Char) : Place := p.advance (p.rest.length - rest.length)

end Place

def isGap (c : Char) : Bool := c == ' ' || c == '\t' || isBreak c

/-- The text ends here or a blank follows. -/
def endsWord : List Char → Bool
  | [] => true
  | c :: _ => isGap c

/-- The line starts or ends a document. -/
def isDocumentMark : List Char → Bool
  | '-' :: '-' :: '-' :: rest => endsWord rest
  | '.' :: '.' :: '.' :: rest => endsWord rest
  | _ => false

def Place.atDocumentMark (p : Place) : Bool := p.column == 0 && isDocumentMark p.rest

/-- Characters that may stand in a document. -/
def isPrintable (c : Char) : Bool :=
  let n := c.toNat
  n == 0x9 || n == 0xA || n == 0xD || (0x20 ≤ n && n ≤ 0x7E) || n == 0x85 ||
    (0xA0 ≤ n && n ≤ 0xFFFD) || 0x10000 ≤ n

/-- Carriage returns and next-line controls as line feeds. -/
def normalBreaks : List Char → List Char
  | [] => []
  | '\r' :: '\n' :: rest => '\n' :: normalBreaks rest
  | '\r' :: rest => '\n' :: normalBreaks rest
  | '\x85' :: rest => '\n' :: normalBreaks rest
  | c :: rest => c :: normalBreaks rest

end GraphSelection.Yaml
