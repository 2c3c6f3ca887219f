import GraphSelection.Document.Yaml.Scalar

/-!
The tokens of a text in YAML. Where a block starts and where it ends follows from the columns; that
something was the key of a mapping is only known at the colon behind it, on the same line, so the
start of a possible key is remembered.
-/
namespace GraphSelection.Yaml

/-- The start of what may turn out to be a key. -/
structure Candidate where
  /-- How many tokens stand before it. -/
  number : Nat
  place : Place
  /-- At this column of a block there is nothing but keys. -/
  required : Bool

structure Scanner where
  place : Place
  /-- The tokens so far, the last one first. -/
  tokens : List Token := []
  count : Nat := 0
  /-- The columns of the open blocks, the innermost first. -/
  indents : List Nat := []
  candidate : Option Candidate := none
  /-- The candidates around the open flow collections, the innermost first. -/
  outer : List (Option Candidate) := []
  keyAllowed : Bool := true

namespace Scanner

def isFlow (s : Scanner) : Bool := !s.outer.isEmpty

/-- The least column of what belongs to the innermost block. -/
def least (s : Scanner) : Nat := (s.indents.head?.map (· + 1)).getD 0

def push (s : Scanner) (t : Token) : Scanner :=
  { s with tokens := t :: s.tokens, count := s.count + 1 }

/-- A token before all but the first `number` tokens. -/
def insert (s : Scanner) (number : Nat) (t : Token) : Scanner :=
  let later := s.count - number
  { s with tokens := s.tokens.take later ++ t :: s.tokens.drop later, count := s.count + 1 }

/-- Opens a block at a column that is deeper than the innermost block. -/
def openBlock (s : Scanner) (column number : Nat) (t : Token) : Scanner :=
  if s.isFlow || !s.indents.head?.all (· < column) then s
  else { s.insert number t with indents := column :: s.indents }

/-- Closes the blocks that satisfy a test of their column. -/
def closeBlocks (s : Scanner) (test : Nat → Bool) : Scanner :=
  if s.isFlow then s
  else
    let closed := (s.indents.takeWhile test).length
    { s with
      tokens := List.replicate closed .blockEnd ++ s.tokens
      count := s.count + closed
      indents := s.indents.drop closed }

/-- Gives a candidate up, unless nothing but a key could stand there. -/
def dropCandidate (s : Scanner) : Option Scanner :=
  if s.candidate.any (·.required) then none else some { s with candidate := none }

/-- A key ends on the line on which it starts and is no longer than 1024 characters. -/
def isStale (s : Scanner) (c : Candidate) : Bool :=
  c.place.line < s.place.line || c.place.index + 1024 < s.place.index

/-- Gives up a candidate that can be no key any more. -/
def dropStale (s : Scanner) : Option Scanner := do
  if s.outer.any fun outer => outer.any fun c => c.required && s.isStale c then none
  else
    let s := { s with outer := s.outer.map (Option.filter fun c => !s.isStale c) }
    if s.candidate.any s.isStale then s.dropCandidate else some s

/-- Remembers that a key may start here. -/
def noteCandidate (s : Scanner) : Option Scanner :=
  if s.keyAllowed then do
    let required := !s.isFlow && s.indents.head? == some s.place.column
    let s ← s.dropCandidate
    return { s with candidate := some ⟨s.count, s.place, required⟩ }
  else some s

/-- Blanks, comments and line breaks before a token. Where a key may start, tabs are no blanks. -/
def skipGap : Nat → Scanner → Scanner
  | 0, s => s
  | fuel + 1, s =>
      let tabs := s.isFlow || !s.keyAllowed
      let rest := s.place.rest.dropWhile fun c => c == ' ' || (tabs && c == '\t')
      let rest := if rest.head? == some '#' then rest.dropWhile (!isBreak ·) else rest
      let s := { s with place := s.place.moveTo rest }
      if rest.head?.any isBreak then
        skipGap fuel { s with place := s.place.step, keyAllowed := s.keyAllowed || !s.isFlow }
      else s

def documentMark (s : Scanner) (t : Token) : Option Scanner := do
  let s ← (s.closeBlocks fun _ => true).dropCandidate
  return { s.push t with place := s.place.advance 3, keyAllowed := false }

def flowStart (s : Scanner) (t : Token) : Option Scanner := do
  let s ← s.noteCandidate
  let s := { s with outer := s.candidate :: s.outer, candidate := none, keyAllowed := true }
  return { s.push t with place := s.place.step }

def flowEnd (s : Scanner) (t : Token) : Option Scanner := do
  let s ← s.dropCandidate
  let s := match s.outer with
    | [] => s
    | candidate :: outer => { s with candidate, outer }
  return { s.push t with place := s.place.step, keyAllowed := false }

def comma (s : Scanner) : Option Scanner := do
  let s ← s.dropCandidate
  return { s.push .comma with place := s.place.step, keyAllowed := true }

def blockEntry (s : Scanner) : Option Scanner := do
  if !s.isFlow && !s.keyAllowed then none
  else
    let s ← (s.openBlock s.place.column s.count .sequenceStart).dropCandidate
    return { s.push .entry with place := s.place.step, keyAllowed := true }

/-- The colon behind a key; what stands before it becomes the key. -/
def value (s : Scanner) : Option Scanner := do
  match s.candidate with
  | some c =>
      let s := (s.insert c.number .key).openBlock c.place.column c.number .mappingStart
      return { s.push .value with candidate := none, place := s.place.step, keyAllowed := false }
  | none =>
      if !s.isFlow && !s.keyAllowed then none
      else
        let s := s.openBlock s.place.column s.count .mappingStart
        return { s.push .value with place := s.place.step, keyAllowed := !s.isFlow }

def scalar (s : Scanner) (isPlain : Bool) (found : Scanned) : Scanner :=
  { s.push (.scalar isPlain (String.ofList found.text)) with
    place := found.place
    keyAllowed := found.brokeLine }

def quoted (s : Scanner) (isDouble : Bool) : Option Scanner := do
  let s ← s.noteCandidate
  let found ← quotedScalar isDouble s.place
  return s.scalar false found

def literal (s : Scanner) : Option Scanner := do
  let s ← s.dropCandidate
  let found ← literalScalar s.least s.place
  return s.scalar false found

def plain (s : Scanner) : Option Scanner := do
  let s ← s.noteCandidate
  let found ← plainScalar s.isFlow s.least s.place
  return s.scalar true found

/-- Marks that no plain scalar starts with. -/
def marks : List Char :=
  ['-', '?', ':', ',', '[', ']', '\x7b', '\x7d', '#', '&', '*', '!', '|', '>', '\'', '"', '%', '@',
   '\x60']

def startsPlain (isFlow : Bool) : List Char → Bool
  | [] => false
  | c :: rest =>
      if c == '-' then !(rest.head?.any fun d => d == ' ' || d == '\t')
      else if c == '?' || c == ':' then !isFlow && !endsWord rest
      else !isGap c && !marks.contains c

/-- The next token, and what comes with it. -/
def token (s : Scanner) : Option Scanner :=
  if s.place.atDocumentMark then
    s.documentMark (if s.place.rest.head? == some '-' then .documentStart else .documentEnd)
  else
    match s.place.rest with
    | '[' :: _ => s.flowStart .flowSequenceStart
    | '\x7b' :: _ => s.flowStart .flowMappingStart
    | ']' :: _ => s.flowEnd .flowSequenceEnd
    | '\x7d' :: _ => s.flowEnd .flowMappingEnd
    | ',' :: _ => s.comma
    | '\'' :: _ => s.quoted false
    | '"' :: _ => s.quoted true
    | c :: rest =>
        if c == '-' && endsWord rest then s.blockEntry
        else if c == ':' && (s.isFlow || endsWord rest) then s.value
        else if c == '|' && !s.isFlow then s.literal
        else if startsPlain s.isFlow (c :: rest) then s.plain
        else none
    | [] => none

/-- All tokens from here on. Every token takes at least one character. -/
def run : Nat → Scanner → Option Scanner
  | 0, _ => none
  | fuel + 1, s => do
      let s ← (s.skipGap (s.place.rest.length + 1)).dropStale
      if s.place.rest.isEmpty then (s.closeBlocks fun _ => true).dropCandidate
      else
        let s ← (s.closeBlocks (s.place.column < ·)).token
        run fuel s

end Scanner

/-- The first place of a text; a byte order mark there is passed over. -/
def firstPlace (cs : List Char) : Place :=
  let start : Place := { rest := cs }
  if cs.head? == some '\ufeff' then start.step else start

/-- The tokens of a text; none when it is no YAML. -/
def tokens? (text : String) : Option (List Token) := do
  let cs := normalBreaks text.toList
  if !cs.all isPrintable then none
  else
    let s ← Scanner.run (cs.length + 1) { place := firstPlace cs }
    return s.tokens.reverse

end GraphSelection.Yaml
