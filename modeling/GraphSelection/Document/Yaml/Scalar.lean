import GraphSelection.Document.Json
import GraphSelection.Document.Yaml.Place
import GraphSelection.Text.Blank

/-!
Scalars in YAML: plain, in single or double quotes, and literal blocks. A gap inside a scalar is
folded: a single line feed is a space, and of several breaks a first line feed is dropped. Other
breaks stay as they are.
-/
namespace GraphSelection.Yaml

/-- What a gap stands for. -/
def folded (gap : List Char) : List Char :=
  match gap.filter isBreak with
  | [] => gap
  | ['\n'] => [' ']
  | '\n' :: breaks => breaks
  | breaks => breaks

/-- A tab where the indentation of a line should be. -/
def hasTabIndent (indent : Nat) (gap : List Char) : Bool :=
  ((gap.splitBy fun c _ => !isBreak c).drop 1).any fun line =>
    (line.takeWhile (· == ' ')).length < indent && (line.dropWhile (· == ' ')).head? == some '\t'

def flowMarks : List Char := [',', '[', ']', '\x7b', '\x7d']

/-- A piece of a plain scalar without gaps. -/
def plainWord (isFlow : Bool) : List Char → Option (List Char × List Char)
  | [] => some ([], [])
  | c :: rest =>
      if isGap c || (c == ':' && endsWord rest) || (isFlow && flowMarks.contains c) then
        some ([], c :: rest)
      else if isFlow && c == ':' && rest.head?.any fun d => d == '?' || flowMarks.contains d then
        none
      else (plainWord isFlow rest).map fun (word, left) => (c :: word, left)

/-- A scalar, the place behind it, and whether that is on a later line. -/
structure Scanned where
  text : List Char
  place : Place
  brokeLine : Bool := false

/-- A plain scalar goes on over lines that are indented deeper than its surroundings. -/
def plainFrom (isFlow : Bool) (indent : Nat) : Nat → Scanned → List Char → Option Scanned
  | 0, found, _ => some found
  | fuel + 1, found, gap =>
      if found.place.atDocumentMark || found.place.rest.head? == some '#' then some found
      else do
        let (word, rest) ← plainWord isFlow found.place.rest
        if word.isEmpty then some found
        else
          let text := found.text ++ folded gap ++ word
          let place := found.place.moveTo rest
          let next := rest.takeWhile isGap
          if next.isEmpty then some { text, place }
          else if hasTabIndent indent next then none
          else
            let found : Scanned :=
              { text, place := place.advance next.length, brokeLine := next.any isBreak }
            if !isFlow && found.place.column < indent then some found
            else plainFrom isFlow indent fuel found next

def plainScalar (isFlow : Bool) (indent : Nat) (p : Place) : Option Scanned :=
  plainFrom isFlow indent (p.rest.length + 1) { text := [], place := p } []

/-- How a piece of a quoted scalar ends. -/
inductive QuotedEnd where
  | quote
  | gap
  | escapedBreak

/-- A piece of a scalar in single quotes. -/
def singleWord : List Char → Option (List Char × QuotedEnd × List Char)
  | [] => none
  | '\'' :: '\'' :: rest => (singleWord rest).map fun (word, ending) => ('\'' :: word, ending)
  | '\'' :: rest => some ([], .quote, rest)
  | c :: rest =>
      if isGap c then some ([], .gap, c :: rest)
      else (singleWord rest).map fun (word, ending) => (c :: word, ending)

def namedEscape? : Char → Option Char
  | '0' => some '\x00'
  | 'a' => some '\x07'
  | 'b' => some '\x08'
  | 't' => some '\t'
  | '\t' => some '\t'
  | 'n' => some '\n'
  | 'v' => some '\x0b'
  | 'f' => some '\x0c'
  | 'r' => some '\r'
  | 'e' => some '\x1b'
  | ' ' => some ' '
  | '"' => some '"'
  | '/' => some '/'
  | '\\' => some '\\'
  | 'N' => some '\x85'
  | '_' => some '\xa0'
  | 'L' => some '\u2028'
  | 'P' => some '\u2029'
  | _ => none

/-- How many digits of a code follow an escape. -/
def codeWidth? : Char → Option Nat
  | 'x' => some 2
  | 'u' => some 4
  | 'U' => some 8
  | _ => none

/-- The character with a code in base sixteen; surrogates are none. -/
def coded? (digits : List Char) : Option Char := do
  let code ← digits.foldl
    (fun acc c => acc.bind fun n => (Json.hexDigit? c).map (n * 16 + ·)) (some 0)
  if (0xD800 ≤ code ∧ code ≤ 0xDFFF) ∨ 0x10FFFF < code then none else some (Char.ofNat code)

/-- A piece of a scalar in double quotes. -/
def doubleWord : Nat → List Char → Option (List Char × QuotedEnd × List Char)
  | 0, _ => none
  | _ + 1, [] => none
  | _ + 1, '"' :: rest => some ([], .quote, rest)
  | fuel + 1, '\\' :: c :: rest =>
      if isBreak c then some ([], .escapedBreak, rest)
      else match namedEscape? c, codeWidth? c with
      | some e, _ => (doubleWord fuel rest).map fun (word, ending) => (e :: word, ending)
      | none, some width =>
          if (rest.take width).length < width then none
          else do
            let e ← coded? (rest.take width)
            let (word, ending) ← doubleWord fuel (rest.drop width)
            return (e :: word, ending)
      | none, none => none
  | fuel + 1, c :: rest =>
      if isGap c then some ([], .gap, c :: rest)
      else (doubleWord fuel rest).map fun (word, ending) => (c :: word, ending)

def quotedWord (isDouble : Bool) (cs : List Char) : Option (List Char × QuotedEnd × List Char) :=
  if isDouble then doubleWord (cs.length + 1) cs else singleWord cs

/-- The rest of a quoted scalar. -/
def quotedFrom (isDouble : Bool) : Nat → List Char → Place → Option Scanned
  | 0, _, _ => none
  | fuel + 1, text, p =>
      if p.atDocumentMark then none
      else do
        let (word, ending, rest) ← quotedWord isDouble p.rest
        let text := text ++ word
        let gap := rest.takeWhile isGap
        let next := (p.moveTo rest).advance gap.length
        match ending with
        | .quote => some { text, place := p.moveTo rest }
        | .gap => quotedFrom isDouble fuel (text ++ folded gap) next
        | .escapedBreak =>
            quotedFrom isDouble fuel (text ++ gap.filter isBreak) next

/-- A quoted scalar whose opening quote is the next character. -/
def quotedScalar (isDouble : Bool) (p : Place) : Option Scanned :=
  quotedFrom isDouble (p.rest.length + 1) [] p.step

/-- What becomes of the line breaks at the end of a literal block. -/
inductive Chomping where
  | strip
  | clip
  | keep

/-- The head of a literal block: chomping and a given indentation, in either order. -/
def blockHead : List Char → Option (Chomping × Option Nat × List Char)
  | '-' :: cs => digitHead .strip cs
  | '+' :: cs => digitHead .keep cs
  | c :: cs =>
      if c.isDigit then
        if c = '0' then none
        else
          let width := some (c.toNat - '0'.toNat)
          match cs with
          | '-' :: rest => some (.strip, width, rest)
          | '+' :: rest => some (.keep, width, rest)
          | rest => some (.clip, width, rest)
      else some (.clip, none, c :: cs)
  | [] => some (.clip, none, [])
where
  digitHead (chomping : Chomping) : List Char → Option (Chomping × Option Nat × List Char)
    | c :: cs =>
        if c.isDigit then
          if c = '0' then none else some (chomping, some (c.toNat - '0'.toNat), cs)
        else some (chomping, none, c :: cs)
    | [] => some (chomping, none, [])

/-- Blanks and a comment may follow the head of a literal block. -/
def headEnd (cs : List Char) : Option (List Char) :=
  let rest := cs.dropWhile fun c => c == ' ' || c == '\t'
  let rest := if rest.head? == some '#' then rest.dropWhile (!isBreak ·) else rest
  match rest with
  | [] => some []
  | c :: rest => if isBreak c then some rest else none

def leadingSpaces (cs : List Char) : Nat := (cs.takeWhile (· == ' ')).length

/-- The indentation of a literal block that gives none: that of its first line with content, or of
a deeper blank line before it. -/
def foundIndent : Nat → Nat → List Char → Option Nat
  | 0, deepest, _ => some deepest
  | fuel + 1, deepest, cs =>
      let spaces := leadingSpaces cs
      match cs.drop spaces with
      | [] => some (max deepest spaces)
      | c :: rest =>
          if isBreak c then foundIndent fuel (max deepest spaces) rest
          else if c = '\t' then none
          else some (max deepest spaces)

/-- The breaks of the blank lines of a literal block, and the place behind the indentation of the
next line. -/
def blankLines (indent : Nat) : Nat → List Char → Place → Option (List Char × Place)
  | 0, breaks, p => some (breaks, p)
  | fuel + 1, breaks, p =>
      let spaces := min indent (leadingSpaces p.rest)
      let p := p.advance spaces
      match p.rest with
      | [] => some (breaks, p)
      | c :: _ =>
          if isBreak c then blankLines indent fuel (breaks ++ [c]) p.step
          else if c = '\t' ∧ spaces < indent then none
          else some (breaks, p)

/-- The lines of a literal block: the text up to the end of the last line with content, the break
that follows there, the breaks of the blank lines behind it and the place after them. -/
structure BlockLines where
  text : List Char
  close : List Char
  breaks : List Char
  place : Place

def blockLines (indent : Nat) : Nat → BlockLines → Option BlockLines
  | 0, found => some found
  | fuel + 1, found =>
      if found.place.column == indent && !found.place.rest.isEmpty then do
        let line := found.place.rest.takeWhile (!isBreak ·)
        let next := found.place.advance line.length
        let (breaks, place) ← blankLines indent (next.rest.length + 1) [] next.step
        blockLines indent fuel
          { text := found.text ++ found.close ++ found.breaks ++ line
            close := next.rest.take 1
            breaks
            place }
      else some found

/-- A literal block whose mark is the next character, inside a block that is indented by one less
than `least`. -/
def literalScalar (least : Nat) (p : Place) : Option Scanned := do
  let (chomping, width, rest) ← blockHead p.step.rest
  let rest ← headEnd rest
  let start := p.moveTo rest
  let indent ← match width with
    | some width => some (least - 1 + width)
    | none => (foundIndent (rest.length + 1) 0 rest).map fun found => max found (max least 1)
  let (breaks, first) ← blankLines indent (rest.length + 1) [] start
  let found ← blockLines indent (rest.length + 1)
    { text := [], close := [], breaks, place := first }
  let ending := match chomping with
    | .strip => []
    | .clip => found.close
    | .keep => found.close ++ found.breaks
  return { text := found.text ++ ending, place := found.place, brokeLine := true }

end GraphSelection.Yaml
