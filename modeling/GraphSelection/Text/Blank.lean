/-!
Blank characters and what is left of a text when they are cut off its ends. Blank means the
Unicode property White_Space: the ASCII blanks, the next-line and no-break spaces, the spaces of
the general punctuation block and the two separators, and the ideographic space.
-/
namespace GraphSelection.Text

def isBlank (c : Char) : Bool :=
  let n := c.toNat
  (0x9 ≤ n && n ≤ 0xD) || n == 0x20 || n == 0x85 || n == 0xA0 || n == 0x1680 ||
    (0x2000 ≤ n && n ≤ 0x200A) || n == 0x2028 || n == 0x2029 || n == 0x202F || n == 0x205F ||
    n == 0x3000

def trimChars (cs : List Char) : List Char :=
  ((cs.dropWhile isBlank).reverse.dropWhile isBlank).reverse

/-- The text without the blanks at its two ends. -/
def trim (s : String) : String := String.ofList (trimChars s.toList)

/-- What stands before `ending`, when the text ends so. -/
def dropEnd? (s ending : String) : Option String :=
  if ending.toList.isSuffixOf s.toList then
    some (String.ofList (s.toList.take (s.toList.length - ending.toList.length)))
  else none

/-- What stands after `start`, when the text starts so. -/
def dropStart? (s start : String) : Option String :=
  if start.toList.isPrefixOf s.toList then
    some (String.ofList (s.toList.drop start.toList.length))
  else none

/-- The pieces between the occurrences of `mark`; always at least one. -/
def splitChars (mark : Char) : List Char → List (List Char)
  | [] => [[]]
  | c :: rest =>
      if c = mark then [] :: splitChars mark rest
      else
        match splitChars mark rest with
        | [] => [[c]]
        | piece :: pieces => (c :: piece) :: pieces

def split (s : String) (mark : Char) : List String :=
  (splitChars mark s.toList).map String.ofList

end GraphSelection.Text
