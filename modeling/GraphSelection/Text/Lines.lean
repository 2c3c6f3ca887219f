import GraphSelection.Text.Blank

/-!
Lines of a text and their indentation. A line ends at a line feed, a carriage return right before
it belongs to the ending, and a final line that holds nothing is no line.
-/
namespace GraphSelection.Text

def dropReturn (line : List Char) : List Char :=
  match line.reverse with
  | '\r' :: rest => rest.reverse
  | _ => line

/-- Every piece but the last was closed by a line feed; the last counts only if it holds
something. -/
def closeLines : List (List Char) → List (List Char)
  | [] => []
  | [last] => if last.isEmpty then [] else [last]
  | piece :: rest => dropReturn piece :: closeLines rest

def lines (s : String) : List (List Char) := closeLines (splitChars '\n' s.toList)

/-- Four spaces before each line that is not empty. -/
def indentLine (line : List Char) : List Char :=
  if line.isEmpty then line else ' ' :: ' ' :: ' ' :: ' ' :: line

def indent (s : String) : String :=
  String.intercalate "\n" ((lines s).map fun line => String.ofList (indentLine line))

end GraphSelection.Text
