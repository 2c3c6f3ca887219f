/-!
Names and string literals as they are written in a query. A name that is a plain word stands as it
is, any other between back-quotes with each back-quote doubled. A literal stands between double
quotes, with the backslash, the double quote and the line feed escaped.
-/
namespace GraphSelection.Text

def isWordStart (c : Char) : Bool := c.isAlpha || c == '_'

def isWordPart (c : Char) : Bool := c.isAlphanum || c == '_'

def isWord : List Char → Bool
  | [] => false
  | c :: rest => isWordStart c && rest.all isWordPart

def doubleBackquotes : List Char → List Char
  | [] => []
  | c :: rest =>
      if c = '\x60' then '\x60' :: '\x60' :: doubleBackquotes rest else c :: doubleBackquotes rest

def nameChars (cs : List Char) : List Char :=
  if isWord cs then cs else '\x60' :: (doubleBackquotes cs ++ ['\x60'])

/-- A label, relationship type, property or map key as a name token. -/
def name (s : String) : String := String.ofList (nameChars s.toList)

def escapeChars : List Char → List Char
  | [] => []
  | c :: rest =>
      if c = '\\' then '\\' :: '\\' :: escapeChars rest
      else if c = '"' then '\\' :: '"' :: escapeChars rest
      else if c = '\n' then '\\' :: 'n' :: escapeChars rest
      else c :: escapeChars rest

def literalChars (cs : List Char) : List Char := '"' :: (escapeChars cs ++ ['"'])

/-- A string literal token. -/
def literal (s : String) : String := String.ofList (literalChars s.toList)

end GraphSelection.Text
