import GraphSelection.Compile
import GraphSelection.Schema.Build

/-!
The command line as a function: arguments, environment variables and files go in, what is printed
and the exit code come out. Settings are read first, then the schema, the request and the
principal.
-/
namespace GraphSelection.Command

open GraphSelection

structure Options where
  schema : String
  request : String
  principal : Option String
  settings : Option String
  /-- Print the text of the program and nothing else. -/
  textOnly : Bool

/-- Options as far as they have been given. -/
structure Given where
  values : Entries String := []
  textOnly : Bool := false

/-- Options that take a file name. -/
def fileOptions : List String := ["--schema", "--request", "--principal", "--config"]

/-- An option takes one file name, and only once. -/
def Given.put? (g : Given) (option value : String) : Option Given :=
  if !fileOptions.contains option || g.values.has option || value = "" then none
  else some { g with values := g.values ++ [(option, value)] }

/-- What looks like an option is no value. -/
def isValue (arg : String) : Bool := arg = "-" || arg.toList.head? != some '-'

/-- The option and the value of an argument such as `--schema=file`. -/
def assigned? (arg : String) : Option (String × String) :=
  match (arg.toList.takeWhile (· != '='), arg.toList.dropWhile (· != '=')) with
  | (option, '=' :: value) => some (String.ofList option, String.ofList value)
  | _ => none

/-- A last `--` only says that no more options come. -/
def given? (g : Given) : List String → Option Given
  | [] => some g
  | ["--"] => some g
  | "--cypher-only" :: rest => if g.textOnly then none else given? { g with textOnly := true } rest
  | arg :: rest =>
      match assigned? arg with
      | some (option, value) => (g.put? option value).bind fun g => given? g rest
      | none =>
          match rest with
          | value :: rest =>
              if isValue value then (g.put? arg value).bind fun g => given? g rest else none
          | [] => none

/-- The options in the arguments; none when they are used wrongly. -/
def options? (args : List String) : Option Options := do
  let g ← given? {} args
  let schema ← g.values.get? "--schema"
  let request ← g.values.get? "--request"
  return { schema
           request
           principal := g.values.get? "--principal"
           settings := g.values.get? "--config"
           textOnly := g.textOnly }

def usage : String :=
  "Usage: --schema <FILE> --request <FILE> [--principal <FILE>] [--config <FILE>] [--cypher-only]\n"

/-- The contents of files, or why they could not be read. -/
abbrev Files := Entries (Except String String)

def noSuchFile : String := "No such file or directory (os error 2)"

def isDirectory : String := "Is a directory (os error 21)"

/-- The names on the way along a path; a step to the same directory leads nowhere. -/
def steps (path : String) : List String :=
  (Text.split path '/').filter fun step => step != "" && step != "."

/-- The content of a file under its own name or another path to it from the same directory. -/
def Files.read (files : Files) (path : String) : Except String String :=
  match files.get? path with
  | some found => found
  | none =>
      if path.toList.head? == some '/' then .error noSuchFile
      else if (steps path).isEmpty then .error isDirectory
      else
        match files.find? fun file => steps file.1 == steps path with
        | some file => file.2
        | none => .error noSuchFile

/-- The files that a command needs. -/
def Options.paths (o : Options) : List String :=
  [o.schema, o.request] ++ o.principal.toList ++ o.settings.toList

/-- The environment variables that a command looks at. -/
def variableNames : List String :=
  ["GRAPHCYPHER_DEFAULT_LIMIT", "GRAPHCYPHER_MAX_LIMIT", "GRAPHCYPHER_MAX_QUERY_DEPTH",
   "GRAPHCYPHER_FORBIDDEN_MESSAGE"]

inductive Fault where
  | settings (fault : SettingsFault)
  | schema (fault : SchemaFault)
  | unreadable (path cause : String)
  | malformed (path : String)
  | failure (cause : Failure)

/-- A fault with its causes. -/
def Fault.report : Fault → String
  | .settings fault => String.intercalate ": " (fault.message :: fault.cause?.toList)
  | .schema fault => fault.message
  | .unreadable path cause => "reading " ++ path ++ ": " ++ cause
  | .malformed path => "parsing " ++ path ++ ": not a document of the expected form"
  | .failure f => f.message

end GraphSelection.Command

namespace GraphSelection

/-- Settings out of the text of a file. -/
def Settings.ofFile (file : Except String String) : Except SettingsFault Settings :=
  match file with
  | .error cause => .error (.unreadable cause)
  | .ok text =>
      match Source.decode Settings.decode (.yaml text) with
      | none => .error (.malformed text)
      | some settings => settings.validate

/-- A schema out of the text of a file. -/
def Schema.ofFile (file : Except String String) : Except SchemaFault Schema :=
  match file with
  | .error cause => .error (.unreadable cause)
  | .ok text =>
      match Source.decode Definition.decode (.yaml text) with
      | none => .error (.malformed "not a document of the expected form")
      | some definition => definition.build

end GraphSelection

namespace GraphSelection.Command

open GraphSelection

/-- A document out of a file. -/
def document {α : Type} (d : Decoder α) (files : Files) (path : String) : Except Fault α :=
  match files.read path with
  | .error cause => .error (.unreadable path cause)
  | .ok text =>
      match Source.decode d (.yaml text) with
      | none => .error (.malformed path)
      | some found => .ok found

def settings (files : Files) (env : Entries String) (path : Option String) :
    Except Fault Settings :=
  (match path with
    | some path => Settings.ofFile (files.read path)
    | none => Settings.ofEnvironment env).mapError .settings

/-- The program that a command asks for. -/
def program (files : Files) (env : Entries String) (o : Options) : Except Fault Compiled := do
  let settings ← settings files env o.settings
  let schema ← (Schema.ofFile (files.read o.schema)).mapError .schema
  let request ← document Request.decode files o.request
  let principal ← (match o.principal with
    | some path => document Principal.decode files path
    | none => .ok .anonymous)
  (compile { schema, settings, principal } request).mapError .failure

structure Outcome where
  exit : Nat
  stdout : String := ""
  stderr : String := ""

/-- What a command prints. -/
def printed (o : Options) (c : Compiled) : String :=
  (if o.textOnly then c.text else Json.pretty "" c.encode) ++ "\n"

/-- Runs a command: the exit code is 1 for a fault and 2 for arguments that are used wrongly. -/
def run (files : Files) (env : Entries String) (args : List String) : Outcome :=
  match options? args with
  | none => { exit := 2, stderr := usage }
  | some o =>
      match program files env o with
      | .ok c => { exit := 0, stdout := printed o c }
      | .error fault => { exit := 1, stderr := "Error: " ++ fault.report ++ "\n" }

end GraphSelection.Command
