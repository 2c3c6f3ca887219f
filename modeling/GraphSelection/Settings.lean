import GraphSelection.Decimal.Unsigned
import GraphSelection.Document.Decode

/-!
Limits and defaults of a compilation, where they come from and when they are acceptable.
-/
namespace GraphSelection

structure Settings where
  /-- The page size of list reads that ask for none. -/
  defaultLimit : Option Nat := none
  /-- The greatest page size. -/
  maxLimit : Option Nat := none
  /-- How deep operations may nest. -/
  maxDepth : Nat := 16
  /-- The message of a failed validation. -/
  forbidden : String := "Forbidden"
  deriving DecidableEq

/-- Fields with what is wrong about them. -/
abbrev Complaints := List (String × List String)

inductive SettingsFault where
  | unreadable (cause : String)
  | malformed (content : String)
  | badVariable (name value : String) (fault : Decimal.NumeralFault)
  | invalid (complaints : Complaints)

namespace Settings

def complain (field message : String) (bad : Bool) : Complaints :=
  if bad then [(field, [message])] else []

/-- Complaints about single fields, in the order of the field names. -/
def fieldComplaints (s : Settings) : Complaints :=
  complain "default_limit" "Default limit must be at least 1" (s.defaultLimit == some 0) ++
    complain "forbidden_message" "Forbidden message cannot be empty" (s.forbidden == "") ++
    complain "max_limit" "Max limit must be at least 1" (s.maxLimit == some 0) ++
    complain "max_query_depth" "Max query depth must be between 1 and 64"
      (s.maxDepth < 1 || 64 < s.maxDepth)

def limitComplaints (s : Settings) : Complaints :=
  match s.defaultLimit, s.maxLimit with
  | some d, some m => complain "__all__" "Default limit cannot exceed max limit" (m < d)
  | _, _ => []

/-- The limits are compared only when every field is in order. -/
def complaints (s : Settings) : Complaints :=
  if s.fieldComplaints.isEmpty then s.limitComplaints else s.fieldComplaints

def validate (s : Settings) : Except SettingsFault Settings :=
  if s.complaints.isEmpty then .ok s else .error (.invalid s.complaints)

def decode : Decoder Settings := fun format doc => do
  let fs ← Decode.fields ["default_limit", "max_limit", "max_query_depth", "forbidden_message"]
    format doc
  let defaultLimit ← Decode.orElse (Decode.optional Decode.word) fs "default_limit" none
  let maxLimit ← Decode.orElse (Decode.optional Decode.word) fs "max_limit" none
  let maxDepth ← Decode.orElse (Decode.countBelow Decimal.word32) fs "max_query_depth" 16
  let forbidden ← Decode.orElse Decode.text fs "forbidden_message" "Forbidden"
  return { defaultLimit, maxLimit, maxDepth, forbidden }

def encode (s : Settings) : Doc :=
  .record
    [("default_limit", Doc.ofOption Doc.ofCount s.defaultLimit),
     ("max_limit", Doc.ofOption Doc.ofCount s.maxLimit),
     ("max_query_depth", Doc.ofCount s.maxDepth),
     ("forbidden_message", .text s.forbidden)]

/-- The number in an environment variable, if the variable is set. -/
def numberIn (env : Entries String) (name : String) (bound : Nat) :
    Except SettingsFault (Option Nat) :=
  match env.get? name with
  | none => .ok none
  | some value =>
      match Decimal.unsignedBelow bound value with
      | .ok n => .ok (some n)
      | .error fault => .error (.badVariable name value fault)

def ofEnvironment (env : Entries String) : Except SettingsFault Settings := do
  let defaultLimit ← numberIn env "GRAPHCYPHER_DEFAULT_LIMIT" Decimal.word64
  let maxLimit ← numberIn env "GRAPHCYPHER_MAX_LIMIT" Decimal.word64
  let maxDepth ← numberIn env "GRAPHCYPHER_MAX_QUERY_DEPTH" Decimal.word32
  let settings : Settings :=
    { defaultLimit
      maxLimit
      maxDepth := maxDepth.getD 16
      forbidden := (env.get? "GRAPHCYPHER_FORBIDDEN_MESSAGE").getD "Forbidden" }
  settings.validate

/-- The page size of a list read: what is asked for, else the entity's default, else the common
one, never above the entity's maximum or else the common one. -/
def effectiveLimit (s : Settings) (requested entityDefault entityMax : Option Nat) : Option Nat :=
  match (requested.or entityDefault).or s.defaultLimit, entityMax.or s.maxLimit with
  | some limit, some max => some (min limit max)
  | none, some max => some max
  | limit, none => limit

end Settings

namespace SettingsFault

def complaintsText (complaints : Complaints) : String :=
  String.intercalate "\n"
    (complaints.map fun (field, messages) => field ++ ": " ++ String.intercalate ", " messages)

/-- What a fault says about itself and, apart from that, about its cause. -/
def cause? : SettingsFault → Option String
  | .unreadable cause => some cause
  | .malformed _ => none
  | .badVariable _ _ fault => some fault.message
  | .invalid complaints => some (complaintsText complaints)

def message : SettingsFault → String
  | .unreadable cause => "Parse error for yaml_file: file read failed - " ++ cause
  | .malformed content => "Parse error for yaml_content: " ++ content
  | .badVariable name value fault =>
      "Parse error for " ++ name ++ ": " ++ value ++ " - " ++ fault.message
  | .invalid complaints => "Validation error: " ++ complaintsText complaints

end SettingsFault

end GraphSelection
