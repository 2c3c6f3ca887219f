/-!
What can be wrong with a schema definition, or with a name looked up in a schema.
-/
namespace GraphSelection

/-- Why a definition is refused at some place. -/
inductive DefinitionFault where
  | repeatedName
  | undeclaredTarget (target : String)
  | undeclaredProperties (properties : String)
  | blankType
  | aliasedComputation
  | noConstituents
  | undeclaredConstituent (member : String)
  | missingAttribute (implementation : String)
  | incompatibleAttribute (implementation : String)
  | missingRelationship (implementation : String)
  | stated (text : String)
  deriving DecidableEq, Repr

def DefinitionFault.message : DefinitionFault → String
  | .repeatedName => "type name declared more than once"
  | .undeclaredTarget target => "relationship target `" ++ target ++ "` is not declared"
  | .undeclaredProperties properties =>
      "relationship properties `" ++ properties ++ "` are not declared"
  | .blankType => "relationship type cannot be empty"
  | .aliasedComputation => "computed attributes cannot declare a database alias"
  | .noConstituents => "composite type must have at least one constituent"
  | .undeclaredConstituent member => "constituent `" ++ member ++ "` is not a declared entity"
  | .missingAttribute implementation =>
      "implementation `" ++ implementation ++ "` does not declare this attribute"
  | .incompatibleAttribute implementation =>
      "implementation `" ++ implementation ++ "` declares an incompatible type"
  | .missingRelationship implementation =>
      "implementation `" ++ implementation ++ "` does not declare this relationship"
  | .stated text => text

inductive SchemaFault where
  | unknownEntity (name : String)
  | unknownField (entity field : String)
  | unreadable (cause : String)
  | malformed (cause : String)
  | noEntities
  | invalid (location : String) (fault : DefinitionFault)
  deriving DecidableEq, Repr

def SchemaFault.message : SchemaFault → String
  | .unknownEntity name => "No entity named `" ++ name ++ "` in the schema model"
  | .unknownField entity field => "Entity `" ++ entity ++ "` has no field named `" ++ field ++ "`"
  | .unreadable cause => "Failed to read schema definition: " ++ cause
  | .malformed cause => "Failed to parse schema definition: " ++ cause
  | .noEntities =>
      "Invalid schema definition: Schema must contain at least one entity definition"
  | .invalid location fault =>
      "Invalid schema definition: " ++ location ++ ": " ++ fault.message

end GraphSelection
