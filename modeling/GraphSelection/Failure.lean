import GraphSelection.Schema.Fault
import GraphSelection.Text.Quoted

/-!
Why a request is not compiled. Most failures name the place in the request and a reason.
-/
namespace GraphSelection

/-- Reasons that go with a place in the request. -/
inductive Reason where
  | expectedObject
  | expectedList
  | expectedCount
  | expectedTypeNames
  | expectedTypeNameList
  | notConstituent (name composite : String)
  | typenameTwice
  | mixedSpellings (field : String)
  | unknownOperator (name : String)
  | nullComparison
  | inNeedsList
  /-- A comparison that the kind or the cardinality of an attribute does not take. -/
  | unsuited (why : String) (name kind : String)
  | mixedQuantifiers (key : String)
  | connectionKeys
  | relationshipKeys
  | countKeys
  | notAggregation (key : String)
  | aggregationOperator
  | aggregationNull
  | unknownReduction (name : String)
  | computedReduction (name : String)
  | unsuitedReduction (function kind name : String)
  | isComposite (name : String)
  | compositeAggregate
  | compositeConnectionAggregate
  | compositeMutation
  | notSortable (name : String)
  | notSortableBy (entity name : String)
  | sortDirection
  | noEdgeSort
  | givenTwice (name : String)
  | invalidCursor
  | cursorProjection
  | noInput
  | newNodeActions
  | unknownUpdate (relationship : String)
  | noStatement
  | stated (text : String)
  deriving DecidableEq, Repr

def Reason.message : Reason → String
  | .expectedObject => "expected an object"
  | .expectedList => "expected a list"
  | .expectedCount => "expected a non-negative integer"
  | .expectedTypeNames => "expected type names"
  | .expectedTypeNameList => "expected a list of type names"
  | .notConstituent name composite => "`" ++ name ++ "` does not implement `" ++ composite ++ "`"
  | .typenameTwice => "`typename` and `typename_IN` cannot be combined"
  | .mixedSpellings field => "`" ++ field ++ "` mixes suffixed keys with a nested operator object"
  | .unknownOperator name => "unknown filter operator `" ++ name ++ "`"
  | .nullComparison => "null can only be compared for equality"
  | .inNeedsList => "`in` expects a list"
  | .unsuited why name kind => why ++ " (`" ++ name ++ "` is " ++ kind ++ ")"
  | .mixedQuantifiers key =>
      "`" ++ key ++ "` cannot be combined with relationship quantifiers"
  | .connectionKeys => "connection filters take `node` and `edge` only"
  | .relationshipKeys => "relationship filters take `node` and `edge` only"
  | .countKeys => "count filters take `nodes` and `edges`"
  | .notAggregation key => "`" ++ key ++ "` is not an aggregation filter"
  | .aggregationOperator => "aggregations compare with eq, gt, gte, lt or lte"
  | .aggregationNull => "aggregations cannot be compared with null"
  | .unknownReduction name => "unknown aggregation `" ++ name ++ "`"
  | .computedReduction name => "computed field `" ++ name ++ "` cannot be aggregated"
  | .unsuitedReduction function kind name =>
      "`" ++ function ++ "` is not defined for " ++ kind ++ " attribute `" ++ name ++ "`"
  | .isComposite name => "`" ++ name ++ "` is an interface or union"
  | .compositeAggregate => "interfaces and unions cannot be aggregated"
  | .compositeConnectionAggregate =>
      "aggregations over interface or union connections are not supported"
  | .compositeMutation => "interfaces and unions cannot be mutated directly"
  | .notSortable name => "cannot sort by `" ++ name ++ "`"
  | .notSortableBy entity name => "`" ++ entity ++ "` cannot sort by `" ++ name ++ "`"
  | .sortDirection => "sort direction must be ASC or DESC"
  | .noEdgeSort => "relationship has no properties to sort by"
  | .givenTwice name => "`" ++ name ++ "` given both directly and in `options`"
  | .invalidCursor => "invalid cursor"
  | .cursorProjection => "cursors are not projected"
  | .noInput => "create needs at least one input"
  | .newNodeActions => "only `create` and `connect` apply to a new node"
  | .unknownUpdate relationship => "unknown update of `" ++ relationship ++ "`"
  | .noStatement => "attribute has no statement to evaluate"
  | .stated text => text

inductive Failure where
  | unknownEntity (name : String)
  | unknownField (entity field : String)
  | filter (path : String) (reason : Reason)
  /-- Branches of one composite that would return different columns. -/
  | columns (entity : String) (expected found : List String)
  | aggregation (path : String) (reason : Reason)
  | argument (path : String) (reason : Reason)
  | notPermitted (entity relationship action : String)
  | mutation (path : String) (reason : Reason)
  | tooDeep (depth max : Nat)
  | missingBinding (binding : String)
  | schema (fault : SchemaFault)
  deriving DecidableEq, Repr

namespace Failure

def ofSchema : SchemaFault → Failure
  | .unknownEntity name => .unknownEntity name
  | .unknownField entity field => .unknownField entity field
  | fault => .schema fault

def message : Failure → String
  | .unknownEntity name => "No entity named `" ++ name ++ "` in the schema model"
  | .unknownField entity field => "Entity `" ++ entity ++ "` has no field named `" ++ field ++ "`"
  | .filter path reason =>
      "Unsupported filter combination at `" ++ path ++ "`: " ++ reason.message
  | .columns entity expected found =>
      "UNION branches of `" ++ entity ++ "` return different columns: expected " ++
        Text.quotedList expected ++ ", found " ++ Text.quotedList found
  | .aggregation path reason => "Unsupported aggregation at `" ++ path ++ "`: " ++ reason.message
  | .argument path reason => "Invalid argument at `" ++ path ++ "`: " ++ reason.message
  | .notPermitted entity relationship action =>
      "Nested `" ++ action ++ "` is not permitted on relationship `" ++ entity ++ "." ++
        relationship ++ "`"
  | .mutation path reason => "Unsupported mutation at `" ++ path ++ "`: " ++ reason.message
  | .tooDeep depth max =>
      "Query depth " ++ toString depth ++ " exceeds the configured maximum of " ++ toString max
  | .missingBinding binding => "No `" ++ binding ++ "` binding in scope"
  | .schema fault => "Schema error: " ++ fault.message

end Failure

/-- One text stands somewhere in another. -/
def occursIn (part : List Char) : List Char → Bool
  | [] => part.isEmpty
  | c :: rest => part.isPrefixOf (c :: rest) || occursIn part rest

/-- A failed validation is known by its message in what the database reports. -/
def isForbidden (report forbidden : String) : Bool := occursIn forbidden.toList report.toList

end GraphSelection
