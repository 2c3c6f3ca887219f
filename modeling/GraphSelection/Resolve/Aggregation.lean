import GraphSelection.Resolve.Comparison

/-!
Conditions on aggregations over a relationship: counts, and reductions of the attributes of the
target or of the relationship.
-/
namespace GraphSelection.Resolve

open GraphSelection Plan

/-- What aggregations of one relationship are about. -/
structure AggregationKeys where
  relationship : Relationship
  target : Entity
  properties : Option PropertySet

namespace AggregationKeys

def leaf (k : AggregationKeys) (m : Measure) (op : Comparison) (value : Doc) (path : String) :
    Result Condition :=
  if !op.isScalar then .error (.filter path .aggregationOperator)
  else if value.isNull then .error (.filter path .aggregationNull)
  else .ok (.aggregation ⟨k.relationship, k.target, m, op, value⟩)

/-- The comparisons of one measure. -/
def operators (k : AggregationKeys) (m : Measure) (members : Doc.Members) (path : String) :
    Result (List Condition) :=
  members.mapM fun (name, value) => do
    let op ← genericComparison name path
    k.leaf m op value (childPath path name)

def countMeasure (name path : String) : Result Measure :=
  match name with
  | "nodes" => .ok .countNodes
  | "edges" => .ok .countEdges
  | _ => .error (.filter path .countKeys)

/-- A count to equal, comparisons of the count, or comparisons of both counts. -/
def count (k : AggregationKeys) (value : Doc) (path : String) : Result (List Condition) :=
  match value with
  | .record members =>
      if isOperatorRecord members then k.operators .countNodes members path
      else do
        let parts ← members.mapM fun (name, inner) => do
          let here := childPath path name
          let m ← countMeasure name here
          let operators ← asRecord inner here
          k.operators m operators here
        return parts.flatten
  | _ => do
      let c ← k.leaf .countNodes .eq value path
      return [c]

def reduced (a : Attribute) (f : Reduction) (make : Attribute → Reduction → Measure)
    (path : String) : Result Measure := do
  if a.isComputed then throw (.aggregation path (.computedReduction a.name))
  f.check a path
  return make a f

/-- A key such as `name_LONGEST_LENGTH_GT`, taken apart. -/
def suffixed? (find : String → Option Attribute) (key : String) :
    Option (Attribute × Reduction × Comparison) := do
  let (rest, op) ← dropAny key Comparison.aggregateEndings
  let (base, f) ← dropAny rest Reduction.endings
  let a ← find base
  return (a, f, op)

/-- One attribute with its reductions, or one suffixed key. -/
def attributePart (k : AggregationKeys) (find : String → Option Attribute)
    (make : Attribute → Reduction → Measure) (path key : String) (value : Doc) :
    Result (List Condition) := do
  let here := childPath path key
  match find key with
  | some a => do
      let reductions ← asRecord value here
      let parts ← reductions.mapM fun (name, operators) => do
        let there := childPath here name
        match List.lookup name Reduction.comparable with
        | none => throw (.aggregation there (.unknownReduction name))
        | some f => do
            let m ← reduced a f make there
            let operators ← asRecord operators there
            k.operators m operators there
      return parts.flatten
  | none =>
      match suffixed? find key with
      | none => throw (.filter here (.notAggregation key))
      | some (a, f, op) => do
          let m ← reduced a f make here
          let c ← k.leaf m op value here
          return [c]

def attributes (k : AggregationKeys) (find : String → Option Attribute)
    (make : Attribute → Reduction → Measure) (members : Doc.Members) (path : String) :
    Result (List Condition) := do
  let parts ← members.mapM fun (key, value) => k.attributePart find make path key value
  return parts.flatten

/-- The comparison of a key such as `count_GT`. -/
def countEnding? (key : String) : Option Comparison := do
  let ending ← Text.dropStart? key "count"
  let (base, op) ← dropAny ending Comparison.aggregateEndings
  if base = "" then some op else none

/-- One entry of an aggregation object; `below` reads the objects inside it. -/
def entry (k : AggregationKeys)
    (below : Doc.Members → String → Result (Option Condition)) (path key : String) (value : Doc) :
    Result (List Condition) := do
  let here := childPath path key
  let junction (make : List Condition → Condition) : Result (List Condition) :=
    match value with
    | .list items => do
        let operands ← items.mapM fun item => do
          let members ← asRecord item here
          below members here
        let operands := operands.filterMap id
        return if operands.isEmpty then [] else [make operands]
    | _ => throw (.argument here .expectedList)
  match key with
  | "AND" => junction .all
  | "OR" => junction .any
  | "NOT" => do
      let members ← asRecord value here
      let inner ← below members here
      return (inner.map Condition.not).toList
  | "count" => k.count value here
  | "node" => do
      let members ← asRecord value here
      k.attributes k.target.attribute? .node members here
  | "edge" =>
      match k.properties with
      | none => throw (.unknownField k.relationship.name "edge")
      | some properties => do
          let members ← asRecord value here
          k.attributes properties.attribute? .edge members here
  | _ =>
      match countEnding? key with
      | some op => do
          let c ← k.leaf .countNodes op value here
          return [c]
      | none => throw (.filter here (.notAggregation key))

/-- An aggregation object whose records nest at most this deep. -/
def conditionAt (k : AggregationKeys) : Nat → Doc.Members → String → Result (Option Condition)
  | 0, _, _ => .ok none
  | depth + 1, members, path => do
      let parts ← members.mapM fun (key, value) => k.entry (k.conditionAt depth) path key value
      return Condition.allOf parts.flatten

/-- The condition that an aggregation object stands for. -/
def condition (k : AggregationKeys) (members : Doc.Members) (path : String) :
    Result (Option Condition) :=
  k.conditionAt (Doc.membersHeight members) members path

end AggregationKeys

end GraphSelection.Resolve
