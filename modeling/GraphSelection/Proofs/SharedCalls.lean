import GraphSelection.Proofs.Shared.Predicates
import GraphSelection.Proofs.WellScoped

/-!
Calls that leaves share. Within a scope each leaf is replaced by the variable of a call, and leaves
of one key by the same variable. Since a key is made of names, this is sound as long as the names in
the scope have one meaning. The constituents of a composite share one scope, and nothing makes their
relationships of one name alike; then one of them is answered by the call of another.
-/
namespace GraphSelection.Stage

open Plan Program

def crew (graphType : String) : Relationship :=
  { name := "crew"
    graphType
    direction := .incoming
    target := "Person"
    isList := true
    properties := none
    nestedActions := [] }

/-- A work with a crew that the type leads to. -/
def crewed (name graphType : String) : Entity :=
  { work name with relationships := [("crew", crew graphType)] }

/-- More than three people in the crew. -/
def largeCrew (graphType : String) : Aggregation :=
  { relationship := crew graphType, target := person, measure := .countNodes, op := .gt
    value := .int 3 }

def production (filmType seriesType : String) : Resolve.Setup :=
  ⟨{ schema with entities := [("Person", person), ("Film", crewed "Film" filmType),
      ("Series", crewed "Series" seriesType)] }, {}, {}⟩

/-- Works of both kinds are asked for large crews, in one scope. -/
def crewedTargets (filmType seriesType : String) : List (Entity × Option Condition) :=
  [(crewed "Film" filmType, some (.aggregation (largeCrew filmType))),
   (crewed "Series" seriesType, some (.aggregation (largeCrew seriesType)))]

def crewedScope (filmType seriesType : String) : FilterScope :=
  .related (crewedTargets filmType seriesType) true none

/-- Persons who are in some work with a large crew. -/
def ofLargeCrew : Doc.Members :=
  [("works_SOME", .record [("crewAggregate", .record [("count_GT", .int 3)])])]

def workContext : Context := Context.root ⟨false, ""⟩ "this0" "this"

end GraphSelection.Stage

namespace GraphSelection.Program

open GraphSelection Cypher Plan Resolve

/-- In a scope where names have one meaning, every leaf is replaced by the variable of a call of its
own. No two calls of the scope give one variable. Leaves of one key share a variable, and leaves
that share one have the same call. -/
theorem shared_calls_sound {ctx : Context} {scope : FilterScope} {s t : Supply} {es : List Expr}
    {calls : List Clause} (hconsistent : Leaf.Consistent scope.leaves)
    (h : gathered (scope.build ctx) s = .ok ((es, calls), t)) :
    ∃ made : List Made, calls = made.map Made.clause ∧ (made.map Made.name).Nodup ∧
      (∀ m ∈ made, m.leaf ∈ scope.leaves) ∧
      List.Forall₂ (fun leaf x => ∃ m ∈ made, m.name = x ∧
        leaf.Calls ctx.subject t.params x m.clause) scope.leaves (Expr.valuesOf es) ∧
      ∀ p ∈ scope.leaves.zip (Expr.valuesOf es), ∀ p' ∈ scope.leaves.zip (Expr.valuesOf es),
        (p.2 = p'.2 ↔ p.1.key ctx.subject = p'.1.key ctx.subject) ∧
        (p.2 = p'.2 → p.1.Alike p'.1) := by
  obtain ⟨q, made, hcalls, hknown, hamong, hreads⟩ := gathered_made h
  have hstands : ∀ p ∈ scope.leaves.zip (Expr.valuesOf es),
      StandsFor ctx.subject made p.1 p.2 ∧ p.1 ∈ scope.leaves :=
    fun p hp => ⟨(List.forall₂_iff_zip.mp hreads).2 hp, (List.of_mem_zip hp).1⟩
  refine ⟨made, hcalls ▸ hknown.calls, hknown.names, hamong, ?_, ?_⟩
  · refine List.forall₂_iff_zip.mpr ⟨hreads.length_eq, fun {leaf x} hp => ?_⟩
    obtain ⟨⟨m, hm, hkey, rfl⟩, hleaf⟩ := hstands _ hp
    exact ⟨m, hm, rfl,
      (hknown.own m hm).of_alike (hconsistent.alike_of_key (hamong m hm) hleaf hkey)⟩
  · intro p hp p' hp'
    obtain ⟨hx, hleaf⟩ := hstands p hp
    obtain ⟨hx', hleaf'⟩ := hstands p' hp'
    have hiff := StandsFor.eq_iff hknown hx hx'
    exact ⟨hiff, fun hname => hconsistent.alike_of_key hleaf hleaf' (hiff.mp hname)⟩

theorem sameCrew_consistent : Leaf.Consistent (Stage.crewedScope "ACTED_IN" "ACTED_IN").leaves := by
  have hone : ∀ leaf ∈ (Stage.crewedScope "ACTED_IN" "ACTED_IN").leaves,
      leaf = .aggregation (Stage.largeCrew "ACTED_IN") := by
    intro leaf hleaf
    simpa [Stage.crewedScope, Stage.crewedTargets, FilterScope.leaves,
      Condition.alternativeLeaves, Condition.optionLeaves, Condition.leaves] using hleaf
  constructor
  · intro leaf hleaf
    rw [hone leaf hleaf]
    simp [Leaf.Plain, Stage.largeCrew, Stage.crew]
  · intro leaf hleaf leaf' hleaf' _
    rw [hone leaf hleaf, hone leaf' hleaf']
    exact .aggregation rfl rfl rfl .countNodes rfl rfl

/-- Both kinds of works have crews of one type: the two leaves share a call. -/
theorem sameCrew_shared :
    ∃ es calls t, gathered ((Stage.crewedScope "ACTED_IN" "ACTED_IN").build Stage.workContext) {} =
        .ok ((es, calls), t) ∧
      Expr.valuesOf es = ["var0", "var0"] ∧
      ∃ made : List Made, calls = made.map Made.clause ∧
        List.Forall₂ (fun leaf x => ∃ m ∈ made, m.name = x ∧
          leaf.Calls Stage.workContext.subject t.params x m.clause)
          (Stage.crewedScope "ACTED_IN" "ACTED_IN").leaves (Expr.valuesOf es) := by
  refine ⟨_, _, _, rfl, rfl, ?_⟩
  obtain ⟨made, hcalls, _, _, hown, _⟩ :=
    @shared_calls_sound Stage.workContext _ _ _ _ _ sameCrew_consistent rfl
  exact ⟨made, hcalls, hown⟩

/-- The type of the first relationship that a call follows. -/
def callType? : Clause → Option String
  | .call _ (.matching ⟨_, (edge, _) :: _⟩ _ _ :: _) => edge.graphType
  | _ => none

/-- A call follows the relationship of each leaf that it does for. -/
theorem Leaf.Calls.callType {subject x : String} {params : Entries Doc} {a : Aggregation}
    {clause : Clause} (h : Leaf.Calls subject params (.aggregation a) x clause) :
    callType? clause = some a.relationship.graphType := by
  cases h
  rfl

/-- The crews of the two kinds of works are reached over different types, under one name. The filter
that is read for them asks both in one scope, and one call answers for both. -/
theorem otherCrew_uncalled :
    Reader.condition ⟨Stage.production "ACTED_IN" "STARRED_IN", false⟩ (.node Stage.person)
        Stage.ofLargeCrew "Person.where" =
      .ok (some (.related Stage.works .atLeastOne (Stage.crewedTargets "ACTED_IN" "STARRED_IN")
        true none)) ∧
    ∃ es calls t, gathered ((Stage.crewedScope "ACTED_IN" "STARRED_IN").build Stage.workContext) {}
        = .ok ((es, calls), t) ∧
      ¬ List.Forall₂ (fun leaf x => ∃ clause ∈ calls,
          leaf.Calls Stage.workContext.subject t.params x clause)
        (Stage.crewedScope "ACTED_IN" "STARRED_IN").leaves (Expr.valuesOf es) := by
  refine ⟨rfl, _, _, _, rfl, ?_⟩
  intro hown
  obtain ⟨-, hrest⟩ := List.forall₂_cons.mp hown
  obtain ⟨hseries, -⟩ := List.forall₂_cons.mp hrest
  obtain ⟨clause, hclause, hcalls⟩ := hseries
  rw [List.mem_singleton.mp hclause] at hcalls
  exact absurd hcalls.callType (by decide)

end GraphSelection.Program
