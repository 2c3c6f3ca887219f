import GraphSelection.Compile
import GraphSelection.Proofs.AskedBy.Changes

/-!
Outlines of plans do not show claims, so plans that differ in the values of claims have one outline
and one depth. With that, whether a request has a plan that is not nested too deep does not depend
on who asks.
-/
namespace GraphSelection.Plan

variable (p : Principal)

-- The mutual recursions follow those of the outlines.
mutual
theorem Condition.outline_askedBy (c : Condition) : (c.askedBy p).outline = c.outline := by
  match c with
  | .all items | .any items =>
    simp only [Condition.askedBy, Condition.outline, Condition.outlines_askedBy items]
  | .not inner => simp only [Condition.askedBy, Condition.outline, inner.outline_askedBy]
  | .related r q targets isComposite edge =>
    simp only [Condition.askedBy, Condition.outline, Condition.targetOutlines_askedBy targets,
      Condition.optionOutline_askedBy edge]
  | .compare _ _ _ _ | .nullness _ _ | .labels _ | .aggregation _ | .authenticated => rfl
theorem Condition.outlines_askedBy (cs : List Condition) :
    Condition.outlines (Condition.eachAskedBy p cs) = Condition.outlines cs := by
  match cs with
  | [] => rfl
  | c :: rest =>
    simp only [Condition.eachAskedBy, Condition.outlines, c.outline_askedBy,
      Condition.outlines_askedBy rest]
theorem Condition.targetOutlines_askedBy (targets : List (Entity × Option Condition)) :
    Condition.targetOutlines (Condition.targetsAskedBy p targets) =
      Condition.targetOutlines targets := by
  match targets with
  | [] => rfl
  | (e, filter) :: rest =>
    simp only [Condition.targetsAskedBy, Condition.targetOutlines,
      Condition.optionOutline_askedBy filter, Condition.targetOutlines_askedBy rest]
theorem Condition.optionOutline_askedBy (c : Option Condition) :
    Condition.optionOutline (Condition.optionAskedBy p c) = Condition.optionOutline c := by
  match c with
  | none => rfl
  | some c => simp only [Condition.optionAskedBy, Condition.optionOutline, c.outline_askedBy]
end

theorem filterOutline_askedBy (filter : Option Condition) :
    Condition.optionOutline (filter.map (Condition.askedBy p)) =
      Condition.optionOutline filter := by
  rw [← Condition.optionAskedBy_eq, Condition.optionOutline_askedBy]

theorem validationOutlines_askedBy (validations : List Condition) :
    validationOutlines (validations.map (Condition.askedBy p)) =
      validationOutlines validations := by
  simp only [validationOutlines, List.map_map, Function.comp_def, Condition.outline_askedBy]

theorem Aggregate.outline_askedBy (a : Aggregate) : (a.askedBy p).outline = a.outline := by
  simp only [Aggregate.askedBy, Aggregate.outline, Scope.askedBy, filterOutline_askedBy,
    validationOutlines_askedBy]

mutual
theorem Field.outline_askedBy (f : Field) : (f.askedBy p).outline = f.outline := by
  match f with
  | .stored _ _ | .computed _ _ | .typename _ _ => rfl
  | .lookup key l => simp only [Field.askedBy, Field.outline, Field.lookupOutline_askedBy l]
  | .aggregate key a => simp only [Field.askedBy, Field.outline, a.outline_askedBy]
theorem Field.outlines_askedBy (fields : List Field) :
    Field.outlines (Field.eachAskedBy p fields) = Field.outlines fields := by
  match fields with
  | [] => rfl
  | f :: rest =>
    simp only [Field.eachAskedBy, Field.outlines, f.outline_askedBy, Field.outlines_askedBy rest]
theorem Field.lookupOutline_askedBy (l : Lookup Field) :
    Field.lookupOutline (Field.lookupAskedBy p l) = Field.lookupOutline l := by
  match l with
  | .read ⟨scope, fields, sort, page⟩ =>
    have hread := Field.readOutlines_askedBy ⟨scope, fields, sort, page⟩
    simp only [Field.readAskedBy] at hread
    simp only [Field.lookupAskedBy, Field.readAskedBy, Field.lookupOutline, hread]
    rfl
  | .connection ⟨scope, sort, page, items⟩ =>
    simp only [Field.lookupAskedBy, Field.lookupOutline, Scope.askedBy, filterOutline_askedBy,
      validationOutlines_askedBy, Field.itemOutlines_askedBy items]
  | .composite ⟨composite, relationship, branches, sort, page⟩ =>
    simp only [Field.lookupAskedBy, Field.lookupOutline, Field.branchOutlines_askedBy branches]
  | .compositeConnection ⟨composite, relationship, branches, sort, page, items⟩ =>
    simp only [Field.lookupAskedBy, Field.lookupOutline,
      Field.connectionBranchOutlines_askedBy branches, Field.itemOutlines_askedBy items]
theorem Field.readOutlines_askedBy (r : Read Field) :
    Field.readOutlines (Field.readAskedBy p r) = Field.readOutlines r := by
  match r with
  | ⟨scope, fields, sort, page⟩ =>
    simp only [Field.readAskedBy, Field.readOutlines, Scope.askedBy, filterOutline_askedBy,
      validationOutlines_askedBy, Field.outlines_askedBy fields]
theorem Field.branchOutlines_askedBy (branches : List (Read Field)) :
    Field.branchOutlines (Field.branchesAskedBy p branches) = Field.branchOutlines branches := by
  match branches with
  | [] => rfl
  | r :: rest =>
    simp only [Field.branchesAskedBy, Field.branchOutlines, Field.readOutlines_askedBy r,
      Field.branchOutlines_askedBy rest]
theorem Field.connectionBranchOutlines_askedBy (branches : List (ConnectionBranch Field)) :
    Field.connectionBranchOutlines (Field.connectionBranchesAskedBy p branches) =
      Field.connectionBranchOutlines branches := by
  match branches with
  | [] => rfl
  | ⟨read, edgeFields⟩ :: rest =>
    simp only [Field.connectionBranchesAskedBy, Field.connectionBranchOutlines,
      Field.readOutlines_askedBy read, Field.connectionBranchOutlines_askedBy rest]
theorem Field.nodeOutlines_askedBy (node : Option (String × List Field)) :
    Field.nodeOutlines (Field.nodeAskedBy p node) = Field.nodeOutlines node := by
  match node with
  | none => rfl
  | some (key, fields) =>
    simp only [Field.nodeAskedBy, Field.nodeOutlines, Field.outlines_askedBy fields]
theorem Field.itemOutlines_askedBy (items : List (ConnectionItem Field)) :
    Field.itemOutlines (Field.itemsAskedBy p items) = Field.itemOutlines items := by
  match items with
  | [] => rfl
  | .edges key node properties typeName :: rest =>
    simp only [Field.itemsAskedBy, Field.itemOutlines, Field.nodeOutlines_askedBy node,
      Field.itemOutlines_askedBy rest]
  | .aggregate key items :: rest =>
    simp only [Field.itemsAskedBy, Field.itemOutlines, Field.itemOutlines_askedBy rest]
  | .totalCount _ :: rest | .pageInfo _ _ :: rest | .typename _ _ :: rest =>
    simp only [Field.itemsAskedBy, Field.itemOutlines, Field.itemOutlines_askedBy rest]
end

mutual
theorem Mutation.outline_askedBy (m : Mutation) : (m.askedBy p).outline = m.outline := by
  match m with
  | .create link ⟨assignments, nested, validations⟩ edge =>
    simp only [Mutation.askedBy, Mutation.outline, validationOutlines_askedBy,
      Mutation.outlines_askedBy nested]
  | .delete link filter before nested =>
    simp only [Mutation.askedBy, Mutation.outline, filterOutline_askedBy,
      validationOutlines_askedBy, Mutation.outlines_askedBy nested]
  | .connect _ _ _ _ | .disconnect _ _ _ | .update _ _ _ _ _ _ =>
    simp only [Mutation.askedBy, Mutation.outline, filterOutline_askedBy,
      validationOutlines_askedBy]
theorem Mutation.outlines_askedBy (nested : List Mutation) :
    Mutation.outlines (Mutation.eachAskedBy p nested) = Mutation.outlines nested := by
  match nested with
  | [] => rfl
  | m :: rest =>
    simp only [Mutation.eachAskedBy, Mutation.outlines, m.outline_askedBy,
      Mutation.outlines_askedBy rest]
end

theorem NewNode.outlines_askedBy (n : NewNode Mutation) :
    (n.askedBy p).outlines = n.outlines := by
  simp only [NewNode.askedBy, NewNode.outlines, validationOutlines_askedBy,
    ← Mutation.eachAskedBy_eq, Mutation.outlines_askedBy]

theorem Operation.outline_askedBy (o : Operation) : (o.askedBy p).outline = o.outline := by
  cases o with
  | lookup l => exact Field.lookupOutline_askedBy p l
  | aggregate a => exact a.outline_askedBy p
  | create c =>
    simp only [Operation.askedBy, Operation.outline, Create.askedBy, ← Field.eachAskedBy_eq,
      Field.outlines_askedBy, List.flatMap_map, NewNode.outlines_askedBy]
  | update u =>
    simp only [Operation.askedBy, Operation.outline, Update.askedBy, filterOutline_askedBy,
      validationOutlines_askedBy, ← Field.eachAskedBy_eq, Field.outlines_askedBy,
      ← Mutation.eachAskedBy_eq, Mutation.outlines_askedBy]
  | delete d =>
    simp only [Operation.askedBy, Operation.outline, Delete.askedBy, filterOutline_askedBy,
      validationOutlines_askedBy, ← Mutation.eachAskedBy_eq, Mutation.outlines_askedBy]

theorem Operation.depth_askedBy (o : Operation) : (o.askedBy p).depth = o.depth := by
  rw [Operation.depth, Operation.outline_askedBy, Operation.depth]

end GraphSelection.Plan

namespace GraphSelection.Resolve.Setup

open Plan

theorem plan_askedBy (p : Principal) (s : Setup) (r : Request) :
    (s.askedBy p).plan r = Operation.askedBy p <$> s.plan r := by
  refine bind_both (operation_askedBy p s r) fun o => ?_
  simp only [Operation.depth_askedBy, show (s.askedBy p).settings = s.settings from rfl]
  split
  · rfl
  · rfl

end GraphSelection.Resolve.Setup
