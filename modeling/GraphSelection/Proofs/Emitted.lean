import GraphSelection.Compile
import GraphSelection.Proofs.Parts
import GraphSelection.Proofs.Runs

/-!
The matches of a program. Every filter of a plan stands in its program, in a match of the entity
that it is about, however deep the part it belongs to is nested. An aggregate that measures
nothing matches nothing.
-/
namespace GraphSelection.Plan

/-- A filter over an entity, for an action that the rules of the entity guard. -/
structure Guard where
  entity : Entity
  action : Action
  filter : Option Condition

def Scope.guard (scope : Scope) (action : Action) : Guard := ⟨scope.entity, action, scope.filter⟩

def Lookup.guards : Lookup Field → List Guard
  | .read r => [r.scope.guard .read]
  | .connection c => [c.scope.guard .read]
  | .composite c => c.branches.map fun b => b.scope.guard .read
  | .compositeConnection c => c.branches.map fun b => b.read.scope.guard .read

/-- A new node is matched by nothing. -/
def Mutation.guards : Mutation → List Guard
  | .create _ _ _ => []
  | .connect link filter _ _ => [⟨link.target, .createRelationship, filter⟩]
  | .disconnect link filter _ => [⟨link.target, .deleteRelationship, filter⟩]
  | .update link filter _ _ _ _ => [⟨link.target, .update, filter⟩]
  | .delete link filter _ _ => [⟨link.target, .delete, filter⟩]

/-- The filters of a part by itself. -/
def Part.guards : Part → List Guard
  | .field _ => []
  | .lookup l => l.guards
  | .aggregate a => [a.scope.guard .aggregate]
  | .newNode _ _ => []
  | .change m => m.guards
  | .update u => [⟨u.entity, .update, u.filter⟩]
  | .delete d => [⟨d.entity, .delete, d.filter⟩]

mutual
def AggregateItem.measures : AggregateItem → List Measure
  | .measure _ m => [m]
  | .group _ items => AggregateItem.measuresOf items
  | .typename _ _ => []
def AggregateItem.measuresOf : List AggregateItem → List Measure
  | [] => []
  | item :: rest => item.measures ++ AggregateItem.measuresOf rest
end

/-- The part is read at all. -/
def Part.IsMatched : Part → Prop
  | .aggregate a => AggregateItem.measuresOf a.items ≠ []
  | _ => True

end GraphSelection.Plan

namespace GraphSelection.Program

open Cypher Plan

/-- The block stands in the clauses, or in one of their calls and branches at any depth. -/
inductive Holds (block : List Clause) : List Clause → Prop
  | here (before after : List Clause) : Holds block (before ++ block ++ after)
  | call {body : List Clause} (before after : List Clause) (imports : List String)
      (h : Holds block body) : Holds block (before ++ .call imports body :: after)
  | branch {body : List Clause} {branches : List (List Clause)} (before after : List Clause)
      (hbody : body ∈ branches) (h : Holds block body) :
      Holds block (before ++ .union branches :: after)

namespace Holds

variable {block xs : List Clause}

theorem left (h : Holds block xs) (ys : List Clause) : Holds block (xs ++ ys) := by
  cases h with
  | here before after =>
    rw [List.append_assoc]
    exact .here before (after ++ ys)
  | call before after imports h =>
    rw [List.append_assoc, List.cons_append]
    exact .call before (after ++ ys) imports h
  | branch before after hbody h =>
    rw [List.append_assoc, List.cons_append]
    exact .branch before (after ++ ys) hbody h

theorem right (h : Holds block xs) (ys : List Clause) : Holds block (ys ++ xs) := by
  cases h with
  | here before after =>
    rw [← List.append_assoc, ← List.append_assoc]
    exact .here (ys ++ before) after
  | call before after imports h =>
    rw [← List.append_assoc]
    exact .call (ys ++ before) after imports h
  | branch before after hbody h =>
    rw [← List.append_assoc]
    exact .branch (ys ++ before) after hbody h

theorem cons (c : Clause) (h : Holds block xs) : Holds block (c :: xs) := h.right [c]

theorem inCall (imports : List String) (h : Holds block xs) : Holds block [.call imports xs] :=
  .call [] [] imports h

theorem andThen_left (h : Holds block xs) (ys : List Clause) : Holds block (andThen xs ys) := by
  unfold andThen
  split
  · exact h.left _
  · exact h.left _

theorem andThen_right (h : Holds block xs) (ys : List Clause) : Holds block (andThen ys xs) := by
  unfold andThen
  split
  · exact (h.cons _).right _
  · exact h.right _

end Holds

theorem holds_self (clauses : List Clause) : Holds clauses clauses := by
  have hwhole : Holds clauses ([] ++ clauses ++ []) := .here [] []
  simpa using hwhole

/-- The node in which a pattern ends. -/
def stop (p : Pattern) : NodePattern :=
  match p.chain.getLast? with
  | some (_, node) => node
  | none => p.start

/-- A match of the entity under the filter of the guard stands in the clauses. -/
def Emitted (g : Guard) (clauses : List Clause) : Prop :=
  ∃ pattern ctx s t block, Filtered ctx pattern s g.filter block t ∧
    stop pattern = NodePattern.named ctx.subject g.entity.labels ∧ Holds block clauses

theorem Emitted.mono {g : Guard} {xs ys : List Clause} (h : Emitted g xs)
    (hsub : ∀ block, Holds block xs → Holds block ys) : Emitted g ys := by
  obtain ⟨pattern, ctx, s, t, block, hmatch, hstop, hholds⟩ := h
  exact ⟨pattern, ctx, s, t, block, hmatch, hstop, hsub block hholds⟩

/-- The filters of all the parts stand in the clauses. -/
def Emits (parts : List Part) (clauses : List Clause) : Prop :=
  ∀ p ∈ parts, p.IsMatched → ∀ g ∈ p.guards, Emitted g clauses

namespace Emits

variable {parts parts' : List Part} {xs ys : List Clause}

theorem mono (h : Emits parts xs) (hsub : ∀ block, Holds block xs → Holds block ys) :
    Emits parts ys :=
  fun p hp hmatched g hg => (h p hp hmatched g hg).mono hsub

theorem left (h : Emits parts xs) (ys : List Clause) : Emits parts (xs ++ ys) :=
  h.mono fun _ hholds => hholds.left ys

theorem right (h : Emits parts xs) (ys : List Clause) : Emits parts (ys ++ xs) :=
  h.mono fun _ hholds => hholds.right ys

theorem append (h : Emits parts xs) (h' : Emits parts' xs) : Emits (parts ++ parts') xs := by
  intro p hp
  rcases List.mem_append.mp hp with hp | hp
  · exact h p hp
  · exact h' p hp

theorem cons {p : Part} (hp : p.IsMatched → ∀ g ∈ p.guards, Emitted g xs) (h : Emits parts xs) :
    Emits (p :: parts) xs := by
  intro q hq
  rcases List.mem_cons.mp hq with rfl | hq
  · exact hp
  · exact h q hq

theorem nil : Emits [] xs := by
  intro p hp
  simp at hp

/-- A part without a filter of its own. -/
theorem silent {p : Part} (hp : p.guards = []) (h : Emits parts xs) : Emits (p :: parts) xs :=
  h.cons fun _ g hg => by simp [hp] at hg

/-- A part with one filter of its own. -/
theorem guarded {p : Part} {g : Guard} (hp : p.guards = [g]) (hg : p.IsMatched → Emitted g xs)
    (h : Emits parts xs) : Emits (p :: parts) xs := by
  refine h.cons fun hmatched g' hg' => ?_
  rw [hp, List.mem_singleton] at hg'
  exact hg' ▸ hg hmatched

end Emits

section Scopes

variable {ctx : Context} {scope : Scope} {s t : Supply}

theorem scopePattern_stop {pattern : Pattern} (h : scopePattern ctx scope = .ok pattern) :
    stop pattern = NodePattern.named ctx.subject scope.entity.labels := by
  unfold scopePattern at h
  simp only at h
  split at h
  · cases h
    rfl
  · simp only [except_bind_ok, except_pure_ok] at h
    obtain ⟨parent, _, edge, _, rfl⟩ := h
    rfl

theorem emitted_scopeMatch {clauses : List Clause} (action : Action)
    (h : scopeMatch ctx scope s = .ok (clauses, t)) : Emitted (scope.guard action) clauses := by
  simp only [scopeMatch, bind_ok, lift_ok, pure_ok] at h
  obtain ⟨pattern, _, ⟨hpattern, rfl⟩, found, u, hfound, checks, v, _, rfl, rfl⟩ := h
  exact ⟨pattern, ctx, _, _, found, (filteredMatch_ok ..).mp hfound, scopePattern_stop hpattern,
    .here [] checks⟩

theorem emitted_distinctNodes {clauses : List Clause} (action : Action)
    (h : distinctNodes ctx scope s = .ok (clauses, t)) : Emitted (scope.guard action) clauses := by
  simp only [distinctNodes, bind_ok] at h
  obtain ⟨found, u, hfound, h⟩ := h
  have hemitted := emitted_scopeMatch action hfound
  cases hrelationship : scope.relationship with
  | none =>
    simp only [hrelationship, pure_ok] at h
    exact h.1 ▸ hemitted
  | some r =>
    simp only [hrelationship, pure_ok] at h
    exact h.1 ▸ hemitted.mono fun _ hholds => hholds.left _

theorem emitted_measureCall {m : Measure} {result : String} {clause : Clause} (action : Action)
    (h : measureCall ctx scope m result s = .ok (clause, t)) :
    Emitted (scope.guard action) [clause] := by
  simp only [measureCall, bind_ok, lift_ok, pure_ok] at h
  obtain ⟨imports, _, ⟨_, rfl⟩, found, u, hfound, ⟨before, reduced⟩, _, ⟨_, rfl⟩, rfl, rfl⟩ := h
  refine (emitted_scopeMatch action hfound).mono fun _ hholds => ?_
  exact ((hholds.left before).left _).inCall imports

mutual
/-- Each measure of an aggregate has a match of its own. -/
theorem emitted_aggregateEntry {g : Guard} {call : Measure → String → Build Clause}
    (hcall : ∀ m result s clause t, call m result s = .ok (clause, t) → Emitted g [clause]) :
    (item : AggregateItem) → ∀ {calls : List Clause} {entry : String × Expr} {s t : Supply},
    aggregateEntry call item s = .ok ((calls, entry), t) → item.measures ≠ [] → Emitted g calls
  | .measure key m => by
    intro h _
    simp only [aggregateEntry, bind_ok, fresh_ok, pure_ok, Prod.mk.injEq] at h
    obtain ⟨name, _, ⟨rfl, rfl⟩, clause, u, hclause, ⟨rfl, _⟩, _⟩ := h
    exact hcall m _ _ clause u hclause
  | .group key items => by
    intro h hne
    simp only [aggregateEntry, bind_ok, pure_ok, Prod.mk.injEq] at h
    obtain ⟨⟨calls, entries⟩, u, hitems, ⟨rfl, _⟩, _⟩ := h
    exact emitted_aggregateEntries hcall items hitems hne
  | .typename key typeName => by
    intro _ hne
    exact absurd rfl hne
theorem emitted_aggregateEntries {g : Guard} {call : Measure → String → Build Clause}
    (hcall : ∀ m result s clause t, call m result s = .ok (clause, t) → Emitted g [clause]) :
    (items : List AggregateItem) → ∀ {calls : List Clause} {entries : List (String × Expr)}
    {s t : Supply}, aggregateEntries call items s = .ok ((calls, entries), t) →
    AggregateItem.measuresOf items ≠ [] → Emitted g calls
  | [] => by
    intro _ hne
    exact absurd rfl hne
  | item :: rest => by
    intro h hne
    simp only [aggregateEntries, bind_ok, pure_ok, Prod.mk.injEq] at h
    obtain ⟨⟨calls, entry⟩, u, hitem, ⟨more, entries⟩, v, hrest, ⟨rfl, _⟩, _⟩ := h
    by_cases hfirst : item.measures = []
    · have hmore : AggregateItem.measuresOf rest ≠ [] := by
        simpa [AggregateItem.measuresOf, hfirst] using hne
      exact (emitted_aggregateEntries hcall rest hrest hmore).mono fun _ hholds => hholds.right _
    · exact (emitted_aggregateEntry hcall item hitem hfirst).mono fun _ hholds => hholds.left _
end

theorem emits_aggregateClauses {a : Aggregate} {clauses : List Clause}
    (h : aggregateClauses ctx a s = .ok (clauses, t)) : Emits [.aggregate a] clauses := by
  simp only [aggregateClauses, bind_ok, pure_ok] at h
  obtain ⟨⟨calls, entries⟩, u, hcalls, rfl, rfl⟩ := h
  refine Emits.nil.guarded rfl fun hmatched => ?_
  refine Emitted.mono (emitted_aggregateEntries ?_ a.items hcalls hmatched) fun _ hholds =>
    hholds.left _
  exact fun m result s clause t => emitted_measureCall .aggregate

end Scopes

/-- The filters of all the parts stand in some of the branches. -/
def EmitsIn (parts : List Part) (bodies : List (List Clause)) : Prop :=
  ∀ p ∈ parts, p.IsMatched → ∀ g ∈ p.guards, ∃ body ∈ bodies, Emitted g body

theorem Emitted.ofBranch {g : Guard} {bodies : List (List Clause)}
    (h : ∃ body ∈ bodies, Emitted g body) : Emitted g [.call [] [.union bodies]] := by
  obtain ⟨body, hbody, hemitted⟩ := h
  exact hemitted.mono fun _ hholds => Holds.inCall [] (.branch [] [] hbody hholds)

theorem unionCall_bodies {composite column : String} {bodies : List (List Clause)}
    {union : Clause} (h : unionCall composite bodies column = .ok union) :
    bodies = [] ∨ union = .call [] [.union bodies] := by
  unfold unionCall at h
  split at h
  · exact .inl rfl
  · split at h
    · cases h
    · cases h
      exact .inr rfl

/-- What stands in a branch stands in the union; without branches nothing does. -/
theorem emitted_unionCall {g : Guard} {composite column : String} {bodies : List (List Clause)}
    {union : Clause} (h : unionCall composite bodies column = .ok union)
    (hbody : ∃ body ∈ bodies, Emitted g body) : Emitted g [union] := by
  rcases unionCall_bodies h with rfl | rfl
  · obtain ⟨body, hmem, _⟩ := hbody
    simp at hmem
  · exact .ofBranch hbody

mutual
theorem emits_item : (f : Field) → ∀ {ctx : Context} {calls : List Clause} {item : MapItem Expr}
    {s t : Supply}, Field.item ctx f s = .ok ((calls, item), t) → Emits f.parts calls
  | .stored key a => fun _ => .silent rfl .nil
  | .computed key a => fun _ => .silent rfl .nil
  | .typename key typeName => fun _ => .silent rfl .nil
  | .lookup key l => by
    intro h
    simp only [Field.item, nestedCall, bind_ok, fresh_ok, pure_ok, Prod.mk.injEq] at h
    obtain ⟨⟨calls, e⟩, u, ⟨_, _, ⟨rfl, rfl⟩, _, _, ⟨rfl, rfl⟩, _, _, ⟨rfl, rfl⟩, clauses, v,
      hclauses, ⟨rfl, _⟩, _⟩, ⟨rfl, _⟩, _⟩ := h
    exact .silent rfl ((emits_lookupClauses l hclauses).mono fun _ hholds => hholds.inCall _)
  | .aggregate key a => by
    intro h
    simp only [Field.item, nestedCall, bind_ok, fresh_ok, pure_ok, Prod.mk.injEq] at h
    obtain ⟨⟨calls, e⟩, u, ⟨_, _, ⟨rfl, rfl⟩, _, _, ⟨rfl, rfl⟩, _, _, ⟨rfl, rfl⟩, clauses, v,
      hclauses, ⟨rfl, _⟩, _⟩, ⟨rfl, _⟩, _⟩ := h
    exact .silent rfl ((emits_aggregateClauses hclauses).mono fun _ hholds => hholds.inCall _)
theorem emits_items : (fields : List Field) → ∀ {ctx : Context} {calls : List Clause}
    {items : List (MapItem Expr)} {s t : Supply},
    Field.items ctx fields s = .ok ((calls, items), t) → Emits (Field.partsOf fields) calls
  | [] => fun _ => .nil
  | f :: rest => by
    intro h
    simp only [Field.items, bind_ok, pure_ok, Prod.mk.injEq] at h
    obtain ⟨⟨calls, item⟩, u, hitem, ⟨more, items⟩, v, hrest, ⟨rfl, _⟩, _⟩ := h
    exact ((emits_item f hitem).left more).append ((emits_items rest hrest).right calls)
theorem emits_lookupClauses : (l : Lookup Field) → ∀ {ctx : Context} {clauses : List Clause}
    {s t : Supply}, Field.lookupClauses ctx l s = .ok (clauses, t) →
    Emits (Field.lookupParts l) clauses
  | .read ⟨scope, fields, sort, page⟩ => by
    intro h
    simp only [Field.lookupClauses, bind_ok, pure_ok] at h
    obtain ⟨found, u, hfound, window, v, _, ⟨calls, items⟩, w, hitems, rfl, rfl⟩ := h
    refine Emits.guarded rfl (fun _ => ?_) (((emits_items fields hitems).right _).left _)
    exact (emitted_distinctNodes .read hfound).mono fun _ hholds =>
      ((hholds.left window).left calls).left _
  | .connection ⟨scope, sort, page, items⟩ => by
    intro h
    simp only [Field.lookupClauses, bind_ok, pure_ok] at h
    obtain ⟨found, u, hfound, ⟨collect, l⟩, v, _, ⟨calls, entries⟩, w, hentries, rfl, rfl⟩ := h
    refine Emits.guarded rfl (fun _ => ?_) (((emits_entries items hentries).right _).left _)
    exact (emitted_scopeMatch .read hfound).mono fun _ hholds =>
      ((hholds.left collect).left calls).left _
  | .composite ⟨composite, relationship, branches, sort, page⟩ => by
    intro h
    simp only [Field.lookupClauses, bind_ok, fresh_ok, lift_ok, pure_ok] at h
    obtain ⟨_, _, ⟨rfl, rfl⟩, columns, u, _, bodies, v, hbodies, union, _, ⟨hunion, rfl⟩, window, w,
      _, rfl, rfl⟩ := h
    obtain ⟨hscopes, hfields⟩ := emits_branches branches hbodies
    refine Emits.cons ?_ ?_
    · intro _ g hg
      obtain ⟨b, hb, rfl⟩ := List.mem_map.mp hg
      exact (emitted_unionCall hunion (hscopes b hb)).mono fun _ hholds => hholds.left _
    · intro p hp hmatched g hg
      exact (emitted_unionCall hunion (hfields p hp hmatched g hg)).mono fun _ hholds =>
        hholds.left _
  | .compositeConnection ⟨composite, relationship, branches, sort, page, items⟩ => by
    intro h
    simp only [Field.lookupClauses, bind_ok, fresh_ok, lift_ok, pure_ok] at h
    obtain ⟨_, _, ⟨rfl, rfl⟩, columns, u, _, bodies, v, hbodies, union, _, ⟨hunion, rfl⟩,
      ⟨collect, l⟩, w, _, ⟨calls, entries⟩, x, _, rfl, rfl⟩ := h
    obtain ⟨hscopes, hfields⟩ := emits_connectionBranches branches hbodies
    refine Emits.cons ?_ ?_
    · intro _ g hg
      obtain ⟨b, hb, rfl⟩ := List.mem_map.mp hg
      exact (emitted_unionCall hunion (hscopes b hb)).mono fun _ hholds => hholds.left _
    · intro p hp hmatched g hg
      exact (emitted_unionCall hunion (hfields p hp hmatched g hg)).mono fun _ hholds =>
        hholds.left _
theorem emits_entries : (items : List (ConnectionItem Field)) → ∀ {ctx : Context} {l : EdgeList}
    {sort : List SortKey} {calls : List Clause} {entries : List (String × Expr)} {s t : Supply},
    Field.entries ctx l sort items s = .ok ((calls, entries), t) →
    Emits (Field.itemParts items) calls
  | [] => fun _ => .nil
  | .edges key node properties typename :: rest => by
    intro h
    simp only [Field.entries, bind_ok, fresh_ok, lift_ok, pure_ok, Prod.mk.injEq] at h
    obtain ⟨_, _, ⟨rfl, rfl⟩, _, _, ⟨rfl, rfl⟩, window, u, _, ⟨nodeCalls, nodeEntries⟩, v, hnode, _,
      _, ⟨_, rfl⟩, ⟨more, entries⟩, w, hrest, ⟨rfl, _⟩, _⟩ := h
    refine Emits.append ?_ ((emits_entries rest hrest).mono fun _ hholds => hholds.cons _)
    refine (emits_nodeEntry node hnode).mono fun _ hholds => ?_
    exact (((hholds.right _).left _).inCall _).left more
  | .aggregate key items :: rest => by
    intro h
    simp only [Field.entries, bind_ok, pure_ok, Prod.mk.injEq] at h
    obtain ⟨⟨calls, group⟩, u, _, ⟨more, entries⟩, v, hrest, ⟨rfl, _⟩, _⟩ := h
    exact (emits_entries rest hrest).right calls
  | .totalCount key :: rest => by
    intro h
    simp only [Field.entries, bind_ok, pure_ok, Prod.mk.injEq] at h
    obtain ⟨⟨more, entries⟩, v, hrest, ⟨rfl, _⟩, _⟩ := h
    exact emits_entries rest hrest
  | .pageInfo key fields :: rest => by
    intro h
    simp only [Field.entries, bind_ok, pure_ok, Prod.mk.injEq] at h
    obtain ⟨⟨more, entries⟩, v, hrest, ⟨rfl, _⟩, _⟩ := h
    exact emits_entries rest hrest
  | .typename key typeName :: rest => by
    intro h
    simp only [Field.entries, bind_ok, pure_ok, Prod.mk.injEq] at h
    obtain ⟨⟨more, entries⟩, v, hrest, ⟨rfl, _⟩, _⟩ := h
    exact emits_entries rest hrest
theorem emits_nodeEntry : (node : Option (String × List Field)) → ∀ {ctx : Context}
    {calls : List Clause} {entries : List (String × Expr)} {s t : Supply},
    Field.nodeEntry ctx node s = .ok ((calls, entries), t) → Emits (Field.nodeParts node) calls
  | none => fun _ => .nil
  | some (key, fields) => by
    intro h
    simp only [Field.nodeEntry, bind_ok, pure_ok, Prod.mk.injEq] at h
    obtain ⟨⟨calls, items⟩, u, hitems, ⟨rfl, _⟩, _⟩ := h
    exact emits_items fields hitems
theorem emits_branches : (branches : List (Read Field)) → ∀ {ctx : Context} {column : String}
    {columns : List String} {isFirst : Bool} {bodies : List (List Clause)} {s t : Supply},
    Field.branches ctx column columns isFirst branches s = .ok (bodies, t) →
    (∀ b ∈ branches, ∃ body ∈ bodies, Emitted (b.scope.guard .read) body) ∧
      EmitsIn (Field.branchParts branches) bodies
  | [] => fun _ => ⟨by simp, by simp [EmitsIn, Field.branchParts]⟩
  | ⟨scope, fields, sort, page⟩ :: rest => by
    intro h
    simp only [Field.branches, bind_ok, pure_ok] at h
    obtain ⟨own, s₁, _, start, s₂, _, found, s₃, hfound, ⟨calls, items⟩, s₄, hitems,
      ⟨keyCalls, keys⟩, s₅, _, more, s₆, hrest, rfl, rfl⟩ := h
    obtain ⟨hscopes, hfields⟩ := emits_branches rest hrest
    refine ⟨?_, ?_⟩
    · intro b hb
      rcases List.mem_cons.mp hb with rfl | hb
      · refine ⟨_, List.mem_cons_self, (emitted_distinctNodes .read hfound).mono fun _ hholds => ?_⟩
        exact (((hholds.right start).left calls).left keyCalls).left _
      · obtain ⟨body, hbody, hemitted⟩ := hscopes b hb
        exact ⟨body, List.mem_cons_of_mem _ hbody, hemitted⟩
    · intro p hp hmatched g hg
      rcases List.mem_append.mp hp with hp | hp
      · refine ⟨_, List.mem_cons_self, (emits_items fields hitems p hp hmatched g hg).mono
          fun _ hholds => ?_⟩
        exact ((hholds.right _).left keyCalls).left _
      · obtain ⟨body, hbody, hemitted⟩ := hfields p hp hmatched g hg
        exact ⟨body, List.mem_cons_of_mem _ hbody, hemitted⟩
theorem emits_connectionBranches : (branches : List (ConnectionBranch Field)) →
    ∀ {ctx : Context} {column : String} {columns : List String} {isFirst : Bool}
    {bodies : List (List Clause)} {s t : Supply},
    Field.connectionBranches ctx column columns isFirst branches s = .ok (bodies, t) →
    (∀ b ∈ branches, ∃ body ∈ bodies, Emitted (b.read.scope.guard .read) body) ∧
      EmitsIn (Field.connectionBranchParts branches) bodies
  | [] => fun _ => ⟨by simp, by simp [EmitsIn, Field.connectionBranchParts]⟩
  | ⟨⟨scope, fields, sort, page⟩, edgeFields⟩ :: rest => by
    intro h
    simp only [Field.connectionBranches, bind_ok, lift_ok, pure_ok] at h
    obtain ⟨own, s₁, _, start, s₂, _, found, s₃, hfound, ⟨calls, items⟩, s₄, hitems, properties, _,
      ⟨_, rfl⟩, ⟨keyCalls, keys⟩, s₅, _, more, s₆, hrest, rfl, rfl⟩ := h
    obtain ⟨hscopes, hfields⟩ := emits_connectionBranches rest hrest
    refine ⟨?_, ?_⟩
    · intro b hb
      rcases List.mem_cons.mp hb with rfl | hb
      · refine ⟨_, List.mem_cons_self, (emitted_scopeMatch .read hfound).mono fun _ hholds => ?_⟩
        exact (((hholds.right start).left calls).left keyCalls).left _
      · obtain ⟨body, hbody, hemitted⟩ := hscopes b hb
        exact ⟨body, List.mem_cons_of_mem _ hbody, hemitted⟩
    · intro p hp hmatched g hg
      rcases List.mem_append.mp hp with hp | hp
      · refine ⟨_, List.mem_cons_self, (emits_items fields hitems p hp hmatched g hg).mono
          fun _ hholds => ?_⟩
        exact ((hholds.right _).left keyCalls).left _
      · obtain ⟨body, hbody, hemitted⟩ := hfields p hp hmatched g hg
        exact ⟨body, List.mem_cons_of_mem _ hbody, hemitted⟩
end

section Changes

theorem emitted_linkedNodes {ctx child : Context} {link : Link} {filter : Option Condition}
    {clauses : List Clause} {s t : Supply} (action : Action)
    (h : linkedNodes ctx child link filter s = .ok (clauses, t)) :
    Emitted ⟨link.target, action, filter⟩ clauses := by
  simp only [linkedNodes, bind_ok, lift_ok] at h
  obtain ⟨edge, _, ⟨_, rfl⟩, hfound⟩ := h
  exact ⟨_, child, _, _, clauses, (filteredMatch_ok ..).mp hfound, rfl, holds_self clauses⟩

theorem emitted_labelled {ctx : Context} {e : Entity} {filter : Option Condition}
    {clauses : List Clause} {s t : Supply} (action : Action)
    (h : filteredMatch (labelled ctx.subject e) filter ctx s = .ok (clauses, t)) :
    Emitted ⟨e, action, filter⟩ clauses := by
  exact ⟨_, ctx, _, _, clauses, (filteredMatch_ok ..).mp h, rfl, holds_self clauses⟩

theorem holds_counted {ctx : Context} {body : List Clause} {result : String} (block : List Clause)
    (h : Holds block body) : Holds block [counted ctx body result] :=
  (h.left _).inCall _

mutual
theorem emits_clause : (m : Mutation) → ∀ {ctx : Context} {clause : Clause} {s t : Supply},
    Mutation.clause ctx m s = .ok (clause, t) → Emits m.parts [clause]
  | .create link ⟨assignments, nested, validations⟩ edge => by
    intro h
    simp only [Mutation.clause, bind_ok, fresh_ok, pure_ok] at h
    obtain ⟨_, _, ⟨rfl, rfl⟩, _, _, ⟨rfl, rfl⟩, _, _, ⟨rfl, rfl⟩, own, u₁, _, onEdge, u₂, _,
      written, u₃, hwritten, checks, u₄, _, rfl, rfl⟩ := h
    refine .silent rfl ((emits_after nested hwritten).1.mono fun block hholds => ?_)
    exact holds_counted block (hholds.andThen_left checks)
  | .connect link filter edge validations => by
    intro h
    simp only [Mutation.clause, bind_ok, fresh_ok, pure_ok] at h
    obtain ⟨_, _, ⟨rfl, rfl⟩, _, _, ⟨rfl, rfl⟩, _, _, ⟨rfl, rfl⟩, found, u₁, hfound, onEdge, u₂, _,
      checks, u₃, _, rfl, rfl⟩ := h
    refine Emits.nil.guarded rfl fun _ => ?_
    refine (emitted_labelled .createRelationship hfound).mono fun block hholds => ?_
    exact holds_counted block ((hholds.left _).andThen_left checks)
  | .disconnect link filter validations => by
    intro h
    simp only [Mutation.clause, bind_ok, fresh_ok, pure_ok] at h
    obtain ⟨_, _, ⟨rfl, rfl⟩, _, _, ⟨rfl, rfl⟩, _, _, ⟨rfl, rfl⟩, found, u₁, hfound, checks, u₂, _,
      rfl, rfl⟩ := h
    refine Emits.nil.guarded rfl fun _ => ?_
    refine (emitted_linkedNodes .deleteRelationship hfound).mono fun block hholds => ?_
    exact holds_counted block ((hholds.left checks).left _)
  | .update link filter before node edge after => by
    intro h
    simp only [Mutation.clause, bind_ok, fresh_ok, pure_ok] at h
    obtain ⟨_, _, ⟨rfl, rfl⟩, _, _, ⟨rfl, rfl⟩, _, _, ⟨rfl, rfl⟩, found, u₁, hfound, first, u₂, _,
      own, u₃, _, onEdge, u₄, _, last, u₅, _, rfl, rfl⟩ := h
    refine Emits.nil.guarded rfl fun _ => ?_
    refine (emitted_linkedNodes .update hfound).mono fun block hholds => ?_
    exact holds_counted block ((((hholds.left first).left own).left onEdge).andThen_left last)
  | .delete link filter before nested => by
    intro h
    simp only [Mutation.clause, bind_ok, fresh_ok, pure_ok] at h
    obtain ⟨_, _, ⟨rfl, rfl⟩, _, _, ⟨rfl, rfl⟩, _, _, ⟨rfl, rfl⟩, found, u₁, hfound, first, u₂, _,
      clauses, u₃, hclauses, rfl, rfl⟩ := h
    obtain ⟨hnested, hbefore⟩ := emits_after nested hclauses
    refine Emits.guarded rfl (fun _ => ?_) (hnested.mono fun block hholds => ?_)
    · refine (emitted_linkedNodes .delete hfound).mono fun block hholds => ?_
      exact holds_counted block ((hbefore block (hholds.left first)).andThen_left _)
    · exact holds_counted block (hholds.andThen_left _)
/-- Nested changes leave what has been written before them in place. -/
theorem emits_after : (ms : List Mutation) → ∀ {ctx : Context} {before clauses : List Clause}
    {s t : Supply}, Mutation.after ctx before ms s = .ok (clauses, t) →
    Emits (Mutation.partsOf ms) clauses ∧ ∀ block, Holds block before → Holds block clauses
  | [] => by
    intro h
    simp only [Mutation.after, pure_ok] at h
    obtain ⟨rfl, rfl⟩ := h
    exact ⟨.nil, fun _ hholds => hholds⟩
  | m :: rest => by
    intro h
    simp only [Mutation.after, bind_ok] at h
    obtain ⟨clause, u, hclause, hrest⟩ := h
    obtain ⟨hmore, hbefore⟩ := emits_after rest hrest
    refine ⟨.append ((emits_clause m hclause).mono fun block hholds => ?_) hmore, ?_⟩
    · exact hbefore block (hholds.andThen_right _)
    · exact fun block hholds => hbefore block (hholds.andThen_left _)
end

variable {ctx : Context} {clauses : List Clause} {s t : Supply}

theorem emits_newNode {e : Entity} {n : NewNode Mutation}
    (h : newNode ctx e n s = .ok (clauses, t)) : Emits (newNodeParts e n) clauses := by
  simp only [newNode, bind_ok, pure_ok] at h
  obtain ⟨own, u₁, _, written, u₂, hwritten, checks, u₃, _, rfl, rfl⟩ := h
  exact .silent rfl ((emits_after n.nested hwritten).1.mono fun _ hholds =>
    hholds.andThen_left checks)

theorem emits_newNodes {e : Entity} {nodes : List (NewNode Mutation)} {isFirst : Bool}
    {contexts : List Context} (h : newNodes ctx e isFirst nodes s = .ok ((clauses, contexts), t)) :
    Emits (nodes.flatMap (newNodeParts e)) clauses ∧ contexts.length = nodes.length := by
  induction nodes generalizing isFirst clauses contexts s t with
  | nil =>
    simp only [newNodes, pure_ok, Prod.mk.injEq] at h
    obtain ⟨⟨rfl, rfl⟩, _⟩ := h
    exact ⟨.nil, rfl⟩
  | cons n rest ih =>
    simp only [newNodes, bind_ok, pure_ok, Prod.mk.injEq] at h
    obtain ⟨own, u₁, _, body, u₂, hbody, ⟨calls, more⟩, u₃, hrest, ⟨rfl, rfl⟩, _⟩ := h
    obtain ⟨hmore, hlength⟩ := ih hrest
    refine ⟨?_, by simp [hlength]⟩
    rw [List.flatMap_cons]
    refine Emits.append ?_ (hmore.mono fun _ hholds => hholds.cons _)
    exact (emits_newNode hbody).mono fun _ hholds => ((hholds.left _).inCall []).left calls

theorem emits_projections {fields : List Field} {contexts : List Context} {es : List Expr}
    (hne : contexts ≠ []) (h : projections fields contexts s = .ok ((clauses, es), t)) :
    Emits (Field.partsOf fields) clauses := by
  cases contexts with
  | nil => exact absurd rfl hne
  | cons first rest =>
    simp only [projections, bind_ok, pure_ok, Prod.mk.injEq] at h
    obtain ⟨⟨calls, items⟩, u₁, hitems, ⟨more, es⟩, u₂, _, ⟨rfl, _⟩, _⟩ := h
    exact (emits_items fields hitems).left more

theorem emits_createClauses {c : Create} (hne : c.nodes ≠ [])
    (h : createClauses ctx c s = .ok (clauses, t)) : Emits (Operation.create c).parts clauses := by
  simp only [createClauses, bind_ok, pure_ok] at h
  obtain ⟨⟨calls, contexts⟩, u₁, hnodes, ⟨more, es⟩, u₂, hfields, rfl, rfl⟩ := h
  obtain ⟨hemits, hlength⟩ := emits_newNodes hnodes
  have hcontexts : contexts ≠ [] := by
    intro hnil
    rw [hnil, List.length_nil] at hlength
    exact hne (List.length_eq_zero_iff.mp hlength.symm)
  exact ((hemits.left more).left _).append
    (((emits_projections hcontexts hfields).right calls).left _)

theorem emits_updateClauses {u : Update} (h : updateClauses ctx u s = .ok (clauses, t)) :
    Emits (Operation.update u).parts clauses := by
  simp only [updateClauses, bind_ok, pure_ok] at h
  obtain ⟨found, u₁, hfound, first, u₂, _, own, u₃, _, written, u₄, hwritten, last, u₅, _,
    ⟨calls, items⟩, u₆, hitems, rfl, rfl⟩ := h
  obtain ⟨hnested, hbefore⟩ := emits_after u.nested hwritten
  refine Emits.append (Emits.guarded rfl (fun _ => ?_) (hnested.mono fun _ hholds => ?_)) ?_
  · refine (emitted_labelled .update hfound).mono fun block hholds => ?_
    have hwritten := hbefore block ((hholds.left first).left own)
    exact ((hwritten.andThen_left last).andThen_left calls).left _
  · exact ((hholds.andThen_left last).andThen_left calls).left _
  · exact (emits_items u.fields hitems).mono fun _ hholds => (hholds.andThen_right _).left _

theorem emits_deleteClauses {d : Delete} (h : deleteClauses ctx d s = .ok (clauses, t)) :
    Emits (Operation.delete d).parts clauses := by
  simp only [deleteClauses, bind_ok, pure_ok] at h
  obtain ⟨found, u₁, hfound, first, u₂, _, nested, u₃, hnested, rfl, rfl⟩ := h
  obtain ⟨hemits, hbefore⟩ := emits_after d.nested hnested
  refine Emits.guarded rfl (fun _ => ?_) (hemits.mono fun _ hholds => hholds.andThen_left _)
  exact (emitted_labelled .delete hfound).mono fun block hholds =>
    (hbefore block (hholds.left first)).andThen_left _

/-- The filters of a plan stand in its program. -/
theorem emits_programOf {terms : Terms} {o : Operation}
    (hne : ∀ c, o = .create c → c.nodes ≠ [])
    (h : programOf terms o s = .ok (clauses, t)) : Emits o.parts clauses := by
  simp only [programOf, bind_ok, fresh_ok] at h
  obtain ⟨subject, _, ⟨rfl, rfl⟩, h⟩ := h
  cases o with
  | lookup l => exact emits_lookupClauses l h
  | aggregate a => exact emits_aggregateClauses h
  | create c => exact emits_createClauses (hne c rfl) h
  | update u => exact emits_updateClauses h
  | delete d => exact emits_deleteClauses h

end Changes

end GraphSelection.Program
