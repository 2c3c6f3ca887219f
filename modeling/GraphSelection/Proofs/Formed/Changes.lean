import GraphSelection.Compile
import GraphSelection.Proofs.Formed.Fields

/-!
Changes are written in well-formed lists. What is found and checked writes nothing, so anything may
follow it; what is written is followed by more writing or by a `WITH`. The induction is over the
nested changes, each of which is a call that ends in a count.
-/
namespace GraphSelection.Program

open Cypher Plan Minting

variable {policy : Policy} {ctx : Context}

section Writes

theorem grants_assignmentList (name : String) (assignments : List Assignment) :
    Grants policy (fun pairs => ∀ p ∈ pairs, p.1.Obeys policy ∧ p.2.Obeys policy)
      (assignmentList name assignments) := by
  induction assignments with
  | nil => exact grants_pure (by simp)
  | cons a rest ih =>
    have hone : Grants policy (fun p => p.1.Obeys policy ∧ p.2.Obeys policy)
        (Program.assignment name a) :=
      (grants_typedParam _ _).bind fun value => grants_pure fun hvalue =>
        ⟨obeys_propertyOf _ _, hvalue⟩
    refine hone.bind fun pair => ih.bind fun pairs => grants_pure fun hpairs hpair => ?_
    exact List.forall_mem_cons.mpr ⟨hpair, hpairs⟩

variable (hwrites : policy.writes = true)

include hwrites

theorem grants_assigned (name : String) (assignments : List Assignment) :
    Grants policy (WriteList policy) (assigned name assignments) := by
  refine (grants_assignmentList name assignments).bind fun pairs => ?_
  refine grants_pure fun hpairs => ?_
  split
  · exact writeList_nil
  · exact writeList_cons (open_writing hwrites (obeysPairs.mpr hpairs) rfl) rfl writeList_nil

end Writes

theorem grants_linkedNodes {child : Context} {link : Link} {filter : Option Condition}
    {edges : Bool} (h : ∀ c ∈ filter, c.Fits (Allows policy) edges) :
    Grants policy (StillList policy) (linkedNodes ctx child link filter) :=
  (grants_lift (p := fun _ => True) fun _ _ => trivial).skip fun _ => grants_filteredMatch _ h

theorem still_counted {body : List Clause} (h : OpenList policy body) (ctx : Context)
    (result : String) : (counted ctx body result).Still policy :=
  (still_call _).mpr (h.give (by simp) result _)

section Changes

mutual
theorem grants_clause (hwrites : policy.writes = true) (ctx : Context) (m : Mutation)
    (h : ∀ p ∈ m.parts, p.Fits (Allows policy)) :
    Grants policy (Clause.Still policy) (Mutation.clause ctx m) := by
  match m with
  | .create link ⟨assignments, nested, validations⟩ edgeAssignments =>
    have hvalidations : FitsAll (Allows policy) validations := h _ List.mem_cons_self
    refine grants_names fun edge node result => ?_
    refine (grants_assigned hwrites node assignments).bind fun own => ?_
    refine (grants_assigned hwrites edge edgeAssignments).bind fun onEdge => ?_
    refine (grants_after hwrites _ _ nested fun p hp => h p (List.mem_cons_of_mem _ hp)).bind ?_
    refine fun written => (grants_validated hvalidations).bind fun checks => ?_
    refine grants_pure fun hchecks hwritten honEdge hown => ?_
    have hnode := writeList_cons (open_create hwrites (labelled node link.target)) rfl hown
    have hedge := writeList_cons
      (open_create hwrites (connection ctx.subject link.relationship edge node)) rfl honEdge
    exact still_counted ((hwritten (hnode.append hedge).opened).andThen hchecks.opened) ctx result
  | .connect link filter edgeAssignments validations =>
    have hfits : (∀ c ∈ filter, c.Fits (Allows policy) false) ∧
        FitsAll (Allows policy) validations :=
      h _ List.mem_cons_self
    refine grants_names fun edge node result => ?_
    refine (grants_filteredMatch _ hfits.1).bind fun found => ?_
    refine (grants_assigned hwrites edge edgeAssignments).bind fun onEdge => ?_
    refine (grants_validated hfits.2).bind fun checks => ?_
    refine grants_pure fun hchecks honEdge hfound => ?_
    have hedge := writeList_cons
      (open_merge hwrites (connection ctx.subject link.relationship edge node)) rfl honEdge
    exact still_counted ((hfound.opened.write hedge).andThen hchecks.opened) ctx result
  | .disconnect link filter validations =>
    have hfits : (∀ c ∈ filter, c.Fits (Allows policy) true) ∧
        FitsAll (Allows policy) validations :=
      h _ List.mem_cons_self
    refine grants_names fun edge node result => ?_
    refine (grants_linkedNodes hfits.1).bind fun found => ?_
    refine (grants_validated hfits.2).bind fun checks => grants_pure fun hchecks hfound => ?_
    have hbefore := (stillList_append.mpr ⟨hfound, hchecks⟩).opened
    exact still_counted (hbefore.write (writeList_delete hwrites false [edge])) ctx result
  | .update link filter before nodeAssignments edgeAssignments after =>
    have hfits : (∀ c ∈ filter, c.Fits (Allows policy) true) ∧
        FitsAll (Allows policy) before ∧ FitsAll (Allows policy) after :=
      h _ List.mem_cons_self
    refine grants_names fun edge node result => ?_
    refine (grants_linkedNodes hfits.1).bind fun found => ?_
    refine (grants_validated hfits.2.1).bind fun first => ?_
    refine (grants_assigned hwrites node nodeAssignments).bind fun own => ?_
    refine (grants_assigned hwrites edge edgeAssignments).bind fun onEdge => ?_
    refine (grants_validated hfits.2.2).bind fun last => ?_
    refine grants_pure fun hlast honEdge hown hfirst hfound => ?_
    have hbefore := (stillList_append.mpr ⟨hfound, hfirst⟩).opened
    exact still_counted (((hbefore.write hown).write honEdge).andThen hlast.opened) ctx result
  | .delete link filter before nested =>
    have hfits : (∀ c ∈ filter, c.Fits (Allows policy) true) ∧ FitsAll (Allows policy) before :=
      h _ List.mem_cons_self
    refine grants_names fun edge node result => ?_
    refine (grants_linkedNodes hfits.1).bind fun found => ?_
    refine (grants_validated hfits.2).bind fun first => ?_
    refine (grants_after hwrites _ _ nested fun p hp => h p (List.mem_cons_of_mem _ hp)).bind ?_
    refine fun clauses => grants_pure fun hclauses hfirst hfound => ?_
    have hbefore := (stillList_append.mpr ⟨hfound, hfirst⟩).opened
    have hlast := (writeList_delete hwrites true [node]).opened
    exact still_counted ((hclauses hbefore).andThen hlast) ctx result
theorem grants_after (hwrites : policy.writes = true) (ctx : Context) (before : List Clause)
    (ms : List Mutation) (h : ∀ p ∈ Mutation.partsOf ms, p.Fits (Allows policy)) :
    Grants policy (fun cs => OpenList policy before → OpenList policy cs)
      (Mutation.after ctx before ms) := by
  match ms with
  | [] => exact grants_pure fun hbefore => hbefore
  | m :: rest =>
    refine (grants_clause hwrites ctx m fun p hp => h p (List.mem_append_left _ hp)).bind ?_
    refine fun clause => (grants_after hwrites ctx _ rest fun p hp =>
      h p (List.mem_append_right _ hp)).mono fun cs hcs hclause hbefore => ?_
    exact hcs (hbefore.andThen (stillList_cons.mpr ⟨hclause, stillList_nil⟩).opened)
end

variable (hwrites : policy.writes = true)

include hwrites

theorem grants_newNode {e : Entity} {n : NewNode Mutation}
    (h : ∀ p ∈ newNodeParts e n, p.Fits (Allows policy)) :
    Grants policy (OpenList policy) (newNode ctx e n) := by
  have hvalidations : FitsAll (Allows policy) n.validations := h _ List.mem_cons_self
  refine (grants_assigned hwrites ctx.subject n.assignments).bind fun own => ?_
  refine (grants_after hwrites ctx _ n.nested fun p hp => h p (List.mem_cons_of_mem _ hp)).bind ?_
  refine fun written => (grants_validated hvalidations).bind fun checks => ?_
  refine grants_pure fun hchecks hwritten hown => ?_
  have hnode := writeList_cons (open_create hwrites (labelled ctx.subject e)) rfl hown
  exact (hwritten hnode.opened).andThen hchecks.opened

theorem grants_newNodes {e : Entity} {nodes : List (NewNode Mutation)} (isFirst : Bool)
    (h : ∀ n ∈ nodes, ∀ p ∈ newNodeParts e n, p.Fits (Allows policy)) :
    Grants policy (fun r => StillList policy r.1) (newNodes ctx e isFirst nodes) := by
  induction nodes generalizing isFirst with
  | nil => exact grants_pure stillList_nil
  | cons n rest ih =>
    refine (grants_branchContext isFirst).skip fun own => ?_
    refine (grants_newNode hwrites (h n List.mem_cons_self)).bind fun body => ?_
    refine (ih false fun n hn => h n (List.mem_cons_of_mem _ hn)).bind fun more => ?_
    refine grants_pure fun hmore hbody => stillList_cons.mpr ⟨(still_call _).mpr ?_, hmore⟩
    exact hbody.giveAll (by simp [Column.var]) _

end Changes

theorem grants_projections {fields : List Field}
    (h : ∀ p ∈ Field.partsOf fields, p.Fits (Allows policy)) (contexts : List Context) :
    Grants policy (fun r => StillList policy r.1 ∧ ∀ e ∈ r.2, e.Obeys policy)
      (projections fields contexts) := by
  induction contexts with
  | nil => exact grants_pure (by simp)
  | cons own rest ih =>
    refine (grants_items own fields h).bind fun first => ih.bind fun more => ?_
    refine grants_pure fun hmore hfirst => ⟨stillList_append.mpr ⟨hfirst.1, hmore.1⟩, ?_⟩
    exact List.forall_mem_cons.mpr ⟨obeys_items hfirst.2, hmore.2⟩

section Operations

/-- The list ends in the removal of nodes and returns nothing. -/
structure Removes (policy : Policy) (cs : List Clause) : Prop where
  opened : OpenList policy cs
  last : ∃ name, cs.getLast? = some (.delete true [name])

/-- How the program of an operation ends. -/
def Concludes (policy : Policy) (o : Operation) (cs : List Clause) : Prop :=
  match resultOf o with
  | some column => Answer policy .program column cs
  | none => Removes policy cs

variable (hwrites : policy.writes = true)

include hwrites

theorem grants_createClauses (ctx : Context) {c : Create}
    (h : ∀ p ∈ Operation.parts (.create c), p.Fits (Allows policy)) :
    Grants policy (Answer policy .program ctx.result) (createClauses ctx c) := by
  have hnodes : ∀ n ∈ c.nodes, ∀ p ∈ newNodeParts c.entity n, p.Fits (Allows policy) :=
    fun n hn p hp => h p (List.mem_append_left _ (List.mem_flatMap.mpr ⟨n, hn, hp⟩))
  refine (grants_newNodes hwrites true hnodes).bind fun made => ?_
  refine (grants_projections (fun p hp => h p (List.mem_append_right _ hp)) made.2).bind ?_
  refine fun shown => grants_pure fun hshown hmade => ?_
  exact (stillList_append.mpr ⟨hmade, hshown.1⟩).opened.answer (obeys_list.mpr hshown.2) _ _

theorem grants_updateClauses (ctx : Context) {u : Update}
    (h : ∀ p ∈ Operation.parts (.update u), p.Fits (Allows policy)) :
    Grants policy (Answer policy .program ctx.result) (updateClauses ctx u) := by
  have hfits : (∀ c ∈ u.filter, c.Fits (Allows policy) false) ∧
      FitsAll (Allows policy) u.before ∧ FitsAll (Allows policy) u.after :=
    h (.update u) (by simp [Operation.parts])
  have hnested : ∀ p ∈ Mutation.partsOf u.nested, p.Fits (Allows policy) :=
    fun p hp => h p (by simp [Operation.parts, hp])
  refine (grants_filteredMatch _ hfits.1).bind fun found => ?_
  refine (grants_validated hfits.2.1).bind fun first => ?_
  refine (grants_assigned hwrites ctx.subject u.assignments).bind fun own => ?_
  refine (grants_after hwrites ctx _ u.nested hnested).bind fun written => ?_
  refine (grants_validated hfits.2.2).bind fun last => ?_
  refine (grants_items ctx u.fields fun p hp => h p (by simp [Operation.parts, hp])).bind ?_
  refine fun shown => grants_pure fun hshown hlast hwritten hown hfirst hfound => ?_
  have hbefore := (stillList_append.mpr ⟨hfound, hfirst⟩).opened.write hown
  have hall := ((hwritten hbefore).andThen hlast.opened).andThen hshown.1.opened
  refine hall.answer ((obeys_apply _).mpr (List.forall_mem_singleton.mpr ?_)) _ _
  exact obeys_distinct.mpr (obeys_items hshown.2)

theorem grants_deleteClauses {d : Delete}
    (h : ∀ p ∈ Operation.parts (.delete d), p.Fits (Allows policy)) :
    Grants policy (Removes policy) (deleteClauses ctx d) := by
  have hfits : (∀ c ∈ d.filter, c.Fits (Allows policy) false) ∧
      FitsAll (Allows policy) d.before :=
    h (.delete d) List.mem_cons_self
  refine (grants_filteredMatch _ hfits.1).bind fun found => ?_
  refine (grants_validated hfits.2).bind fun first => ?_
  refine (grants_after hwrites ctx _ d.nested fun p hp =>
    h p (List.mem_cons_of_mem _ hp)).bind fun clauses => ?_
  refine grants_pure fun hclauses hfirst hfound => ⟨?_, ctx.subject, ?_⟩
  · have hbefore := (stillList_append.mpr ⟨hfound, hfirst⟩).opened
    exact (hclauses hbefore).andThen (writeList_delete hwrites true _).opened
  · unfold andThen
    split <;> simp

theorem grants_programOf {terms : Terms} {o : Operation}
    (h : ∀ p ∈ o.parts, p.Fits (Allows policy)) :
    Grants policy (Concludes policy o) (programOf terms o) := by
  refine (grants_fresh (by decide)).skip fun subject => ?_
  cases o with
  | lookup l => exact grants_lookupClauses (.root terms subject responseColumn) l h .program
  | aggregate a =>
    have ha : a.scope.Fits (Allows policy) false := h (.aggregate a) List.mem_cons_self
    exact grants_aggregateClauses (.root terms subject responseColumn) ha .program
  | create c => exact grants_createClauses hwrites (.root terms subject responseColumn) h
  | update u => exact grants_updateClauses hwrites (.root terms subject responseColumn) h
  | delete d => exact grants_deleteClauses hwrites h

end Operations

end GraphSelection.Program
