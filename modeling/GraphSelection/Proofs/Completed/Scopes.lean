import GraphSelection.Proofs.Parts
import GraphSelection.Proofs.Runs

/-!
Building that cannot fail: from every supply of names and parameters there is a result. Steps that
cannot fail follow one another without failing. A predicate is built whenever its condition fits
into its place: the edge that it speaks of is there, and so is the statement of every computed
attribute. The same holds of scopes, windows and measures.
-/
namespace GraphSelection.Program

open Cypher Plan

section Steps

variable {α β : Type} {p : α → Prop} {q : β → Prop}

/-- A result from every supply, of which something is known. -/
structure Builds (p : α → Prop) (x : Build α) : Prop where
  run : ∀ s, ∃ a t, x s = .ok (a, t) ∧ p a

/-- A result from every supply. -/
abbrev Completes (x : Build α) : Prop := Builds (fun _ => True) x

theorem builds_pure {a : α} (h : p a) : Builds p (pure a) := ⟨fun s => ⟨a, s, rfl, h⟩⟩

theorem completes_pure (a : α) : Completes (pure a) := builds_pure trivial

theorem Builds.bind {x : Build α} {f : α → Build β} (hx : Builds p x)
    (hf : ∀ a, p a → Builds q (f a)) : Builds q (x >>= f) := by
  constructor
  intro s
  obtain ⟨a, t, ha, hp⟩ := hx.run s
  obtain ⟨b, u, hb, hq⟩ := (hf a hp).run t
  exact ⟨b, u, (bind_ok x f s u b).mpr ⟨a, t, ha, hb⟩, hq⟩

theorem Completes.bind {x : Build α} {f : α → Build β} (hx : Completes x)
    (hf : ∀ a, Builds q (f a)) : Builds q (x >>= f) :=
  Builds.bind hx fun a _ => hf a

theorem Builds.completes {x : Build α} (h : Builds p x) : Completes x := by
  constructor
  intro s
  obtain ⟨a, t, ha, _⟩ := h.run s
  exact ⟨a, t, ha, trivial⟩

theorem completes_fresh (hint : String) : Completes (fresh hint) :=
  ⟨fun _ => ⟨_, _, rfl, trivial⟩⟩

theorem completes_param (value : Doc) : Completes (param value) :=
  ⟨fun _ => ⟨_, _, rfl, trivial⟩⟩

theorem completes_lift {x : Except Failure α} (h : ∃ a, x = .ok a) :
    Completes (liftM x : Build α) := by
  obtain ⟨a, rfl⟩ := h
  exact ⟨fun s => ⟨a, s, rfl, trivial⟩⟩

/-- A part of a predicate, with a result whatever calls are known already. -/
structure Decides (x : Predicate α) : Prop where
  run : ∀ q, Completes (x q)

theorem decides_pure (a : α) : Decides (pure a) := ⟨fun q => completes_pure (a, q)⟩

theorem Decides.bind {x : Predicate α} {f : α → Predicate β} (hx : Decides x)
    (hf : ∀ a, Decides (f a)) : Decides (x >>= f) :=
  ⟨fun q => Completes.bind (f := fun r => f r.1 r.2) (hx.run q) fun r => (hf r.1).run r.2⟩

theorem decides_lift {x : Build α} (h : Completes x) : Decides (liftM x : Predicate α) :=
  ⟨fun q => Completes.bind (f := fun a => pure (a, q)) h fun a => completes_pure (a, q)⟩

theorem decides_shared (key : String) {call : String → Build Clause}
    (h : ∀ name, Completes (call name)) : Decides (shared key call) := by
  refine Decides.bind ⟨fun q => completes_pure (q, q)⟩ fun q => ?_
  split
  · exact decides_pure _
  · refine (decides_lift (completes_fresh _)).bind fun name => ?_
    refine (decides_lift (h name)).bind fun clause => ?_
    exact Decides.bind ⟨fun q => completes_pure (_, _)⟩ fun _ => decides_pure _

theorem Decides.gathered {x : Predicate α} (h : Decides x) : Completes (gathered x) :=
  (h.run {}).bind fun _ => completes_pure _

end Steps

/-- Where an edge may be spoken of, there is one. -/
def Context.HasEdge (ctx : Context) (edges : Bool) : Prop :=
  edges = true → ∃ name, ctx.edge = .ok name

theorem hasEdge_false (ctx : Context) : ctx.HasEdge false := nofun

theorem hasEdge_enter (ctx : Context) (node edge result : String) (edges : Bool) :
    (ctx.enter node (some edge) result).HasEdge edges :=
  fun _ => ⟨edge, rfl⟩

/-- An attribute with a statement. -/
def Stated (a : Attribute) : Prop := a.isComputed = true

section Leaves

variable {ctx : Context}

theorem completes_computedCall {a : Attribute} (h : Stated a) (result : String) :
    Completes (computedCall ctx a result) := by
  obtain ⟨computation, hfound⟩ := Option.isSome_iff_exists.mp h
  unfold computedCall
  rw [hfound]
  exact (completes_fresh _).bind fun _ => completes_pure _

theorem measured_some (m : Measure) (node edge : String) :
    ∃ reduced, measured m node (some edge) = .ok reduced := by
  cases m with
  | countNodes => exact ⟨_, rfl⟩
  | countEdges => exact ⟨_, rfl⟩
  | node a f => exact ⟨_, rfl⟩
  | edge a f => exact ⟨_, rfl⟩

theorem completes_typedParam (value : Doc) (kind : Option ScalarKind) :
    Completes (typedParam value kind) :=
  (completes_param _).bind fun _ => completes_pure _

theorem completes_typedListParam (value : Doc) (kind : Option ScalarKind) :
    Completes (typedListParam value kind) :=
  (completes_param _).bind fun _ => completes_pure _

theorem completes_aggregationCall (a : Aggregation) (result : String) :
    Completes (aggregationCall ctx a result) := by
  refine (completes_fresh _).bind fun edge => (completes_fresh _).bind fun node => ?_
  refine (completes_lift (measured_some ..)).bind fun reduced => ?_
  exact (completes_typedParam ..).bind fun _ => completes_pure _

theorem completes_claimParam (value : Option Doc) : Completes (claimParam value) :=
  (completes_param _).bind fun _ => completes_pure _

theorem decides_subjectExpr {edges : Bool} (hedge : ctx.HasEdge edges) {subject : Subject}
    (h : subject.Fits Stated edges) : Decides (subjectExpr ctx subject) := by
  cases subject with
  | node a => exact decides_pure _
  | edge a =>
    exact (decides_lift (completes_lift (hedge h))).bind fun _ => decides_pure _
  | computed a =>
    exact (decides_shared _ (completes_computedCall h)).bind fun _ => decides_pure _
  | claim path value => exact decides_lift (completes_claimParam _)

theorem completes_operandExpr (kind : Option ScalarKind) (op : Comparison) (operand : Operand) :
    Completes (operandExpr kind op operand) := by
  cases operand with
  | literal value =>
    dsimp only [operandExpr]
    split
    · exact (completes_typedListParam ..).bind fun _ => completes_pure _
    · exact (completes_typedParam ..).bind fun _ => completes_pure _
  | claim path value => exact completes_claimParam _

end Leaves

section Conditions

theorem decides_predicates {ctx : Context} {cs : List Condition}
    (h : ∀ c ∈ cs, Decides (Condition.predicate ctx c)) :
    Decides (Condition.predicates ctx cs) := by
  induction cs with
  | nil => exact decides_pure _
  | cons c rest ih =>
    refine (h c List.mem_cons_self).bind fun e => ?_
    refine (ih fun c hc => h c (List.mem_cons_of_mem _ hc)).bind fun es => ?_
    exact decides_pure _

theorem decides_optionPredicate {ctx : Context} {filter : Option Condition}
    (h : ∀ c ∈ filter, Decides (Condition.predicate ctx c)) :
    Decides (Condition.optionPredicate ctx filter) := by
  cases filter with
  | none => exact decides_pure _
  | some c => exact (h c rfl).bind fun _ => decides_pure _

theorem decides_alternatives {ctx : Context} {targets : List (Entity × Option Condition)}
    (h : ∀ target ∈ targets, ∀ c ∈ target.2, Decides (Condition.predicate ctx c)) :
    Decides (Condition.alternatives ctx targets) := by
  induction targets with
  | nil => exact decides_pure _
  | cons target rest ih =>
    refine (decides_optionPredicate (h target List.mem_cons_self)).bind fun own => ?_
    refine (ih fun target ht => h target (List.mem_cons_of_mem _ ht)).bind fun es => ?_
    exact decides_pure _

theorem decides_firstTarget {ctx : Context} {targets : List (Entity × Option Condition)}
    (h : ∀ target ∈ targets, ∀ c ∈ target.2, Decides (Condition.predicate ctx c)) :
    Decides (Condition.firstTarget ctx targets) := by
  cases targets with
  | nil => exact decides_pure _
  | cons target rest => exact decides_optionPredicate (h target List.mem_cons_self)

-- Inside a condition on related nodes there is an edge, whatever there is around it.
/-- A condition that fits has a predicate. -/
theorem decides_of_fits {edges : Bool} {c : Condition} (h : c.Fits Stated edges) :
    ∀ ctx : Context, ctx.HasEdge edges → Decides (Condition.predicate ctx c) := by
  induction h with
  | all _ ih =>
    intro ctx hedge
    exact (decides_predicates fun c hc => ih c hc ctx hedge).bind fun _ => decides_pure _
  | any _ ih =>
    intro ctx hedge
    exact (decides_predicates fun c hc => ih c hc ctx hedge).bind fun _ => decides_pure _
  | not _ ih =>
    intro ctx hedge
    exact (ih ctx hedge).bind fun _ => decides_pure _
  | compare op operand caseInsensitive hsubject =>
    intro ctx hedge
    refine (decides_subjectExpr hedge hsubject).bind fun left => ?_
    exact (decides_lift (completes_operandExpr ..)).bind fun right => decides_pure _
  | nullness isNull hsubject =>
    intro ctx hedge
    exact (decides_subjectExpr hedge hsubject).bind fun _ => decides_pure _
  | labels names => exact fun _ _ => decides_pure _
  | related r q isComposite _ _ ihtargets ihedge =>
    intro ctx _
    refine (decides_lift (completes_fresh _)).bind fun edge => ?_
    refine (decides_lift (completes_fresh _)).bind fun node => ?_
    have hinner := hasEdge_enter ctx node edge ctx.result true
    have htargets := fun target ht c hc => ihtargets target ht c hc _ hinner
    refine (decides_lift (Decides.gathered ?_)).bind fun _ => decides_pure _
    have hedges := fun parts : List Expr =>
      (decides_optionPredicate fun c hc => ihedge c hc _ hinner).bind
        fun edgeParts => decides_pure (parts ++ edgeParts)
    split
    · refine (decides_alternatives htargets).bind fun alternatives => ?_
      exact hedges _
    · exact (decides_firstTarget htargets).bind fun targetParts => hedges _
  | aggregation a =>
    intro ctx _
    exact (decides_shared _ (completes_aggregationCall a)).bind fun _ => decides_pure _
  | authenticated =>
    intro ctx _
    exact (decides_lift (completes_param _)).bind fun _ => decides_pure _

variable {ctx : Context}

theorem completes_filteredMatch {edges : Bool} (hedge : ctx.HasEdge edges) (pattern : Pattern)
    {filter : Option Condition} (h : ∀ c ∈ filter, c.Fits Stated edges) :
    Completes (filteredMatch pattern filter ctx) := by
  have hdecides : Decides (Condition.optionPredicate ctx filter) :=
    decides_optionPredicate fun c hc => decides_of_fits (h c hc) ctx hedge
  exact hdecides.gathered.bind fun _ => completes_pure _

theorem completes_validated {validations : List Condition} (h : FitsAll Stated validations) :
    Completes (validated ctx validations) := by
  refine Completes.bind ?_ fun _ => completes_pure _
  induction validations with
  | nil => exact completes_pure _
  | cons c rest ih =>
    have hfirst := decides_of_fits (h c List.mem_cons_self) ctx (hasEdge_false ctx)
    refine hfirst.gathered.bind fun _ => ?_
    exact (ih fun c hc => h c (List.mem_cons_of_mem _ hc)).bind fun _ => completes_pure _

end Conditions

section Scopes

variable {ctx : Context}

/-- A scope that is reached over a relationship stands inside another scope. -/
structure Context.Reaches (ctx : Context) (relationship : Option Relationship) : Prop where
  edge : ctx.HasEdge relationship.isSome
  parent : relationship.isSome = true → ∃ name, ctx.parent = .ok name

theorem reaches_none (ctx : Context) : ctx.Reaches none := ⟨nofun, nofun⟩

theorem reaches_enter (ctx : Context) (node edge result : String) (r : Option Relationship) :
    (ctx.enter node (some edge) result).Reaches r :=
  ⟨hasEdge_enter ctx node edge result _, fun _ => ⟨ctx.subject, rfl⟩⟩

theorem completes_scopeMatch {edges : Bool} (hedge : ctx.HasEdge edges) {scope : Scope}
    (hreaches : ctx.Reaches scope.relationship) (h : scope.Fits Stated edges) :
    Completes (scopeMatch ctx scope) := by
  refine (completes_lift ?_).bind fun pattern => ?_
  · unfold scopePattern
    cases hrelationship : scope.relationship with
    | none => exact ⟨_, rfl⟩
    | some r =>
      rw [hrelationship] at hreaches
      obtain ⟨edge, hedge⟩ := hreaches.edge rfl
      obtain ⟨parent, hparent⟩ := hreaches.parent rfl
      simp only [hedge, hparent]
      exact ⟨_, rfl⟩
  · refine (completes_filteredMatch hedge pattern h.filter).bind fun found => ?_
    exact (completes_validated h.validations).bind fun _ => completes_pure _

theorem completes_distinctNodes {edges : Bool} (hedge : ctx.HasEdge edges) {scope : Scope}
    (hreaches : ctx.Reaches scope.relationship) (h : scope.Fits Stated edges) :
    Completes (distinctNodes ctx scope) := by
  refine (completes_scopeMatch hedge hreaches h).bind fun clauses => ?_
  split
  · exact completes_pure _
  · exact completes_pure _

theorem completes_importParent : Completes (importParent ctx) := by
  unfold importParent
  split
  · exact completes_pure _
  · rename_i hroot
    refine (completes_lift ?_).bind fun _ => completes_pure _
    unfold Context.parent
    cases hparents : ctx.parents with
    | nil =>
      rw [Context.isRoot, hparents] at hroot
      exact absurd rfl hroot
    | cons parent rest => exact ⟨parent, rfl⟩

theorem completes_bounds (page : Page) : Completes (bounds page) := by
  have hcount : ∀ n : Option Nat, Completes (countParam n) := by
    intro n
    cases n with
    | none => exact completes_pure _
    | some n => exact (completes_param _).bind fun _ => completes_pure _
  refine (hcount _).bind fun skip => (hcount _).bind fun limit => ?_
  exact completes_pure _

/-- One value for each sort key. -/
theorem builds_sortValues {edges : Bool} (hedge : ctx.HasEdge edges) {sort : List SortKey}
    (h : ∀ key ∈ sort, key.target.Fits Stated edges) :
    Builds (fun r => r.2.length = sort.length) (sortValues ctx sort) := by
  induction sort with
  | nil => exact builds_pure rfl
  | cons key rest ih =>
    have hvalue : Completes (sortValue ctx key) := by
      have hfits := h key List.mem_cons_self
      unfold sortValue
      cases htarget : key.target with
      | node a => exact completes_pure _
      | edge a =>
        rw [htarget] at hfits
        exact (completes_lift (hedge hfits)).bind fun _ => completes_pure _
      | computed a =>
        rw [htarget] at hfits
        refine (completes_fresh _).bind fun name => ?_
        exact (completes_computedCall hfits name).bind fun _ => completes_pure _
    refine hvalue.bind fun first => ?_
    refine (ih fun key hkey => h key (List.mem_cons_of_mem _ hkey)).bind fun more hmore => ?_
    exact builds_pure (by simp [hmore])

theorem completes_orderedWindow {edges : Bool} (hedge : ctx.HasEdge edges) {sort : List SortKey}
    (h : ∀ key ∈ sort, key.target.Fits Stated edges) (b : Bounds) :
    Completes (orderedWindow ctx sort b) := by
  unfold orderedWindow
  split
  · exact completes_pure _
  · exact (builds_sortValues hedge h).completes.bind fun _ => completes_pure _

theorem completes_arranged {edges : Bool} (hedge : ctx.HasEdge edges) {sort : List SortKey}
    (h : ∀ key ∈ sort, key.target.Fits Stated edges) (page : Page) :
    Completes (arranged ctx sort page) := by
  unfold arranged
  split
  · exact completes_pure _
  · exact (completes_bounds page).bind fun b => completes_orderedWindow hedge h b

end Scopes

end GraphSelection.Program
