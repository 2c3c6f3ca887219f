import GraphSelection.Document.Json
import GraphSelection.Plan.Condition
import GraphSelection.Plan.Mutation
import GraphSelection.Plan.Outline
import Mathlib.Data.List.Forall2

/-!
Conditions and plans that differ in values only. Which value an attribute is compared with does not
matter. The values that aggregations are compared with decide which of them share a call, so within
one scope they have to be replaced faithfully: what is written alike before is written alike after,
and the other way round. A quantified block is a scope of its own. Kindred plans differ in nothing
but such values and the values that are assigned: all that is selected, sorted and validated is the
same. Their outlines show no values, so they have one outline and one depth.
-/
namespace GraphSelection.Plan

/-- Values are written alike just when those that replace them are. -/
def Faithful (R : Doc → Doc → Prop) : Prop :=
  ∀ v v' w w', R v v' → R w w' →
    (Json.compact v = Json.compact w ↔ Json.compact v' = Json.compact w')

theorem faithful_eq : Faithful Eq := by
  rintro v _ w _ rfl rfl
  exact Iff.rfl

inductive Operand.Akin : Operand → Operand → Prop
  | literal (v v' : Doc) : Operand.Akin (.literal v) (.literal v')
  | claim (path : String) (value : Option Doc) :
      Operand.Akin (.claim path value) (.claim path value)

mutual
/-- Conditions of one structure, the values of whose aggregations are related. -/
inductive Condition.Akin : (Doc → Doc → Prop) → Condition → Condition → Prop
  | all {R : Doc → Doc → Prop} {items items' : List Condition} :
      Condition.EachAkin R items items' → Condition.Akin R (.all items) (.all items')
  | any {R : Doc → Doc → Prop} {items items' : List Condition} :
      Condition.EachAkin R items items' → Condition.Akin R (.any items) (.any items')
  | not {R : Doc → Doc → Prop} {inner inner' : Condition} :
      Condition.Akin R inner inner' → Condition.Akin R (.not inner) (.not inner')
  | compare {R : Doc → Doc → Prop} (subject : Subject) (op : Comparison) {o o' : Operand}
      (caseInsensitive : Bool) : o.Akin o' →
      Condition.Akin R (.compare subject op o caseInsensitive)
        (.compare subject op o' caseInsensitive)
  | nullness {R : Doc → Doc → Prop} (subject : Subject) (isNull : Bool) :
      Condition.Akin R (.nullness subject isNull) (.nullness subject isNull)
  | labels {R : Doc → Doc → Prop} (names : List String) :
      Condition.Akin R (.labels names) (.labels names)
  | related {R R' : Doc → Doc → Prop} (r : Relationship) (q : Quantifier) (isComposite : Bool)
      {targets targets' : List (Entity × Option Condition)} {edge edge' : Option Condition} :
      Faithful R' → Condition.TargetsAkin R' targets targets' →
      Condition.OptionAkin R' edge edge' →
      Condition.Akin R (.related r q targets isComposite edge)
        (.related r q targets' isComposite edge')
  | aggregation {R : Doc → Doc → Prop} (r : Relationship) (target : Entity) (m : Measure)
      (op : Comparison) {v v' : Doc} : R v v' →
      Condition.Akin R (.aggregation ⟨r, target, m, op, v⟩) (.aggregation ⟨r, target, m, op, v'⟩)
  | authenticated {R : Doc → Doc → Prop} : Condition.Akin R .authenticated .authenticated
inductive Condition.EachAkin :
    (Doc → Doc → Prop) → List Condition → List Condition → Prop
  | nil {R : Doc → Doc → Prop} : Condition.EachAkin R [] []
  | cons {R : Doc → Doc → Prop} {c c' : Condition} {rest rest' : List Condition} :
      Condition.Akin R c c' → Condition.EachAkin R rest rest' →
      Condition.EachAkin R (c :: rest) (c' :: rest')
inductive Condition.TargetsAkin :
    (Doc → Doc → Prop) → List (Entity × Option Condition) → List (Entity × Option Condition) → Prop
  | nil {R : Doc → Doc → Prop} : Condition.TargetsAkin R [] []
  | cons {R : Doc → Doc → Prop} (e : Entity) {filter filter' : Option Condition}
      {rest rest' : List (Entity × Option Condition)} :
      Condition.OptionAkin R filter filter' → Condition.TargetsAkin R rest rest' →
      Condition.TargetsAkin R ((e, filter) :: rest) ((e, filter') :: rest')
inductive Condition.OptionAkin :
    (Doc → Doc → Prop) → Option Condition → Option Condition → Prop
  | none {R : Doc → Doc → Prop} : Condition.OptionAkin R none none
  | some {R : Doc → Doc → Prop} {c c' : Condition} :
      Condition.Akin R c c' → Condition.OptionAkin R (some c) (some c')
end

/-- The condition of a scope, in which values are replaced faithfully. -/
def FilterAkin (filter filter' : Option Condition) : Prop :=
  ∃ R, Faithful R ∧ Condition.OptionAkin R filter filter'

namespace Condition

variable {R : Doc → Doc → Prop}

theorem eachAkin_iff {cs cs' : List Condition} :
    EachAkin R cs cs' ↔ List.Forall₂ (Akin R) cs cs' := by
  constructor
  · intro h
    induction cs generalizing cs' with
    | nil =>
      cases h
      exact .nil
    | cons c rest ih =>
      cases h with
      | cons hc hrest => exact .cons hc (ih hrest)
  · intro h
    induction h with
    | nil => exact .nil
    | cons hc _ ih => exact .cons hc ih

theorem targetsAkin_of_forall {targets targets' : List (Entity × Option Condition)}
    (h : List.Forall₂ (fun t t' => t.1 = t'.1 ∧ OptionAkin R t.2 t'.2) targets targets') :
    TargetsAkin R targets targets' := by
  induction h with
  | nil => exact .nil
  | @cons t t' _ _ ht _ ih =>
    obtain ⟨e, filter⟩ := t
    obtain ⟨e', filter'⟩ := t'
    obtain ⟨rfl, hfilter⟩ := ht
    exact .cons e hfilter ih

theorem OptionAkin.toList {c c' : Option Condition} (h : OptionAkin R c c') :
    List.Forall₂ (Akin R) c.toList c'.toList := by
  cases h with
  | none => exact .nil
  | some hc => exact .cons hc .nil

theorem Akin.conjuncts {c c' : Condition} (h : Akin R c c') :
    List.Forall₂ (Akin R) c.conjuncts c'.conjuncts := by
  cases h with
  | all hitems => exact eachAkin_iff.mp hitems
  | any hitems => exact .cons (.any hitems) .nil
  | not hinner => exact .cons (.not hinner) .nil
  | compare subject op caseInsensitive ho => exact .cons (.compare subject op _ ho) .nil
  | nullness subject isNull => exact .cons (.nullness subject isNull) .nil
  | labels names => exact .cons (.labels names) .nil
  | related r q isComposite hfaithful htargets hedge =>
    exact .cons (.related r q isComposite hfaithful htargets hedge) .nil
  | aggregation r target m op hv => exact .cons (.aggregation r target m op hv) .nil
  | authenticated => exact .cons .authenticated .nil

/-- A conjunction of kindred conditions is kindred. -/
theorem allOf_akin {cs cs' : List Condition} (h : List.Forall₂ (Akin R) cs cs') :
    OptionAkin R (allOf cs) (allOf cs') := by
  have hflat : List.Forall₂ (Akin R) (cs.flatMap Condition.conjuncts)
      (cs'.flatMap Condition.conjuncts) := by
    induction h with
    | nil => exact .nil
    | cons hc _ ih => exact List.rel_append hc.conjuncts ih
  unfold allOf
  generalize cs.flatMap Condition.conjuncts = flat at hflat
  generalize cs'.flatMap Condition.conjuncts = flat' at hflat
  cases hflat with
  | nil => exact .none
  | cons hc hrest =>
    cases hrest with
    | nil => exact .some hc
    | cons hnext hmore =>
      exact .some (.all (eachAkin_iff.mpr (.cons hc (.cons hnext hmore))))

mutual
/-- The values that aggregations of one scope are compared with. -/
def compared : Condition → List Doc
  | .all items => comparedOf items
  | .any items => comparedOf items
  | .not inner => inner.compared
  | .aggregation a => [a.value]
  | _ => []
def comparedOf : List Condition → List Doc
  | [] => []
  | c :: rest => c.compared ++ comparedOf rest
end

theorem comparedOf_eq (cs : List Condition) : comparedOf cs = cs.flatMap compared := by
  induction cs with
  | nil => rfl
  | cons c rest ih => rw [comparedOf, ih, List.flatMap_cons]

theorem compared_conjuncts {c part : Condition} (h : part ∈ c.conjuncts) :
    part.compared ⊆ c.compared := by
  cases c with
  | all items =>
    intro v hv
    rw [compared, comparedOf_eq]
    exact List.mem_flatMap.mpr ⟨part, h, hv⟩
  | _ => exact List.mem_singleton.mp h ▸ List.Subset.refl _

/-- A conjunction compares aggregations with what its members compare them with. -/
theorem compared_allOf {cs : List Condition} {c : Condition} (h : allOf cs = some c) {v : Doc}
    (hv : v ∈ c.compared) : ∃ part ∈ cs, v ∈ part.compared := by
  have hflat : ∃ part ∈ cs.flatMap conjuncts, v ∈ part.compared := by
    unfold allOf at h
    split at h
    · cases h
    · rename_i own hown
      exact ⟨c, by simp [hown, Option.some.inj h], hv⟩
    · cases h
      rw [compared, comparedOf_eq] at hv
      exact List.mem_flatMap.mp hv
  obtain ⟨part, hpart, hv⟩ := hflat
  obtain ⟨own, hown, hpart⟩ := List.mem_flatMap.mp hpart
  exact ⟨own, hown, compared_conjuncts hpart hv⟩

theorem operand_akin_refl (o : Operand) : o.Akin o := by
  cases o with
  | literal v => exact .literal v v
  | claim path value => exact .claim path value

-- The blocks inside a condition are scopes of their own, in which nothing is replaced at all.
mutual
theorem akin_refl (R : Doc → Doc → Prop) (c : Condition) (h : ∀ v ∈ c.compared, R v v) :
    Akin R c c := by
  match c with
  | .all items => exact .all (eachAkin_refl R items h)
  | .any items => exact .any (eachAkin_refl R items h)
  | .not inner => exact .not (akin_refl R inner h)
  | .compare subject op o caseInsensitive =>
    exact .compare subject op caseInsensitive (operand_akin_refl o)
  | .nullness subject isNull => exact .nullness subject isNull
  | .labels names => exact .labels names
  | .related r q targets isComposite edge =>
    exact .related r q isComposite faithful_eq (targetsAkin_refl targets) (optionAkin_refl edge)
  | .aggregation ⟨r, target, m, op, v⟩ =>
    exact .aggregation r target m op (h v List.mem_cons_self)
  | .authenticated => exact .authenticated
theorem eachAkin_refl (R : Doc → Doc → Prop) (cs : List Condition)
    (h : ∀ v ∈ comparedOf cs, R v v) : EachAkin R cs cs := by
  match cs with
  | [] => exact .nil
  | c :: rest =>
    refine .cons (akin_refl R c fun v hv => ?_) (eachAkin_refl R rest fun v hv => ?_)
    · exact h v (List.mem_append_left _ hv)
    · exact h v (List.mem_append_right _ hv)
theorem targetsAkin_refl (targets : List (Entity × Option Condition)) :
    TargetsAkin Eq targets targets := by
  match targets with
  | [] => exact .nil
  | (e, filter) :: rest => exact .cons e (optionAkin_refl filter) (targetsAkin_refl rest)
theorem optionAkin_refl (c : Option Condition) : OptionAkin Eq c c := by
  match c with
  | none => exact .none
  | some c => exact .some (akin_refl Eq c fun _ _ => rfl)
end

end Condition

inductive Scope.Akin : Scope → Scope → Prop
  | intro (entity : Entity) (relationship : Option Relationship) (validations : List Condition)
      {filter filter' : Option Condition} : FilterAkin filter filter' →
      Scope.Akin ⟨entity, relationship, filter, validations⟩
        ⟨entity, relationship, filter', validations⟩

inductive Aggregate.Akin : Aggregate → Aggregate → Prop
  | intro (items : List AggregateItem) {scope scope' : Scope} : scope.Akin scope' →
      Aggregate.Akin ⟨scope, items⟩ ⟨scope', items⟩

section Lookups

variable {φ : Type} (R : φ → φ → Prop)

inductive Read.Akin : Read φ → Read φ → Prop
  | intro (sort : List SortKey) (page : Page) {scope scope' : Scope} {fields fields' : List φ} :
      scope.Akin scope' → List.Forall₂ R fields fields' →
      Read.Akin ⟨scope, fields, sort, page⟩ ⟨scope', fields', sort, page⟩

/-- What is selected under `node` of the edges. -/
inductive NodeAkin : Option (String × List φ) → Option (String × List φ) → Prop
  | none : NodeAkin none none
  | some (key : String) {fields fields' : List φ} : List.Forall₂ R fields fields' →
      NodeAkin (some (key, fields)) (some (key, fields'))

inductive ConnectionItem.Akin : ConnectionItem φ → ConnectionItem φ → Prop
  | totalCount (key : String) : ConnectionItem.Akin (.totalCount key) (.totalCount key)
  | edges (key : String) (properties : Option (String × List EdgeField))
      (typename : Option (String × String)) {node node' : Option (String × List φ)} :
      NodeAkin R node node' →
      ConnectionItem.Akin (.edges key node properties typename)
        (.edges key node' properties typename)
  | pageInfo (key : String) (fields : List PageInfoField) :
      ConnectionItem.Akin (.pageInfo key fields) (.pageInfo key fields)
  | aggregate (key : String) (items : List AggregateItem) :
      ConnectionItem.Akin (.aggregate key items) (.aggregate key items)
  | typename (key typeName : String) :
      ConnectionItem.Akin (.typename key typeName) (.typename key typeName)

inductive Connection.Akin : Connection φ → Connection φ → Prop
  | intro (sort : List SortKey) (page : Page) {scope scope' : Scope}
      {items items' : List (ConnectionItem φ)} :
      scope.Akin scope' → List.Forall₂ (ConnectionItem.Akin R) items items' →
      Connection.Akin ⟨scope, sort, page, items⟩ ⟨scope', sort, page, items'⟩

inductive CompositeRead.Akin : CompositeRead φ → CompositeRead φ → Prop
  | intro (composite : Composite) (relationship : Option Relationship) (sort : List SortKey)
      (page : Page) {branches branches' : List (Read φ)} :
      List.Forall₂ (Read.Akin R) branches branches' →
      CompositeRead.Akin ⟨composite, relationship, branches, sort, page⟩
        ⟨composite, relationship, branches', sort, page⟩

inductive ConnectionBranch.Akin : ConnectionBranch φ → ConnectionBranch φ → Prop
  | intro (edgeFields : List EdgeField) {read read' : Read φ} : Read.Akin R read read' →
      ConnectionBranch.Akin ⟨read, edgeFields⟩ ⟨read', edgeFields⟩

inductive CompositeConnection.Akin : CompositeConnection φ → CompositeConnection φ → Prop
  | intro (composite : Composite) (relationship : Option Relationship) (sort : List SortKey)
      (page : Page) {branches branches' : List (ConnectionBranch φ)}
      {items items' : List (ConnectionItem φ)} :
      List.Forall₂ (ConnectionBranch.Akin R) branches branches' →
      List.Forall₂ (ConnectionItem.Akin R) items items' →
      CompositeConnection.Akin ⟨composite, relationship, branches, sort, page, items⟩
        ⟨composite, relationship, branches', sort, page, items'⟩

inductive Lookup.Akin : Lookup φ → Lookup φ → Prop
  | read {r r' : Read φ} : Read.Akin R r r' → Lookup.Akin (.read r) (.read r')
  | connection {c c' : Connection φ} : Connection.Akin R c c' →
      Lookup.Akin (.connection c) (.connection c')
  | composite {c c' : CompositeRead φ} : CompositeRead.Akin R c c' →
      Lookup.Akin (.composite c) (.composite c')
  | compositeConnection {c c' : CompositeConnection φ} : CompositeConnection.Akin R c c' →
      Lookup.Akin (.compositeConnection c) (.compositeConnection c')

end Lookups

inductive Field.Akin : Field → Field → Prop
  | stored (key : String) (a : Attribute) : Field.Akin (.stored key a) (.stored key a)
  | computed (key : String) (a : Attribute) : Field.Akin (.computed key a) (.computed key a)
  | typename (key typeName : String) : Field.Akin (.typename key typeName) (.typename key typeName)
  | lookup (key : String) {l l' : Lookup Field} : Lookup.Akin Field.Akin l l' →
      Field.Akin (.lookup key l) (.lookup key l')
  | aggregate (key : String) {a a' : Aggregate} : a.Akin a' →
      Field.Akin (.aggregate key a) (.aggregate key a')

/-- The same attributes are set, to any values. -/
abbrev AssignmentsAkin (assignments assignments' : List Assignment) : Prop :=
  List.Forall₂ (fun a a' => a.target = a'.target) assignments assignments'

inductive NewNode.Akin {μ : Type} (R : μ → μ → Prop) : NewNode μ → NewNode μ → Prop
  | intro (validations : List Condition) {assignments assignments' : List Assignment}
      {nested nested' : List μ} : AssignmentsAkin assignments assignments' →
      List.Forall₂ R nested nested' →
      NewNode.Akin R ⟨assignments, nested, validations⟩ ⟨assignments', nested', validations⟩

inductive Mutation.Akin : Mutation → Mutation → Prop
  | create (link : Link) {node node' : NewNode Mutation} {edge edge' : List Assignment} :
      NewNode.Akin Mutation.Akin node node' → AssignmentsAkin edge edge' →
      Mutation.Akin (.create link node edge) (.create link node' edge')
  | connect (link : Link) (validations : List Condition) {filter filter' : Option Condition}
      {edge edge' : List Assignment} : FilterAkin filter filter' → AssignmentsAkin edge edge' →
      Mutation.Akin (.connect link filter edge validations)
        (.connect link filter' edge' validations)
  | disconnect (link : Link) (validations : List Condition) {filter filter' : Option Condition} :
      FilterAkin filter filter' →
      Mutation.Akin (.disconnect link filter validations) (.disconnect link filter' validations)
  | update (link : Link) (before after : List Condition) {filter filter' : Option Condition}
      {node node' edge edge' : List Assignment} : FilterAkin filter filter' →
      AssignmentsAkin node node' → AssignmentsAkin edge edge' →
      Mutation.Akin (.update link filter before node edge after)
        (.update link filter' before node' edge' after)
  | delete (link : Link) (before : List Condition) {filter filter' : Option Condition}
      {nested nested' : List Mutation} : FilterAkin filter filter' →
      List.Forall₂ Mutation.Akin nested nested' →
      Mutation.Akin (.delete link filter before nested) (.delete link filter' before nested')

inductive Create.Akin : Create → Create → Prop
  | intro (entity : Entity) {nodes nodes' : List (NewNode Mutation)} {fields fields' : List Field} :
      List.Forall₂ (NewNode.Akin Mutation.Akin) nodes nodes' →
      List.Forall₂ Field.Akin fields fields' →
      Create.Akin ⟨entity, nodes, fields⟩ ⟨entity, nodes', fields'⟩

inductive Update.Akin : Update → Update → Prop
  | intro (entity : Entity) (before after : List Condition) {filter filter' : Option Condition}
      {assignments assignments' : List Assignment} {nested nested' : List Mutation}
      {fields fields' : List Field} : FilterAkin filter filter' →
      AssignmentsAkin assignments assignments' → List.Forall₂ Mutation.Akin nested nested' →
      List.Forall₂ Field.Akin fields fields' →
      Update.Akin ⟨entity, filter, before, assignments, nested, after, fields⟩
        ⟨entity, filter', before, assignments', nested', after, fields'⟩

inductive Delete.Akin : Delete → Delete → Prop
  | intro (entity : Entity) (before : List Condition) {filter filter' : Option Condition}
      {nested nested' : List Mutation} : FilterAkin filter filter' →
      List.Forall₂ Mutation.Akin nested nested' →
      Delete.Akin ⟨entity, filter, before, nested⟩ ⟨entity, filter', before, nested'⟩

inductive Operation.Akin : Operation → Operation → Prop
  | lookup {l l' : Lookup Field} : Lookup.Akin Field.Akin l l' →
      Operation.Akin (.lookup l) (.lookup l')
  | aggregate {a a' : Aggregate} : a.Akin a' → Operation.Akin (.aggregate a) (.aggregate a')
  | create {c c' : Create} : c.Akin c' → Operation.Akin (.create c) (.create c')
  | update {u u' : Update} : u.Akin u' → Operation.Akin (.update u) (.update u')
  | delete {d d' : Delete} : d.Akin d' → Operation.Akin (.delete d) (.delete d')

section Conditions

-- The mutual recursions follow those of the outlines.
mutual
theorem Condition.outline_akin {R : Doc → Doc → Prop} (c c' : Condition)
    (h : Condition.Akin R c c') : c'.outline = c.outline := by
  match c with
  | .all items =>
    cases h with
    | all hitems => simp only [Condition.outline, Condition.outlines_akin items _ hitems]
  | .any items =>
    cases h with
    | any hitems => simp only [Condition.outline, Condition.outlines_akin items _ hitems]
  | .not inner =>
    cases h with
    | not hinner => simp only [Condition.outline, inner.outline_akin _ hinner]
  | .related r q targets isComposite edge =>
    cases h with
    | related _ _ _ _ htargets hedge =>
      simp only [Condition.outline, Condition.targetOutlines_akin targets _ htargets,
        Condition.optionOutline_akin edge _ hedge]
  | .compare _ _ _ _ | .nullness _ _ | .labels _ | .aggregation _ | .authenticated =>
    cases h
    rfl
theorem Condition.outlines_akin {R : Doc → Doc → Prop} (cs cs' : List Condition)
    (h : Condition.EachAkin R cs cs') : Condition.outlines cs' = Condition.outlines cs := by
  match cs with
  | [] =>
    cases h
    rfl
  | c :: rest =>
    cases h with
    | cons hc hrest =>
      simp only [Condition.outlines, c.outline_akin _ hc, Condition.outlines_akin rest _ hrest]
theorem Condition.targetOutlines_akin {R : Doc → Doc → Prop}
    (targets targets' : List (Entity × Option Condition))
    (h : Condition.TargetsAkin R targets targets') :
    Condition.targetOutlines targets' = Condition.targetOutlines targets := by
  match targets with
  | [] =>
    cases h
    rfl
  | (e, filter) :: rest =>
    cases h with
    | cons _ hfilter hrest =>
      simp only [Condition.targetOutlines, Condition.optionOutline_akin filter _ hfilter,
        Condition.targetOutlines_akin rest _ hrest]
theorem Condition.optionOutline_akin {R : Doc → Doc → Prop} (c c' : Option Condition)
    (h : Condition.OptionAkin R c c') :
    Condition.optionOutline c' = Condition.optionOutline c := by
  match c with
  | none =>
    cases h
    rfl
  | some c =>
    cases h with
    | some hc => simp only [Condition.optionOutline, c.outline_akin _ hc]
end

theorem filterOutline_akin {filter filter' : Option Condition} (h : FilterAkin filter filter') :
    Condition.optionOutline filter' = Condition.optionOutline filter := by
  obtain ⟨R, _, hfilter⟩ := h
  exact Condition.optionOutline_akin filter filter' hfilter

end Conditions

section Fields

theorem Aggregate.outline_akin {a a' : Aggregate} (h : a.Akin a') : a'.outline = a.outline := by
  obtain ⟨items, entity, relationship, validations, hfilter⟩ := h
  simp only [Aggregate.outline, filterOutline_akin hfilter]

mutual
theorem Field.outline_akin (f f' : Field) (h : f.Akin f') : f'.outline = f.outline := by
  match f with
  | .stored _ _ | .computed _ _ | .typename _ _ =>
    cases h
    rfl
  | .lookup key l =>
    cases h with
    | lookup _ hl => simp only [Field.outline, Field.lookupOutline_akin l _ hl]
  | .aggregate key a =>
    cases h with
    | aggregate _ ha => simp only [Field.outline, Aggregate.outline_akin ha]
termination_by structural f
theorem Field.outlines_akin (fields fields' : List Field)
    (h : List.Forall₂ Field.Akin fields fields') :
    Field.outlines fields' = Field.outlines fields := by
  match fields with
  | [] =>
    cases h
    rfl
  | f :: rest =>
    cases h with
    | cons hf hrest =>
      simp only [Field.outlines, f.outline_akin _ hf, Field.outlines_akin rest _ hrest]
termination_by structural fields
theorem Field.lookupOutline_akin (l l' : Lookup Field) (h : Lookup.Akin Field.Akin l l') :
    Field.lookupOutline l' = Field.lookupOutline l := by
  match l with
  | .read ⟨scope, fields, sort, page⟩ =>
    cases h with
    | read hread =>
      have houtlines := Field.readOutlines_akin ⟨scope, fields, sort, page⟩ _ hread
      obtain ⟨_, _, ⟨entity, relationship, validations, hfilter⟩, hfields⟩ := hread
      simp only [Field.lookupOutline, houtlines]
  | .connection ⟨scope, sort, page, items⟩ =>
    cases h with
    | connection hconnection =>
      obtain ⟨_, _, ⟨entity, relationship, validations, hfilter⟩, hitems⟩ := hconnection
      simp only [Field.lookupOutline, filterOutline_akin hfilter,
        Field.itemOutlines_akin items _ hitems]
  | .composite ⟨composite, relationship, branches, sort, page⟩ =>
    cases h with
    | composite hcomposite =>
      obtain ⟨_, _, _, _, hbranches⟩ := hcomposite
      simp only [Field.lookupOutline, Field.branchOutlines_akin branches _ hbranches]
  | .compositeConnection ⟨composite, relationship, branches, sort, page, items⟩ =>
    cases h with
    | compositeConnection hcomposite =>
      obtain ⟨_, _, _, _, hbranches, hitems⟩ := hcomposite
      simp only [Field.lookupOutline, Field.connectionBranchOutlines_akin branches _ hbranches,
        Field.itemOutlines_akin items _ hitems]
termination_by structural l
theorem Field.readOutlines_akin (r r' : Read Field) (h : Read.Akin Field.Akin r r') :
    Field.readOutlines r' = Field.readOutlines r := by
  match r with
  | ⟨scope, fields, sort, page⟩ =>
    obtain ⟨_, _, ⟨entity, relationship, validations, hfilter⟩, hfields⟩ := h
    simp only [Field.readOutlines, filterOutline_akin hfilter,
      Field.outlines_akin fields _ hfields]
termination_by structural r
theorem Field.branchOutlines_akin (branches branches' : List (Read Field))
    (h : List.Forall₂ (Read.Akin Field.Akin) branches branches') :
    Field.branchOutlines branches' = Field.branchOutlines branches := by
  match branches with
  | [] =>
    cases h
    rfl
  | r :: rest =>
    cases h with
    | cons hr hrest =>
      simp only [Field.branchOutlines, Field.readOutlines_akin r _ hr,
        Field.branchOutlines_akin rest _ hrest]
termination_by structural branches
theorem Field.connectionBranchOutlines_akin (branches branches' : List (ConnectionBranch Field))
    (h : List.Forall₂ (ConnectionBranch.Akin Field.Akin) branches branches') :
    Field.connectionBranchOutlines branches' = Field.connectionBranchOutlines branches := by
  match branches with
  | [] =>
    cases h
    rfl
  | ⟨read, edgeFields⟩ :: rest =>
    cases h with
    | cons hbranch hrest =>
      obtain ⟨_, hread⟩ := hbranch
      simp only [Field.connectionBranchOutlines, Field.readOutlines_akin read _ hread,
        Field.connectionBranchOutlines_akin rest _ hrest]
termination_by structural branches
theorem Field.nodeOutlines_akin (node node' : Option (String × List Field))
    (h : NodeAkin Field.Akin node node') :
    Field.nodeOutlines node' = Field.nodeOutlines node := by
  match node with
  | none =>
    cases h
    rfl
  | some (key, fields) =>
    cases h with
    | some _ hfields => simp only [Field.nodeOutlines, Field.outlines_akin fields _ hfields]
termination_by structural node
theorem Field.itemOutlines_akin (items items' : List (ConnectionItem Field))
    (h : List.Forall₂ (ConnectionItem.Akin Field.Akin) items items') :
    Field.itemOutlines items' = Field.itemOutlines items := by
  match items with
  | [] =>
    cases h
    rfl
  | .edges key node properties typeName :: rest =>
    cases h with
    | cons hitem hrest =>
      cases hitem with
      | edges _ _ _ hnode =>
        simp only [Field.itemOutlines, Field.nodeOutlines_akin node _ hnode,
          Field.itemOutlines_akin rest _ hrest]
  | .aggregate _ _ :: rest | .totalCount _ :: rest | .pageInfo _ _ :: rest
  | .typename _ _ :: rest =>
    cases h with
    | cons hitem hrest =>
      cases hitem
      simp only [Field.itemOutlines, Field.itemOutlines_akin rest _ hrest]
termination_by structural items
end

end Fields

section Changes

mutual
theorem Mutation.outline_akin (m m' : Mutation) (h : m.Akin m') : m'.outline = m.outline := by
  match m with
  | .create link ⟨assignments, nested, validations⟩ edge =>
    cases h with
    | create _ hnode _ =>
      obtain ⟨_, _, hnested⟩ := hnode
      simp only [Mutation.outline, Mutation.outlines_akin nested _ hnested]
  | .connect link filter edge validations =>
    cases h with
    | connect _ _ hfilter _ => simp only [Mutation.outline, filterOutline_akin hfilter]
  | .disconnect link filter validations =>
    cases h with
    | disconnect _ _ hfilter => simp only [Mutation.outline, filterOutline_akin hfilter]
  | .update link filter before node edge after =>
    cases h with
    | update _ _ _ hfilter _ _ => simp only [Mutation.outline, filterOutline_akin hfilter]
  | .delete link filter before nested =>
    cases h with
    | delete _ _ hfilter hnested =>
      simp only [Mutation.outline, filterOutline_akin hfilter,
        Mutation.outlines_akin nested _ hnested]
termination_by structural m
theorem Mutation.outlines_akin (nested nested' : List Mutation)
    (h : List.Forall₂ Mutation.Akin nested nested') :
    Mutation.outlines nested' = Mutation.outlines nested := by
  match nested with
  | [] =>
    cases h
    rfl
  | m :: rest =>
    cases h with
    | cons hm hrest =>
      simp only [Mutation.outlines, m.outline_akin _ hm, Mutation.outlines_akin rest _ hrest]
termination_by structural nested
end

theorem newNodeOutlines_akin {nodes nodes' : List (NewNode Mutation)}
    (h : List.Forall₂ (NewNode.Akin Mutation.Akin) nodes nodes') :
    nodes'.flatMap NewNode.outlines = nodes.flatMap NewNode.outlines := by
  induction h with
  | nil => rfl
  | cons hn _ ih =>
    obtain ⟨validations, _, hnested⟩ := hn
    simp only [List.flatMap_cons, NewNode.outlines, Mutation.outlines_akin _ _ hnested, ih]

theorem Operation.outline_akin {o o' : Operation} (h : o.Akin o') : o'.outline = o.outline := by
  cases h with
  | lookup hl => exact Field.lookupOutline_akin _ _ hl
  | aggregate ha => exact Aggregate.outline_akin ha
  | create hc =>
    obtain ⟨entity, hnodes, hfields⟩ := hc
    simp only [Operation.outline, Field.outlines_akin _ _ hfields, newNodeOutlines_akin hnodes]
  | update hu =>
    obtain ⟨entity, before, after, hfilter, _, hnested, hfields⟩ := hu
    simp only [Operation.outline, filterOutline_akin hfilter, Mutation.outlines_akin _ _ hnested,
      Field.outlines_akin _ _ hfields]
  | delete hd =>
    obtain ⟨entity, before, hfilter, hnested⟩ := hd
    simp only [Operation.outline, filterOutline_akin hfilter, Mutation.outlines_akin _ _ hnested]

theorem Operation.depth_akin {o o' : Operation} (h : o.Akin o') : o'.depth = o.depth :=
  congrArg Outline.depth (outline_akin h)

end Changes

end GraphSelection.Plan
