import GraphSelection.Plan.Mutation

/-!
The parts of a plan: its selected fields, lookups, aggregates and changes at every depth. What is
said of each part by itself is said of the whole plan, however deep it nests. A part fits into its
place when it speaks only of what is known there: an edge only where a relationship leads to the
node, a computed attribute only when it is good. A filter demands its conjuncts, with conjunctions
inside conjunctions taken apart at every depth; a conjunction of filters demands what each of them
demands, in order, so nothing that one of them demands is lost or weakened by the others.
-/
namespace GraphSelection.Plan

inductive Part where
  | field (f : Field)
  | lookup (l : Lookup Field)
  | aggregate (a : Aggregate)
  | newNode (entity : Entity) (n : NewNode Mutation)
  | change (m : Mutation)
  | update (u : Update)
  | delete (d : Delete)

mutual
def Field.parts : Field → List Part
  | .stored key a => [.field (.stored key a)]
  | .computed key a => [.field (.computed key a)]
  | .typename key typeName => [.field (.typename key typeName)]
  | .lookup key l => .field (.lookup key l) :: Field.lookupParts l
  | .aggregate key a => [.field (.aggregate key a), .aggregate a]
def Field.partsOf : List Field → List Part
  | [] => []
  | f :: rest => f.parts ++ Field.partsOf rest
def Field.lookupParts : Lookup Field → List Part
  | .read ⟨scope, fields, sort, page⟩ =>
      .lookup (.read ⟨scope, fields, sort, page⟩) :: Field.partsOf fields
  | .connection ⟨scope, sort, page, items⟩ =>
      .lookup (.connection ⟨scope, sort, page, items⟩) :: Field.itemParts items
  | .composite ⟨composite, relationship, branches, sort, page⟩ =>
      .lookup (.composite ⟨composite, relationship, branches, sort, page⟩) ::
        Field.branchParts branches
  | .compositeConnection ⟨composite, relationship, branches, sort, page, items⟩ =>
      .lookup (.compositeConnection ⟨composite, relationship, branches, sort, page, items⟩) ::
        Field.connectionBranchParts branches
def Field.branchParts : List (Read Field) → List Part
  | [] => []
  | ⟨_, fields, _, _⟩ :: rest => Field.partsOf fields ++ Field.branchParts rest
def Field.connectionBranchParts : List (ConnectionBranch Field) → List Part
  | [] => []
  | ⟨⟨_, fields, _, _⟩, _⟩ :: rest => Field.partsOf fields ++ Field.connectionBranchParts rest
def Field.nodeParts : Option (String × List Field) → List Part
  | none => []
  | some (_, fields) => Field.partsOf fields
/-- The nodes of the edges; the other entries of a connection have no parts of their own. -/
def Field.itemParts : List (ConnectionItem Field) → List Part
  | [] => []
  | .edges _ node _ _ :: rest => Field.nodeParts node ++ Field.itemParts rest
  | .aggregate _ _ :: rest => Field.itemParts rest
  | .totalCount _ :: rest => Field.itemParts rest
  | .pageInfo _ _ :: rest => Field.itemParts rest
  | .typename _ _ :: rest => Field.itemParts rest
end

theorem Field.mem_partsOf {fields : List Field} {p : Part} :
    p ∈ Field.partsOf fields ↔ ∃ f ∈ fields, p ∈ f.parts := by
  induction fields with
  | nil => simp [Field.partsOf]
  | cons f rest ih => simp [Field.partsOf, ih]

theorem Field.mem_branchParts {branches : List (Read Field)} {p : Part} :
    p ∈ Field.branchParts branches ↔ ∃ b ∈ branches, p ∈ Field.partsOf b.fields := by
  induction branches with
  | nil => simp [Field.branchParts]
  | cons b rest ih => simp [Field.branchParts, ih]

theorem Field.mem_connectionBranchParts {branches : List (ConnectionBranch Field)} {p : Part} :
    p ∈ Field.connectionBranchParts branches ↔ ∃ b ∈ branches, p ∈ Field.partsOf b.read.fields := by
  induction branches with
  | nil => simp [Field.connectionBranchParts]
  | cons b rest ih => simp [Field.connectionBranchParts, ih]

/-- The parts of a connection stand under the nodes of its edges. -/
theorem Field.mem_itemParts {items : List (ConnectionItem Field)} {p : Part} :
    p ∈ Field.itemParts items ↔
      ∃ key nodeKey fields properties typename,
        .edges key (some (nodeKey, fields)) properties typename ∈ items ∧
          p ∈ Field.partsOf fields := by
  induction items with
  | nil => simp [Field.itemParts]
  | cons item rest ih =>
    cases item with
    | edges key node properties typename =>
      cases node with
      | none => simp [Field.itemParts, Field.nodeParts, ih]
      | some pair =>
        obtain ⟨nodeKey, fields⟩ := pair
        simp only [Field.itemParts, Field.nodeParts, List.mem_append, ih, List.mem_cons]
        constructor
        · rintro (h | ⟨key', nodeKey', fields', properties', typename', hmem, h⟩)
          · exact ⟨key, nodeKey, fields, properties, typename, .inl rfl, h⟩
          · exact ⟨key', nodeKey', fields', properties', typename', .inr hmem, h⟩
        · rintro ⟨key', nodeKey', fields', properties', typename', heq | hmem, h⟩
          · cases heq
            exact .inl h
          · exact .inr ⟨key', nodeKey', fields', properties', typename', hmem, h⟩
    | aggregate key items => simp [Field.itemParts, ih]
    | totalCount key => simp [Field.itemParts, ih]
    | pageInfo key fields => simp [Field.itemParts, ih]
    | typename key typeName => simp [Field.itemParts, ih]

mutual
def Mutation.parts : Mutation → List Part
  | .create link ⟨assignments, nested, validations⟩ edge =>
      .change (.create link ⟨assignments, nested, validations⟩ edge) :: Mutation.partsOf nested
  | .connect link filter edge validations => [.change (.connect link filter edge validations)]
  | .disconnect link filter validations => [.change (.disconnect link filter validations)]
  | .update link filter before node edge after =>
      [.change (.update link filter before node edge after)]
  | .delete link filter before nested =>
      .change (.delete link filter before nested) :: Mutation.partsOf nested
def Mutation.partsOf : List Mutation → List Part
  | [] => []
  | m :: rest => m.parts ++ Mutation.partsOf rest
end

theorem Mutation.mem_partsOf {ms : List Mutation} {p : Part} :
    p ∈ Mutation.partsOf ms ↔ ∃ m ∈ ms, p ∈ m.parts := by
  induction ms with
  | nil => simp [Mutation.partsOf]
  | cons m rest ih => simp [Mutation.partsOf, ih]

mutual
/-- A change has no parts but changes. -/
theorem Mutation.change_of_mem_parts : (m : Mutation) → ∀ p ∈ m.parts, ∃ m', p = .change m'
  | .create _ ⟨_, nested, _⟩ _ => by
    intro p hp
    rcases List.mem_cons.mp hp with rfl | hp
    · exact ⟨_, rfl⟩
    · exact Mutation.change_of_mem_partsOf nested p hp
  | .connect _ _ _ _ => by simp [Mutation.parts]
  | .disconnect _ _ _ => by simp [Mutation.parts]
  | .update _ _ _ _ _ _ => by simp [Mutation.parts]
  | .delete _ _ _ nested => by
    intro p hp
    rcases List.mem_cons.mp hp with rfl | hp
    · exact ⟨_, rfl⟩
    · exact Mutation.change_of_mem_partsOf nested p hp
theorem Mutation.change_of_mem_partsOf : (ms : List Mutation) → ∀ p ∈ Mutation.partsOf ms,
    ∃ m', p = .change m'
  | [] => by simp [Mutation.partsOf]
  | m :: rest => by
    intro p hp
    rcases List.mem_append.mp hp with hp | hp
    · exact Mutation.change_of_mem_parts m p hp
    · exact Mutation.change_of_mem_partsOf rest p hp
end

def newNodeParts (e : Entity) (n : NewNode Mutation) : List Part :=
  .newNode e n :: Mutation.partsOf n.nested

def Operation.parts : Operation → List Part
  | .lookup l => Field.lookupParts l
  | .aggregate a => [.aggregate a]
  | .create c => c.nodes.flatMap (newNodeParts c.entity) ++ Field.partsOf c.fields
  | .update u => .update u :: Mutation.partsOf u.nested ++ Field.partsOf u.fields
  | .delete d => .delete d :: Mutation.partsOf d.nested

def Subject.Fits (good : Attribute → Prop) (edges : Bool) : Subject → Prop
  | .node _ => True
  | .edge _ => edges = true
  | .computed a => good a
  | .claim _ _ => True

/-- The condition speaks of edges only where there are some, and of good computed attributes.
Inside a condition on related nodes there is an edge. -/
inductive Condition.Fits (good : Attribute → Prop) : Bool → Condition → Prop
  | all {edges : Bool} {items : List Condition} (h : ∀ c ∈ items, Condition.Fits good edges c) :
      Condition.Fits good edges (.all items)
  | any {edges : Bool} {items : List Condition} (h : ∀ c ∈ items, Condition.Fits good edges c) :
      Condition.Fits good edges (.any items)
  | not {edges : Bool} {c : Condition} (h : Condition.Fits good edges c) :
      Condition.Fits good edges (.not c)
  | compare {edges : Bool} {subject : Subject} (op : Comparison) (operand : Operand)
      (caseInsensitive : Bool) (h : subject.Fits good edges) :
      Condition.Fits good edges (.compare subject op operand caseInsensitive)
  | nullness {edges : Bool} {subject : Subject} (isNull : Bool) (h : subject.Fits good edges) :
      Condition.Fits good edges (.nullness subject isNull)
  | labels {edges : Bool} (labels : List String) : Condition.Fits good edges (.labels labels)
  | related {edges : Bool} (r : Relationship) (q : Quantifier)
      {targets : List (Entity × Option Condition)} (isComposite : Bool) {edge : Option Condition}
      (htargets : ∀ p ∈ targets, ∀ c ∈ p.2, Condition.Fits good true c)
      (hedge : ∀ c ∈ edge, Condition.Fits good true c) :
      Condition.Fits good edges (.related r q targets isComposite edge)
  | aggregation {edges : Bool} (a : Aggregation) : Condition.Fits good edges (.aggregation a)
  | authenticated {edges : Bool} : Condition.Fits good edges .authenticated

/-- A condition that fits fits wherever more is good and more is known. -/
theorem Condition.Fits.mono {good good' : Attribute → Prop} (hgood : ∀ a, good a → good' a)
    {edges : Bool} {c : Condition} (h : c.Fits good edges) :
    ∀ {edges' : Bool}, (edges = true → edges' = true) → c.Fits good' edges' := by
  have hsubject : ∀ {subject : Subject} {edges edges' : Bool}, (edges = true → edges' = true) →
      subject.Fits good edges → subject.Fits good' edges' := by
    intro subject edges edges' hedges hfits
    cases subject with
    | node a => trivial
    | edge a => exact hedges hfits
    | computed a => exact hgood a hfits
    | claim path value => trivial
  induction h with
  | all _ ih => exact fun hedges => .all fun c hc => ih c hc hedges
  | any _ ih => exact fun hedges => .any fun c hc => ih c hc hedges
  | not _ ih => exact fun hedges => .not (ih hedges)
  | compare op operand caseInsensitive h =>
    exact fun hedges => .compare op operand caseInsensitive (hsubject hedges h)
  | nullness isNull h => exact fun hedges => .nullness isNull (hsubject hedges h)
  | labels names => exact fun _ => .labels names
  | related r q isComposite _ _ ihtargets ihedge =>
    exact fun _ => .related r q isComposite (fun p hp c hc => ihtargets p hp c hc fun h => h)
      (fun c hc => ihedge c hc fun h => h)
  | aggregation a => exact fun _ => .aggregation a
  | authenticated => exact fun _ => .authenticated

theorem Condition.Fits.conjuncts {good : Attribute → Prop} {edges : Bool} {c : Condition}
    (h : c.Fits good edges) : ∀ c' ∈ c.conjuncts, c'.Fits good edges := by
  intro c' hc'
  unfold Condition.conjuncts at hc'
  split at hc'
  · cases h with
    | all h => exact h c' hc'
  · rw [List.mem_singleton] at hc'
    exact hc' ▸ h

theorem fits_allOf {good : Attribute → Prop} {edges : Bool} {cs : List Condition}
    (h : ∀ c ∈ cs, c.Fits good edges) : ∀ c ∈ Condition.allOf cs, c.Fits good edges := by
  have hflat : ∀ c ∈ cs.flatMap Condition.conjuncts, c.Fits good edges := by
    intro c hc
    obtain ⟨c', hc', hmem⟩ := List.mem_flatMap.mp hc
    exact (h c' hc').conjuncts c hmem
  intro c hc
  unfold Condition.allOf at hc
  split at hc
  · simp at hc
  · rename_i c' heq
    rw [Option.mem_some_iff] at hc
    exact hflat c (by rw [heq, ← hc]; exact List.mem_cons_self)
  · rw [Option.mem_some_iff] at hc
    exact hc ▸ .all hflat

def SortTarget.Fits (good : Attribute → Prop) (edges : Bool) : SortTarget → Prop
  | .node _ => True
  | .edge _ => edges = true
  | .computed a => good a

/-- The filter and the validations of a scope. Validations never speak of an edge. -/
structure Scope.Fits (good : Attribute → Prop) (edges : Bool) (scope : Scope) : Prop where
  filter : ∀ c ∈ scope.filter, c.Fits good edges
  validations : ∀ c ∈ scope.validations, c.Fits good false

/-- A scope with the order in which it is read. -/
structure Read.Fits {φ : Type} (good : Attribute → Prop) (edges : Bool) (r : Read φ) : Prop where
  scope : r.scope.Fits good edges
  sort : ∀ key ∈ r.sort, key.target.Fits good edges

/-- The relationship over which a lookup reaches its nodes. -/
def Lookup.relationship? : Lookup Field → Option Relationship
  | .read r => r.scope.relationship
  | .connection c => c.scope.relationship
  | .composite c => c.relationship
  | .compositeConnection c => c.relationship

/-- A list forgets the edges; a connection keeps them. The branches of a composite have its
relationship and as many sort keys as it has itself. -/
def Lookup.Fits (good : Attribute → Prop) : Lookup Field → Prop
  | .read r => r.Fits good false
  | .connection c =>
      c.scope.Fits good c.scope.relationship.isSome ∧
        ∀ key ∈ c.sort, key.target.Fits good c.scope.relationship.isSome
  | .composite c =>
      ∀ b ∈ c.branches, b.Fits good false ∧ b.scope.relationship = c.relationship ∧
        b.sort.length = c.sort.length
  | .compositeConnection c =>
      ∀ b ∈ c.branches, b.read.Fits good c.relationship.isSome ∧
        b.read.scope.relationship = c.relationship

def FitsAll (good : Attribute → Prop) (validations : List Condition) : Prop :=
  ∀ c ∈ validations, c.Fits good false

/-- New edges cannot be asked about before they are there; others can. -/
def Mutation.Fits (good : Attribute → Prop) : Mutation → Prop
  | .create _ n _ => FitsAll good n.validations
  | .connect _ filter _ validations =>
      (∀ c ∈ filter, c.Fits good false) ∧ FitsAll good validations
  | .disconnect _ filter validations =>
      (∀ c ∈ filter, c.Fits good true) ∧ FitsAll good validations
  | .update _ filter before _ _ after =>
      (∀ c ∈ filter, c.Fits good true) ∧ FitsAll good before ∧ FitsAll good after
  | .delete _ filter before _ => (∀ c ∈ filter, c.Fits good true) ∧ FitsAll good before

def Field.Fits (good : Attribute → Prop) : Field → Prop
  | .stored _ _ => True
  | .computed _ a => good a
  | .typename _ _ => True
  | .lookup _ l => l.relationship?.isSome = true
  | .aggregate _ a => a.scope.relationship.isSome = true

/-- A part by itself, without the parts inside it. -/
def Part.Fits (good : Attribute → Prop) : Part → Prop
  | .field f => f.Fits good
  | .lookup l => l.Fits good
  | .aggregate a => a.scope.Fits good false
  | .newNode _ n => FitsAll good n.validations
  | .change m => m.Fits good
  | .update u =>
      (∀ c ∈ u.filter, c.Fits good false) ∧ FitsAll good u.before ∧ FitsAll good u.after
  | .delete d => (∀ c ∈ d.filter, c.Fits good false) ∧ FitsAll good d.before

section Weaken

variable {good good' : Attribute → Prop} {edges : Bool}

theorem SortTarget.Fits.mono (hgood : ∀ a, good a → good' a) {target : SortTarget}
    (h : target.Fits good edges) : target.Fits good' edges := by
  cases target with
  | node a => trivial
  | edge a => exact h
  | computed a => exact hgood a h

theorem filter_mono (hgood : ∀ a, good a → good' a) {filter : Option Condition}
    (h : ∀ c ∈ filter, c.Fits good edges) : ∀ c ∈ filter, c.Fits good' edges :=
  fun c hc => (h c hc).mono hgood fun h => h

theorem FitsAll.mono (hgood : ∀ a, good a → good' a) {validations : List Condition}
    (h : FitsAll good validations) : FitsAll good' validations :=
  fun c hc => (h c hc).mono hgood fun h => h

theorem Scope.Fits.mono (hgood : ∀ a, good a → good' a) {scope : Scope}
    (h : scope.Fits good edges) : scope.Fits good' edges where
  filter := filter_mono hgood h.filter
  validations := FitsAll.mono hgood h.validations

theorem Read.Fits.mono {φ : Type} (hgood : ∀ a, good a → good' a) {r : Read φ}
    (h : r.Fits good edges) : r.Fits good' edges where
  scope := h.scope.mono hgood
  sort := fun key hkey => (h.sort key hkey).mono hgood

theorem lookup_fits_mono (hgood : ∀ a, good a → good' a) {l : Lookup Field}
    (h : l.Fits good) : l.Fits good' := by
  cases l with
  | read r => exact Read.Fits.mono hgood h
  | connection c => exact ⟨h.1.mono hgood, fun key hkey => (h.2 key hkey).mono hgood⟩
  | composite c => exact fun b hb => ⟨(h b hb).1.mono hgood, (h b hb).2⟩
  | compositeConnection c => exact fun b hb => ⟨(h b hb).1.mono hgood, (h b hb).2⟩

theorem change_fits_mono (hgood : ∀ a, good a → good' a) {m : Mutation} (h : m.Fits good) :
    m.Fits good' := by
  cases m with
  | create link n edge => exact FitsAll.mono hgood h
  | connect link filter edge validations => exact ⟨filter_mono hgood h.1, h.2.mono hgood⟩
  | disconnect link filter validations => exact ⟨filter_mono hgood h.1, h.2.mono hgood⟩
  | update link filter before node edge after =>
    exact ⟨filter_mono hgood h.1, h.2.1.mono hgood, h.2.2.mono hgood⟩
  | delete link filter before nested => exact ⟨filter_mono hgood h.1, h.2.mono hgood⟩

/-- A part that fits still fits when more attributes are good. -/
theorem Part.Fits.mono (hgood : ∀ a, good a → good' a) {p : Part} (h : p.Fits good) :
    p.Fits good' := by
  cases p with
  | field f =>
    cases f with
    | stored key a => trivial
    | computed key a => exact hgood a h
    | typename key typeName => trivial
    | lookup key l => exact h
    | aggregate key a => exact h
  | lookup l => exact lookup_fits_mono hgood h
  | aggregate a => exact Scope.Fits.mono hgood h
  | newNode e n => exact FitsAll.mono hgood h
  | change m => exact change_fits_mono hgood h
  | update u => exact ⟨filter_mono hgood h.1, h.2.1.mono hgood, h.2.2.mono hgood⟩
  | delete d => exact ⟨filter_mono hgood h.1, h.2.mono hgood⟩

end Weaken

/-- A composite that is read as a list keeps a constituent. -/
def Part.KeepsBranch : Part → Prop
  | .lookup (.composite c) => c.branches ≠ []
  | _ => True

instance : DecidablePred Part.KeepsBranch
  | .lookup (.composite c) => inferInstanceAs (Decidable (c.branches ≠ []))
  | .lookup (.read _) => .isTrue trivial
  | .lookup (.connection _) => .isTrue trivial
  | .lookup (.compositeConnection _) => .isTrue trivial
  | .field _ => .isTrue trivial
  | .aggregate _ => .isTrue trivial
  | .newNode _ _ => .isTrue trivial
  | .change _ => .isTrue trivial
  | .update _ => .isTrue trivial
  | .delete _ => .isTrue trivial

def Measure.needsEdge : Measure → Bool
  | .countEdges => true
  | .edge _ _ => true
  | _ => false

mutual
def AggregateItem.needsEdge : AggregateItem → Bool
  | .measure _ m => m.needsEdge
  | .group _ items => AggregateItem.anyNeedsEdge items
  | .typename _ _ => false
def AggregateItem.anyNeedsEdge : List AggregateItem → Bool
  | [] => false
  | item :: rest => item.needsEdge || AggregateItem.anyNeedsEdge rest
end

theorem AggregateItem.anyNeedsEdge_eq_false {items : List AggregateItem} :
    AggregateItem.anyNeedsEdge items = false ↔ ∀ item ∈ items, item.needsEdge = false := by
  induction items with
  | nil => simp [AggregateItem.anyNeedsEdge]
  | cons item rest ih => simp [AggregateItem.anyNeedsEdge, ih]

namespace ConnectionItem

variable {φ : Type}

def needsEdge : ConnectionItem φ → Bool
  | .edges _ _ properties _ => properties.isSome
  | .aggregate _ items => AggregateItem.anyNeedsEdge items
  | _ => false

def isAggregate : ConnectionItem φ → Bool
  | .aggregate _ _ => true
  | _ => false

end ConnectionItem

/-- Edges are asked for only where a relationship leads, aggregates only of one entity. -/
def Part.Grounded : Part → Prop
  | .lookup (.connection c) =>
      c.scope.relationship = none → ∀ item ∈ c.items, item.needsEdge = false
  | .lookup (.compositeConnection c) => ∀ item ∈ c.items, item.isAggregate = false
  | .aggregate a => a.scope.relationship = none → AggregateItem.anyNeedsEdge a.items = false
  | _ => True

def GroundedFields (fields : List Field) : Prop := ∀ part ∈ Field.partsOf fields, part.Grounded

theorem groundedFields_of_forall {fields : List Field}
    (h : ∀ f ∈ fields, ∀ part ∈ f.parts, part.Grounded) : GroundedFields fields := by
  intro part hpart
  obtain ⟨f, hf, hmem⟩ := Field.mem_partsOf.mp hpart
  exact h f hf part hmem

/-- An entry of a connection, for a reader that gives edges or not, and aggregates or not. -/
structure ConnectionItem.Grounded (edges aggregates : Bool) (item : ConnectionItem Field) :
    Prop where
  edge : edges = false → item.needsEdge = false
  aggregate : aggregates = false → item.isAggregate = false
  node : ∀ key nodeKey fields properties typename,
    item = .edges key (some (nodeKey, fields)) properties typename → GroundedFields fields

theorem groundedItems {edges aggregates : Bool} {items : List (ConnectionItem Field)}
    (h : ∀ item ∈ items, item.Grounded edges aggregates) :
    ∀ part ∈ Field.itemParts items, part.Grounded := by
  intro part hpart
  obtain ⟨key, nodeKey, fields, properties, typename, hitem, hmem⟩ :=
    Field.mem_itemParts.mp hpart
  exact (h _ hitem).node key nodeKey fields properties typename rfl part hmem

theorem Mutation.allGrounded (ms : List Mutation) :
    ∀ part ∈ Mutation.partsOf ms, part.Grounded := by
  intro part hpart
  obtain ⟨m, rfl⟩ := Mutation.change_of_mem_partsOf ms part hpart
  trivial

/-- Nothing leads to the nodes that an operation starts from. -/
def Operation.StartsFree : Operation → Prop
  | .lookup l => l.relationship? = none
  | .aggregate a => a.scope.relationship = none
  | _ => True

structure Operation.Grounded (o : Operation) : Prop where
  parts : ∀ part ∈ o.parts, part.Grounded
  free : o.StartsFree

section Demands

mutual
/-- The conjuncts of a condition that are no conjunctions themselves. -/
def Condition.flat : Condition → List Condition
  | .all items => Condition.flatOf items
  | c => [c]
def Condition.flatOf : List Condition → List Condition
  | [] => []
  | c :: rest => c.flat ++ Condition.flatOf rest
end

/-- What a filter demands; no filter demands nothing. -/
def demands (filter : Option Condition) : List Condition := filter.toList.flatMap Condition.flat

theorem Condition.flatOf_eq (cs : List Condition) :
    Condition.flatOf cs = cs.flatMap Condition.flat := by
  induction cs with
  | nil => rfl
  | cons c rest ih => rw [Condition.flatOf, ih, List.flatMap_cons]

theorem Condition.flat_conjuncts (c : Condition) : c.conjuncts.flatMap Condition.flat = c.flat := by
  unfold Condition.conjuncts
  split
  · rw [Condition.flat, Condition.flatOf_eq]
  · simp

theorem demands_allOf (cs : List Condition) :
    demands (Condition.allOf cs) = cs.flatMap Condition.flat := by
  have hflat : (cs.flatMap Condition.conjuncts).flatMap Condition.flat =
      cs.flatMap Condition.flat := by
    rw [List.flatMap_assoc]
    simp only [Condition.flat_conjuncts]
  rw [← hflat]
  unfold Condition.allOf demands
  split
  · rename_i hnil
    rw [hnil]
    rfl
  · rename_i c hone
    rw [hone]
    rfl
  · rw [Option.toList_some, List.flatMap_cons, List.flatMap_nil, List.append_nil, Condition.flat,
      Condition.flatOf_eq]

theorem demands_some (c : Condition) : demands (some c) = c.flat := by
  simp [demands]

end Demands

end GraphSelection.Plan
