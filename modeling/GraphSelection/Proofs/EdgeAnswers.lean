import GraphSelection.Proofs.EdgeReadings
import GraphSelection.Proofs.Merged

/-!
Edges of a connection over a composite, as they are answered. In the program the branches end in
the maps of the edges, and each `edges` entry is a call of its own over the collected maps. So an
entry is answered with its own fields where nothing else is asked under their keys, and then it is
answered as if it were the only one.
-/
namespace GraphSelection.Stage

/-- An `edges` entry that shows one field of the nodes under the key `shown`. -/
def showing (key name : String) : Selection :=
  ((Selection.leaf "edges").withAlias key).select
    [(Selection.leaf "node").select [(Selection.leaf name).withAlias "shown"]]

/-- The title of the works and, under the same key in another entry, the name of their type. -/
def bothEdges : Request :=
  { operation := .connection
    entity := "Work"
    selection := [showing "edges" "title", showing "more" "__typename"] }

/-- The second entry alone. -/
def typeEdges : Request := { bothEdges with selection := [showing "more" "__typename"] }

end GraphSelection.Stage

namespace GraphSelection.Program

open Cypher Plan Resolve

/-- The key under which an item of a projection stands. -/
def itemKey : MapItem Expr → String
  | .own key => key
  | .entry key _ => key

/-- The item stands under the key of the field and is compiled from it, with its calls in the
clauses. -/
def ShowsField (ctx : Context) (clauses : List Clause) (f : Field) (item : MapItem Expr) : Prop :=
  itemKey item = f.key ∧
    ∃ s t calls, Field.item ctx f s = .ok ((calls, item), t) ∧ Holds calls clauses

/-- The body of a branch ends in the map of an edge, in which the node shows the fields of the
branch, and the relationship its properties. -/
def EndsInEdge (column : String) (b : ConnectionBranch Field) (body : List Clause) : Prop :=
  ∃ own before items properties keys,
    body = before ++
      [.give (.map (("node", .projection own.subject items) :: properties ++ keys)) column] ∧
    List.Forall₂ (ShowsField own before) b.read.fields items ∧
    (b.read.scope.relationship.isSome → ∃ edge, own.relationship = some edge ∧
      properties = [("properties", .projection edge (b.edgeFields.map (edgeItem edge)))])

/-- The `edges` entry is a call over the collected edges, which shows the node and the properties of
each under the keys of the entry. -/
def AnswersEntry (l : EdgeList) (calls : List Clause) (entries : List (String × Expr))
    (edges : Selection) : Prop :=
  ∃ edge result window typename, (edges.key, .var result) ∈ entries ∧
    .call [l.edges] (.unwind (.var l.edges) edge :: window ++
      [edgesResult
        (((lastNamed "node" edges.selection).map fun f =>
            (f.key, Expr.propertyOf edge "node")).toList ++
          ((lastNamed "properties" edges.selection).map fun f =>
            (f.key, Expr.propertyOf edge "properties")).toList)
        typename result]) ∈ calls

/-- The clauses of a connection over a composite: the edges of the branches, collected, and a call
for each `edges` entry of the selection. -/
def Connects (selection : List Selection) (c : CompositeConnection Field) (clauses : List Clause) :
    Prop :=
  ∃ union column bodies l calls entries result,
    clauses = union :: collectEdges (.var column) l.edges l.total ++ calls ++
      [.give (.map entries) result] ∧
    unionCall c.composite.name bodies column = .ok union ∧
    List.Forall₂ (EndsInEdge column) c.branches bodies ∧
    ∀ edges ∈ selection, edges.name = "edges" → AnswersEntry l calls entries edges

variable {ctx : Context} {s t : Supply}

theorem itemKey_storedItem (name key : String) (a : Attribute) :
    itemKey (storedItem name key a) = key := by
  unfold storedItem
  simp only
  split
  · rfl
  · rfl

theorem item_key {f : Field} {calls : List Clause} {item : MapItem Expr}
    (h : Field.item ctx f s = .ok ((calls, item), t)) : itemKey item = f.key := by
  cases f with
  | stored key a =>
    simp only [Field.item, pure_ok, Prod.mk.injEq] at h
    obtain ⟨⟨_, rfl⟩, _⟩ := h
    exact itemKey_storedItem ctx.subject key a
  | typename key typeName =>
    simp only [Field.item, pure_ok, Prod.mk.injEq] at h
    obtain ⟨⟨_, rfl⟩, _⟩ := h
    rfl
  | computed key a =>
    simp only [Field.item, bind_ok, pure_ok, Prod.mk.injEq] at h
    obtain ⟨_, _, _, _, _, _, ⟨_, rfl⟩, _⟩ := h
    rfl
  | lookup key l =>
    simp only [Field.item, bind_ok, pure_ok, Prod.mk.injEq] at h
    obtain ⟨_, _, _, ⟨_, rfl⟩, _⟩ := h
    rfl
  | aggregate key a =>
    simp only [Field.item, bind_ok, pure_ok, Prod.mk.injEq] at h
    obtain ⟨_, _, _, ⟨_, rfl⟩, _⟩ := h
    rfl

theorem ShowsField.mono {xs ys : List Clause} {f : Field} {item : MapItem Expr}
    (h : ShowsField ctx xs f item) (hsub : ∀ block, Holds block xs → Holds block ys) :
    ShowsField ctx ys f item := by
  obtain ⟨hkey, s, t, calls, hitem, hholds⟩ := h
  exact ⟨hkey, s, t, calls, hitem, hsub calls hholds⟩

/-- There is an item for each field. -/
theorem items_showFields {fields : List Field} {calls : List Clause} {items : List (MapItem Expr)}
    (h : Field.items ctx fields s = .ok ((calls, items), t)) :
    List.Forall₂ (ShowsField ctx calls) fields items := by
  induction fields generalizing s t calls items with
  | nil =>
    simp only [Field.items, pure_ok, Prod.mk.injEq] at h
    obtain ⟨⟨_, rfl⟩, _⟩ := h
    exact .nil
  | cons f rest ih =>
    simp only [Field.items, bind_ok, pure_ok, Prod.mk.injEq] at h
    obtain ⟨⟨first, item⟩, u, hitem, ⟨more, items⟩, v, hrest, ⟨rfl, rfl⟩, _⟩ := h
    have hfirst : ShowsField ctx (first ++ more) f item :=
      ⟨item_key hitem, s, u, first, hitem, (holds_self first).left more⟩
    have hmore : List.Forall₂ (ShowsField ctx (first ++ more)) rest items :=
      (ih hrest).imp fun g shown hg => hg.mono fun block hholds => hholds.right first
    exact .cons hfirst hmore

/-- What is matched over a relationship has a name for it. -/
theorem scopeMatch_relationship {scope : Scope} {clauses : List Clause}
    (h : scopeMatch ctx scope s = .ok (clauses, t)) (hrelated : scope.relationship.isSome) :
    ∃ edge, ctx.relationship = some edge := by
  simp only [scopeMatch, bind_ok, lift_ok] at h
  obtain ⟨pattern, _, ⟨hpattern, _⟩, _⟩ := h
  obtain ⟨r, hr⟩ := Option.isSome_iff_exists.mp hrelated
  simp only [scopePattern, hr, except_bind_ok, except_pure_ok] at hpattern
  obtain ⟨_, _, edge, hedge, _⟩ := hpattern
  unfold Context.edge at hedge
  split at hedge
  · cases hedge
  · rename_i name hname
    exact ⟨name, hname⟩

theorem connectionBranches_edges {column : String} {columns : List String} {isFirst : Bool}
    {branches : List (ConnectionBranch Field)} {bodies : List (List Clause)}
    (h : Field.connectionBranches ctx column columns isFirst branches s = .ok (bodies, t)) :
    List.Forall₂ (EndsInEdge column) branches bodies := by
  induction branches generalizing isFirst bodies s t with
  | nil =>
    simp only [Field.connectionBranches, pure_ok] at h
    obtain ⟨rfl, _⟩ := h
    exact .nil
  | cons b rest ih =>
    obtain ⟨⟨scope, fields, sort, page⟩, edgeFields⟩ := b
    simp only [Field.connectionBranches, bind_ok, lift_ok, pure_ok] at h
    obtain ⟨own, _, _, start, _, _, found, _, hfound, ⟨calls, items⟩, _, hitems, properties, _,
      ⟨hproperties, rfl⟩, ⟨keyCalls, keys⟩, _, _, more, _, hmore, rfl, _⟩ := h
    refine .cons ⟨own, start ++ found ++ calls ++ keyCalls, items, properties, keys, rfl, ?_, ?_⟩
      (ih hmore)
    · refine (items_showFields hitems).imp fun f item hshown => hshown.mono fun block hholds => ?_
      exact (hholds.right (start ++ found)).left keyCalls
    · intro hrelated
      obtain ⟨edge, hedge⟩ := scopeMatch_relationship hfound hrelated
      simp only [hedge, except_bind_ok, except_pure_ok, edgeProjection, Context.edge] at hproperties
      obtain ⟨_, ⟨_, heq, rfl⟩, rfl⟩ := hproperties
      cases heq
      exact ⟨edge, hedge, rfl⟩

/-- Each `edges` item is a call of its own over the collected edges. -/
theorem mergedEntries_calls {l : EdgeList} {composite : String} {sort : List SortKey}
    {columns : List String} {items : List (ConnectionItem Field)} {calls : List Clause}
    {entries : List (String × Expr)}
    (h : mergedEntries l composite sort columns items s = .ok ((calls, entries), t)) :
    ∀ edges, (∃ item ∈ items, EdgesFor edges item) → AnswersEntry l calls entries edges := by
  induction items generalizing s t calls entries with
  | nil => simp
  | cons item rest ih =>
    simp only [mergedEntries, bind_ok, pure_ok, Prod.mk.injEq] at h
    obtain ⟨⟨first, e⟩, u, hfirst, ⟨more, others⟩, v, hrest, ⟨rfl, rfl⟩, _⟩ := h
    rintro edges ⟨made, hmade, hfor⟩
    rcases List.mem_cons.mp hmade with rfl | hmade
    · obtain ⟨node, properties, typename, rfl, hnode, hproperties⟩ := hfor
      simp only [mergedEdgesCall, bind_ok, fresh_ok, pure_ok, Prod.mk.injEq] at hfirst
      obtain ⟨result, _, ⟨rfl, rfl⟩, edge, _, ⟨rfl, rfl⟩, ⟨rfl, rfl⟩, rfl⟩ := hfirst
      rw [hnode, hproperties, Option.map_map, Option.map_map]
      exact ⟨_, _, _, typename, List.mem_cons_self, List.mem_cons_self⟩
    · obtain ⟨edge, result, window, typename, hentry, hcall⟩ := ih hrest edges ⟨made, hmade, hfor⟩
      exact ⟨edge, result, window, typename, List.mem_cons_of_mem _ hentry,
        List.mem_append_right _ hcall⟩

theorem lookupClauses_connects {c : CompositeConnection Field} {clauses : List Clause}
    {selection : List Selection}
    (hitems : ∀ edges ∈ selection, edges.name = "edges" → ∃ item ∈ c.items, EdgesFor edges item)
    (h : Field.lookupClauses ctx (.compositeConnection c) s = .ok (clauses, t)) :
    Connects selection c clauses := by
  obtain ⟨composite, relationship, branches, sort, page, items⟩ := c
  simp only [Field.lookupClauses, bind_ok, fresh_ok, lift_ok, pure_ok] at h
  obtain ⟨column, _, _, columns, _, _, bodies, _, hbodies, union, _, ⟨hunion, rfl⟩, ⟨collect, l⟩, _,
    hcollect, ⟨calls, entries⟩, _, hcalls, rfl, _⟩ := h
  have hcollected : collect = collectEdges (.var column) l.edges l.total :=
    edgeList_collects hcollect
  subst hcollected
  exact ⟨union, column, bodies, l, calls, entries, ctx.result, rfl, hunion,
    connectionBranches_edges hbodies,
    fun edges hedges hname => mergedEntries_calls hcalls edges (hitems edges hedges hname)⟩

end GraphSelection.Program

namespace GraphSelection

open Cypher Plan Resolve Program Scoping

/-- How connections over composites answer their `edges`, at every depth of a plan. Each branch
reads, under every key that the entries ask for, what is asked first under it. An entry under whose
keys nothing else is asked is answered with its own fields, the same as if it were the only one. In
the program the branches end in the maps of the edges, with these fields under their keys, and each
entry is a call of its own that shows these maps. -/
theorem edges_answered (s : Setup) (r : Request) (o : Operation) (ho : s.plan r = .ok o)
    (c : CompositeConnection Field) (hc : .lookup (.compositeConnection c) ∈ o.parts) :
    ∃ q depth composite via path, Asks r q ∧ q.height ≤ depth ∧
      s.compositeConnection (s.fieldsAt depth) composite via q path = .ok c ∧
      (∀ b ∈ c.branches, AnswersEdges s depth via path q.selection b) ∧
      (∀ edges ∈ q.selection,
        (∀ b ∈ c.branches, Undisturbed q.selection edges b.read.scope.entity.name) →
        ∃ c', s.compositeConnection (s.fieldsAt depth) composite via
            { q with selection := [edges] } path = .ok c' ∧
          List.Forall₂ (AnswersAlike s depth via path edges) c.branches c'.branches) ∧
      ∀ p, compile s r = .ok p →
        ∃ clauses, Holds clauses p.clauses ∧ Connects q.selection c clauses := by
  have hoperation := plan_ok ho
  obtain ⟨q, hasks, depth, target, via, path, hdepth, _, hlookup⟩ :=
    Setup.operation_reads hoperation hc trivial
  obtain ⟨composite, hconnection⟩ := compositeConnection_of_lookup hlookup
  refine ⟨q, depth, composite, via, path, hasks, hdepth, hconnection,
    compositeConnection_answers hdepth hconnection,
    fun edges hedges => compositeConnection_alone hdepth hconnection hedges, fun p hp => ?_⟩
  obtain ⟨_, items, _, _, hitems, _, rfl⟩ := Setup.compositeConnection_iff.mp hconnection
  obtain ⟨o', t, hplan, hprogram, _, _⟩ := compile_ok hp
  rw [ho] at hplan
  cases hplan
  have hshows : Shows o.parts p.clauses :=
    shows_programOf (fun c hc => Setup.operation_create (hc ▸ hoperation)) hprogram
  obtain ⟨_, ctx, u, v, block, hblock, hholds⟩ := hshows _ hc
  exact ⟨block, hholds,
    lookupClauses_connects (fun edges hedges hname => items_edges hitems hedges hname) hblock⟩

/-- The first entry of a request is undisturbed by what others ask under its key. -/
theorem bothEdges_undisturbed (typeName : String) :
    Undisturbed Stage.bothEdges.selection (Stage.showing "edges" "title") typeName where
  nodes := by
    intro f hf first hfirst
    have heq : f = (Selection.leaf "title").withAlias "shown" := List.mem_singleton.mp hf
    subst heq
    have hsame : some ((Selection.leaf "title").withAlias "shown") = some first := hfirst
    cases hsame
    rfl
  properties := fun f hf => absurd hf List.not_mem_nil

theorem bothEdges_answered :
    ∃ p c q depth via path, compile Stage.setup Stage.bothEdges = .ok p ∧
      Stage.setup.plan Stage.bothEdges = .ok (.lookup (.compositeConnection c)) ∧
      c.branches.map (fun b => b.read.scope.entity.name) = ["Film", "Series"] ∧
      (∀ b ∈ c.branches, Undisturbed Stage.bothEdges.selection (Stage.showing "edges" "title")
        b.read.scope.entity.name) ∧
      Asks Stage.bothEdges q ∧
      (∀ b ∈ c.branches, AnswersEdges Stage.setup depth via path q.selection b) ∧
      ∃ clauses, Holds clauses p.clauses ∧ Connects q.selection c clauses := by
  obtain ⟨c, hplan, hbranches⟩ :
      ∃ c, Stage.setup.plan Stage.bothEdges = .ok (.lookup (.compositeConnection c)) ∧
        c.branches.map (fun b => b.read.scope.entity.name) = ["Film", "Series"] :=
    ⟨_, rfl, rfl⟩
  obtain ⟨p, h⟩ : ∃ p, compile Stage.setup Stage.bothEdges = .ok p :=
    exists_of_isOk (by decide +kernel)
  obtain ⟨q, depth, composite, via, path, hasks, _, _, hanswers, _, hprogram⟩ :=
    edges_answered Stage.setup Stage.bothEdges _ hplan c List.mem_cons_self
  exact ⟨p, c, q, depth, via, path, h, hplan, hbranches, fun b _ => bothEdges_undisturbed _,
    hasks, hanswers, hprogram p h⟩

/-- The second of two entries asks for the name of the type, and is shown the title, which the first
asks for under the same key. Alone it is shown what it asks for. -/
theorem bothEdges_mixed :
    ∃ c c' f b found b' found',
      Stage.setup.plan Stage.bothEdges = .ok (.lookup (.compositeConnection c)) ∧
      Stage.setup.plan Stage.typeEdges = .ok (.lookup (.compositeConnection c')) ∧
      f ∈ askedOf "Film" Stage.typeEdges.selection ∧
      b ∈ c.branches ∧ b.read.scope.entity.name = "Film" ∧
      b.read.fields.find? (·.key == f.key) = some found ∧
      (∀ depth path, ¬ Stage.setup.ReadsNode depth path b.read.scope.entity f found) ∧
      b' ∈ c'.branches ∧ b'.read.scope.entity.name = "Film" ∧
      b'.read.fields.find? (·.key == f.key) = some found' ∧
      ∀ depth path, Stage.setup.ReadsNode depth path b'.read.scope.entity f found' := by
  refine ⟨_, _, (Selection.leaf "__typename").withAlias "shown", _, _, _, _, rfl, rfl, ?_,
    List.mem_cons_self, rfl, rfl, ?_, List.mem_cons_self, rfl, rfl, ?_⟩
  · exact List.mem_cons_self
  · intro depth path h
    cases h
  · intro depth path
    rfl

end GraphSelection
