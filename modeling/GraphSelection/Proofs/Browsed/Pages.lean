import GraphSelection.Proofs.Browsed.Requests
import GraphSelection.Proofs.EdgeKeys
import GraphSelection.Proofs.Paged.Programs

/-!
The page that a program shows of a list of edges. The bounds of the page are parameters; their
values say how many edges each `edges` entry leaves out and how many it keeps, and with the number
of all edges they say whether the next page is announced.
-/
namespace GraphSelection.Cypher

/-- The value of a number: of a parameter, of a variable, or of a sum, over whole numbers without
bounds. -/
def number? (env : Entries Doc) (vars : String → Option Int) : Expr → Option Int
  | .param x =>
      match env.get? x with
      | some (.int n) => some n
      | _ => none
  | .var x => vars x
  | .binary left .plus right => do
      let m ← number? env vars left
      let n ← number? env vars right
      return m + n
  | _ => none

/-- The truth of a constant or of a comparison of numbers. -/
def truth? (env : Entries Doc) (vars : String → Option Int) : Expr → Option Bool
  | .literal (.boolean b) => some b
  | .binary left .less right => do
      let m ← number? env vars left
      let n ← number? env vars right
      return m < n
  | _ => none

variable {α : Type}

/-- What is left of rows after some are skipped, and of these at most as many as the limit. -/
def cut (skip limit : Option Nat) (rows : List α) : List α :=
  match limit with
  | none => rows.drop (skip.getD 0)
  | some k => (rows.drop (skip.getD 0)).take k

/-- The bound of a window amounts to the number, whatever the variables are; no bound amounts to
none. -/
def Amounts (env : Entries Doc) : Option Expr → Option Nat → Prop :=
  Option.Rel fun e n => ∀ vars, number? env vars e = some (n : Int)

/-- The clauses leave these of the rows, which are in their order. A call that leaves one row of
each takes none away, and a window keeps the rows between its bounds. -/
inductive Leaves (env : Entries Doc) : List Clause → List α → List α → Prop
  | done (rows : List α) : Leaves env [] rows rows
  | call {c : Clause} {cs : List Clause} {rows left : List α} (hcall : SingleCall c)
      (h : Leaves env cs rows left) : Leaves env (c :: cs) rows left
  | carry {columns : List (Column Expr)} {order : List (OrderKey Expr)}
      {skip limit : Option Expr} {m n : Option Nat} {cs : List Clause} {rows left : List α}
      (hplain : columns.all (fun c => c.expression.grain.isPlain) = true)
      (hskip : Amounts env skip m) (hlimit : Amounts env limit n)
      (h : Leaves env cs (cut m n rows) left) :
      Leaves env (.carry columns false order skip limit none :: cs) rows left

variable {env : Entries Doc} {cs cs' : List Clause} {rows mid left left' : List α}

theorem Leaves.append (h : Leaves env cs rows mid) (h' : Leaves env cs' mid left) :
    Leaves env (cs ++ cs') rows left := by
  induction h with
  | done rows => exact h'
  | call hcall _ ih => exact .call hcall (ih h')
  | carry hplain hskip hlimit _ ih => exact .carry hplain hskip hlimit (ih h')

theorem leaves_calls (h : SingleCalls cs) (rows : List α) : Leaves env cs rows rows := by
  induction cs with
  | nil => exact .done rows
  | cons c rest ih =>
    exact .call (h c List.mem_cons_self) (ih fun c hc => h c (List.mem_cons_of_mem _ hc))

theorem Amounts.unique {e : Option Expr} {m n : Option Nat} (h : Amounts env e m)
    (h' : Amounts env e n) : m = n := by
  cases h with
  | none =>
    cases h'
    rfl
  | some hm =>
    cases h' with
    | some hn =>
      have hvalue := Option.some.inj ((hm fun _ => none).symm.trans (hn fun _ => none))
      exact congrArg some (Int.ofNat.inj hvalue)

/-- Clauses leave the same of the same rows. -/
theorem Leaves.unique (h : Leaves env cs rows left) (h' : Leaves env cs rows left') :
    left = left' := by
  induction h with
  | done rows =>
    cases h'
    rfl
  | call hcall _ ih =>
    cases h' with
    | call _ h' => exact ih h'
    | carry =>
      obtain ⟨_, _, heq, _⟩ := hcall
      cases heq
  | carry _ hskip hlimit _ ih =>
    cases h' with
    | call hcall _ =>
      obtain ⟨_, _, heq, _⟩ := hcall
      cases heq
    | carry _ hskip' hlimit' h' =>
      obtain rfl := hskip.unique hskip'
      obtain rfl := hlimit.unique hlimit'
      exact ih h'

/-- Columns alone leave all rows. -/
theorem leaves_carryOnly {columns : List (Column Expr)}
    (hplain : columns.all (fun c => c.expression.grain.isPlain) = true) (rows : List α) :
    Leaves env [.carryOnly columns] rows rows :=
  .carry hplain .none .none (.done rows)

end GraphSelection.Cypher

namespace GraphSelection.Program

open GraphSelection Cypher Plan Resolve

/-- The bounds of a window are those of the page. -/
structure BoundsOf (env : Entries Doc) (b : Bounds) (page : Page) : Prop where
  skip : Amounts env b.skip page.skip
  limit : Amounts env b.limit page.limit

section Bounds

variable {env : Entries Doc} {ctx : Context} {s t : Supply} {α : Type}

theorem assures_bound (bound : Option Nat) :
    Assures env (fun e => Amounts env e bound) (countParam bound) := by
  cases bound with
  | none => exact assures_pure .none
  | some n =>
    refine (assures_param (Doc.ofCount n)).bind fun e => assures_pure ?_
    rintro ⟨x, rfl, hx⟩
    refine .some fun vars => ?_
    simp [number?, hx, Doc.ofCount]

theorem assures_boundsOf (page : Page) :
    Assures env (fun b => BoundsOf env b page) (bounds page) := by
  refine (assures_bound page.skip).bind fun skip => (assures_bound page.limit).bind fun limit => ?_
  exact assures_pure fun hlimit hskip => ⟨hskip, hlimit⟩

/-- The edges are collected, and where an item looks at the page its bounds are made. -/
theorem assures_collected {φ : Type} (edge : Expr) (items : List (ConnectionItem φ))
    (page : Page) :
    Assures env (fun r => r.1 = collectEdges edge r.2.edges r.2.total ∧
        (items.any ConnectionItem.needsPage = true → BoundsOf env r.2.bounds page))
      (edgeList edge items page) := by
  refine assures_skip _ fun edges => assures_skip _ fun total => ?_
  split
  next =>
    exact (assures_boundsOf page).bind fun b => assures_pure fun hb => ⟨rfl, fun _ => hb⟩
  next hneeds => exact assures_pure ⟨rfl, fun h => absurd h hneeds⟩

theorem amounts_none {n : Option Nat} (h : Amounts env none n) : n = none := by
  cases h
  rfl

theorem BoundsOf.whole {b : Bounds} {page : Page} (h : BoundsOf env b page)
    (hwhole : b.isWhole = true) (rows : List α) : cut page.skip page.limit rows = rows := by
  obtain ⟨skip, limit⟩ := b
  simp only [Bounds.isWhole, Bool.and_eq_true, Option.isNone_iff_eq_none] at hwhole
  obtain ⟨rfl, rfl⟩ := hwhole
  rw [amounts_none h.skip, amounts_none h.limit]
  rfl

/-- The window of an order keeps the edges of the page. -/
theorem leaves_orderedWindow {sort : List SortKey} {b : Bounds} {page : Page}
    (hb : BoundsOf env b page) {window : List Clause}
    (h : orderedWindow ctx sort b s = .ok (window, t)) (rows : List α) :
    Leaves env window rows (cut page.skip page.limit rows) := by
  unfold orderedWindow at h
  split at h
  next hwhole =>
    obtain ⟨rfl, _⟩ := (pure_ok ..).mp h
    rw [hb.whole (Bool.and_eq_true_iff.mp hwhole).2]
    exact .done rows
  next =>
    simp only [bind_ok, pure_ok] at h
    obtain ⟨⟨calls, keys⟩, u, hvalues, rfl, _⟩ := h
    have hcalls : SingleCalls calls := ((ensures_sortValues sort).run s (calls, keys) u hvalues).1
    exact (leaves_calls hcalls rows).append (.carry rfl hb.skip hb.limit (.done _))

theorem leaves_unpackEdge (env : Entries Doc) (ctx : Context) (edges edge : String)
    (rows : List α) :
    ∃ columns, unpackEdge ctx edges edge = [.unwind (.var edges) edge, .carryOnly columns] ∧
      Leaves env [.carryOnly columns] rows rows := by
  refine ⟨_, rfl, leaves_carryOnly ?_ rows⟩
  cases ctx.relationship with
  | none => rfl
  | some r => rfl

/-- The next page is announced where the bounds end before the last edge. -/
theorem truth?_hasNextPage {l : EdgeList} {page : Page} (hb : BoundsOf env l.bounds page)
    {size : Nat} (hlimit : page.limit = some size) (count : Nat) :
    truth? env (fun x => if x = l.total then some (count : Int) else none) l.hasNextPage =
      some (decide (page.skip.getD 0 + size < count)) := by
  obtain ⟨edges, total, skip, limit⟩ := l
  obtain ⟨offset, _⟩ := page
  obtain ⟨hskip, hend⟩ := hb
  simp only at hskip hend hlimit ⊢
  subst hlimit
  cases hend with
  | some hend =>
    cases hskip with
    | none => simp [EdgeList.hasNextPage, truth?, number?, hend]
    | some hskip =>
      have hsum (m : Nat) : (m : Int) + (size : Int) < count ↔ m + size < count := by omega
      simp [EdgeList.hasNextPage, truth?, number?, hend, hskip, hsum]

end Bounds

/-- An `edges` entry shows these of the edges, which are in their order: a call takes the edges out
of their list, leaves those, and collects what is shown of each. -/
def ShowsWindow {α : Type} (env : Entries Doc) (list : String) (calls : List Clause)
    (entries : List (String × Expr)) (edges window : List α) (key : String) : Prop :=
  ∃ edge rest shown result, (key, .var result) ∈ entries ∧
    .call [list] (.unwind (.var list) edge :: rest ++
      [.give (.apply "collect" [shown]) result]) ∈ calls ∧
    Leaves env rest edges window

/-- A `pageInfo` entry says whether there is a next page, given how many edges there are. -/
def Announces (env : Entries Doc) (total : String) (count : Nat) (entries : List (String × Expr))
    (more : Bool) (key inner : String) : Prop :=
  ∃ info e, (key, .map info) ∈ entries ∧ (inner, e) ∈ info ∧
    truth? env (fun x => if x = total then some (count : Int) else none) e = some more

/-- The clauses of a connection collect its edges, show a window of them in all `edges` entries of
the selection, and say in all `pageInfo` entries whether there is a next page. -/
def ShowsPage {α : Type} (env : Entries Doc) (selection : List Selection) (clauses : List Clause)
    (edges window : List α) (more : Bool) : Prop :=
  ∃ before item list total calls entries result,
    clauses = before ++ collectEdges item list total ++ calls ++ [.give (.map entries) result] ∧
    (∀ f ∈ selection, f.name = "edges" → ShowsWindow env list calls entries edges window f.key) ∧
    ∀ f ∈ selection, f.name = "pageInfo" → ∀ g ∈ f.selection, g.name = "hasNextPage" →
      Announces env total edges.length entries more f.key g.key

/-- The items answer what the selection asks about the page. -/
structure ItemsFor (selection : List Selection) (items : List (ConnectionItem Field)) : Prop where
  edges : ∀ f ∈ selection, f.name = "edges" →
    ∃ node properties typename, .edges f.key node properties typename ∈ items
  pageInfo : ∀ f ∈ selection, f.name = "pageInfo" → ∃ fields, .pageInfo f.key fields ∈ items ∧
    ∀ g ∈ f.selection, g.name = "hasNextPage" → .hasNextPage g.key ∈ fields

theorem items_for {k : ConnectionKeys} {nodeFields : NodeReader} {path : String}
    {selection : List Selection} {items : List (ConnectionItem Field)}
    (h : k.items nodeFields selection path = .ok items) : ItemsFor selection items where
  edges f hf hname := by
    obtain ⟨parts, _, hitem⟩ := items_parts h hf hname
    exact ⟨_, _, _, hitem⟩
  pageInfo f hf hname := by
    obtain ⟨item, hitem, hread⟩ := ok_of_mapM_ok h f hf
    simp only [ConnectionKeys.item, hname, except_bind_ok, except_pure_ok] at hread
    obtain ⟨fields, hfields, rfl⟩ := hread
    refine ⟨fields, hitem, fun g hg hnext => ?_⟩
    obtain ⟨found, hfound, hread⟩ := ok_of_mapM_ok hfields g hg
    simp only [pageInfoField, hnext] at hread
    cases hread
    exact hfound

section Items

variable {env : Entries Doc} {ctx : Context} {s t : Supply} {α : Type} {l : EdgeList} {page : Page}
  {sort : List SortKey} {items : List (ConnectionItem Field)} {calls : List Clause}
  {entries : List (String × Expr)}

theorem needsPage_of_edges {key : String} {node : Option (String × List Field)}
    {properties : Option (String × List EdgeField)} {typename : Option (String × String)}
    (hitem : .edges key node properties typename ∈ items) :
    items.any ConnectionItem.needsPage = true :=
  List.any_eq_true.mpr ⟨_, hitem, rfl⟩

theorem needsPage_of_pageInfo {key : String} {fields : List PageInfoField}
    (hitem : .pageInfo key fields ∈ items) : items.any ConnectionItem.needsPage = true :=
  List.any_eq_true.mpr ⟨_, hitem, rfl⟩

/-- The info of a page holds what its bounds say about the next one. -/
theorem announces_of_entry (hb : BoundsOf env l.bounds page) {size : Nat}
    (hlimit : page.limit = some size) {fields : List PageInfoField} {key inner : String}
    (hentry : (key, .map (fields.map l.pageInfo)) ∈ entries)
    (hfield : .hasNextPage inner ∈ fields) (count : Nat) :
    Announces env l.total count entries (decide (page.skip.getD 0 + size < count)) key inner := by
  refine ⟨_, l.hasNextPage, hentry, ?_, truth?_hasNextPage hb hlimit count⟩
  exact List.mem_map.mpr ⟨_, hfield, rfl⟩

/-- An `edges` item of a connection over one entity shows the page. -/
theorem entries_window (hb : BoundsOf env l.bounds page)
    (hbehind : ∀ part ∈ Field.itemParts items, Behind part)
    (h : Field.entries ctx l sort items s = .ok ((calls, entries), t)) {key : String}
    {node : Option (String × List Field)} {properties : Option (String × List EdgeField)}
    {typename : Option (String × String)} (hitem : .edges key node properties typename ∈ items)
    (edges : List α) :
    ShowsWindow env l.edges calls entries edges (cut page.skip page.limit edges) key := by
  obtain ⟨u, v, own, entry, hown, hsub, hentry⟩ := entries_mem h hitem
  simp only [Field.entries, bind_ok, lift_ok, pure_ok, Prod.mk.injEq] at hown
  obtain ⟨result, _, _, edge, _, _, window, _, hwindow, ⟨nodeCalls, nodeEntries⟩, _, hnode,
    propertyEntries, _, _, _, _, ⟨rfl, _⟩, ⟨rfl, hentries⟩, _⟩ := hown
  obtain ⟨rfl, _⟩ := List.cons.inj hentries
  have hparts : ∀ part ∈ Field.nodeParts node, Behind part := by
    intro part hpart
    refine hbehind part ?_
    cases node with
    | none => exact absurd hpart List.not_mem_nil
    | some shown =>
      exact Field.mem_itemParts.mpr ⟨key, shown.1, shown.2, properties, typename, hitem, hpart⟩
  have hcalls : SingleCalls nodeCalls := ((ensures_nodeEntry ctx node hparts).run _ _ _ hnode).1
  obtain ⟨columns, hunpack, hleaves⟩ := leaves_unpackEdge env ctx l.edges edge edges
  have hcall := hsub List.mem_cons_self
  rw [hunpack] at hcall
  have hleft := (hleaves.append (leaves_orderedWindow hb hwindow edges)).append
    (leaves_calls hcalls _)
  exact ⟨edge, _, _, result, hentry, hcall, hleft⟩

theorem entries_pageInfo (h : Field.entries ctx l sort items s = .ok ((calls, entries), t))
    {key : String} {fields : List PageInfoField} (hitem : .pageInfo key fields ∈ items) :
    (key, .map (fields.map l.pageInfo)) ∈ entries := by
  obtain ⟨u, v, own, entry, hown, _, hentry⟩ := entries_mem h hitem
  simp only [Field.entries, bind_ok, pure_ok, Prod.mk.injEq] at hown
  obtain ⟨_, _, ⟨rfl, _⟩, ⟨_, hentries⟩, _⟩ := hown
  obtain ⟨rfl, _⟩ := List.cons.inj hentries
  exact hentry

end Items

section Merged

variable {env : Entries Doc} {α : Type} {l : EdgeList} {composite : String} {sort : List SortKey}
  {columns : List String} {items : List (ConnectionItem Field)} {calls : List Clause}
  {entries : List (String × Expr)} {s t : Supply}

/-- Over a composite as well, each item is written as it would be alone. -/
theorem mergedEntries_mem
    (h : mergedEntries l composite sort columns items s = .ok ((calls, entries), t))
    {item : ConnectionItem Field} (hitem : item ∈ items) :
    ∃ u v own entry, mergedEntries l composite sort columns [item] u = .ok ((own, [entry]), v) ∧
      own ⊆ calls ∧ entry ∈ entries := by
  induction items generalizing s calls entries with
  | nil => exact absurd hitem List.not_mem_nil
  | cons first rest ih =>
    simp only [mergedEntries, bind_ok, pure_ok, Prod.mk.injEq] at h
    obtain ⟨⟨own, e⟩, u, hfirst, ⟨more, others⟩, _, hrest, ⟨rfl, rfl⟩, rfl⟩ := h
    rcases List.mem_cons.mp hitem with rfl | hitem
    · refine ⟨s, u, own, (item.key, e), ?_, List.subset_append_left _ _, List.mem_cons_self⟩
      simp only [mergedEntries, bind_ok, pure_ok, Prod.mk.injEq]
      exact ⟨(own, e), u, hfirst, ([], []), u, ⟨rfl, rfl⟩, ⟨List.append_nil own, rfl⟩, rfl⟩
    · obtain ⟨u', v, own', entry, hown, hsub, hentry⟩ := ih hrest hitem
      exact ⟨u', v, own', entry, hown, List.subset_append_of_subset_right _ hsub,
        List.mem_cons_of_mem _ hentry⟩

/-- An `edges` item of a connection over a composite shows the page. -/
theorem mergedEntries_window {page : Page} (hb : BoundsOf env l.bounds page)
    (h : mergedEntries l composite sort columns items s = .ok ((calls, entries), t)) {key : String}
    {node : Option (String × List Field)} {properties : Option (String × List EdgeField)}
    {typename : Option (String × String)} (hitem : .edges key node properties typename ∈ items)
    (edges : List α) :
    ShowsWindow env l.edges calls entries edges (cut page.skip page.limit edges) key := by
  obtain ⟨u, v, own, entry, hown, hsub, hentry⟩ := mergedEntries_mem h hitem
  simp only [mergedEntries, mergedEdgesCall, bind_ok, pure_ok, Prod.mk.injEq] at hown
  obtain ⟨_, _, ⟨result, _, _, edge, _, _, rfl, _⟩, _, _, ⟨rfl, _⟩, ⟨rfl, hentries⟩, _⟩ := hown
  obtain ⟨rfl, _⟩ := List.cons.inj hentries
  have hcall := hsub (List.mem_append_left _ List.mem_cons_self)
  refine ⟨edge, _, _, result, hentry, hcall, ?_⟩
  split
  next hwhole =>
    rw [hb.whole (Bool.and_eq_true_iff.mp hwhole).2]
    exact .done edges
  next => exact .carry rfl hb.skip hb.limit (.done _)

theorem mergedEntries_pageInfo
    (h : mergedEntries l composite sort columns items s = .ok ((calls, entries), t)) {key : String}
    {fields : List PageInfoField} (hitem : .pageInfo key fields ∈ items) :
    (key, .map (fields.map l.pageInfo)) ∈ entries := by
  obtain ⟨u, v, own, entry, hown, _, hentry⟩ := mergedEntries_mem h hitem
  simp only [mergedEntries, bind_ok, pure_ok, Prod.mk.injEq] at hown
  obtain ⟨_, _, ⟨rfl, _⟩, _, _, _, ⟨_, hentries⟩, _⟩ := hown
  obtain ⟨rfl, _⟩ := List.cons.inj hentries
  exact hentry

end Merged

section Lookups

variable {env : Entries Doc} {α : Type} {selection : List Selection}

/-- The entries answer what the selection asks about the page. -/
theorem showsPage_of_entries {items : List (ConnectionItem Field)} {l : EdgeList} {page : Page}
    {size : Nat} {calls : List Clause} {entries : List (String × Expr)}
    (hitems : ItemsFor selection items)
    (hb : items.any ConnectionItem.needsPage = true → BoundsOf env l.bounds page)
    (hlimit : page.limit = some size) (edges : List α)
    (hwindow : BoundsOf env l.bounds page →
      ∀ key node properties typename, .edges key node properties typename ∈ items →
        ShowsWindow env l.edges calls entries edges (cut page.skip page.limit edges) key)
    (hinfo : ∀ key fields, .pageInfo key fields ∈ items →
      (key, .map (fields.map l.pageInfo)) ∈ entries)
    (before : List Clause) (item : Expr) (result : String) :
    ShowsPage env selection (before ++ collectEdges item l.edges l.total ++ calls ++
      [.give (.map entries) result]) edges (cut page.skip page.limit edges)
      (decide (page.skip.getD 0 + size < edges.length)) := by
  refine ⟨before, item, l.edges, l.total, calls, entries, result, rfl, ?_, ?_⟩
  · intro f hf hname
    obtain ⟨node, properties, typename, hitem⟩ := hitems.edges f hf hname
    exact hwindow (hb (needsPage_of_edges hitem)) f.key node properties typename hitem
  · intro f hf hname g hg hnext
    obtain ⟨fields, hitem, hfields⟩ := hitems.pageInfo f hf hname
    exact announces_of_entry (hb (needsPage_of_pageInfo hitem)) hlimit (hinfo f.key fields hitem)
      (hfields g hg hnext) edges.length

/-- The lookup is a connection that answers what the selection asks about the page. -/
def ConnectsFor (selection : List Selection) : Lookup Field → Prop
  | .connection c => ItemsFor selection c.items
  | .compositeConnection c => ItemsFor selection c.items
  | _ => False

/-- A connection shows the page of its edges between the bounds, and announces the next one where
some edge lies beyond them. -/
theorem assures_page (ctx : Context) {l : Lookup Field}
    (hbehind : ∀ part ∈ Field.lookupParts l, Behind part) (hfor : ConnectsFor selection l)
    {size : Nat} (hlimit : l.page.limit = some size) (edges : List α) :
    Assures env (fun clauses =>
        ShowsPage env selection clauses edges (cut l.page.skip l.page.limit edges)
          (decide (l.page.skip.getD 0 + size < edges.length)))
      (Field.lookupClauses ctx l) := by
  cases l with
  | read r => exact hfor.elim
  | composite c => exact hfor.elim
  | connection c =>
    obtain ⟨scope, sort, page, items⟩ := c
    have hinner : ∀ part ∈ Field.itemParts items, Behind part :=
      fun part hpart => hbehind part (List.mem_cons_of_mem _ hpart)
    refine (accounts_scopeMatch scope).skips fun found => ?_
    refine (assures_collected _ items page).bind fun r => ?_
    refine (assures_entries ctx r.2 sort items).runs.bind fun out => assures_pure ?_
    rintro ⟨⟨s, t, hrun⟩, _⟩ ⟨hcollect, hb⟩
    rw [hcollect]
    exact showsPage_of_entries hfor hb hlimit edges
      (fun hb _ _ _ _ hitem => entries_window hb hinner hrun hitem edges)
      (fun _ _ hitem => entries_pageInfo hrun hitem) found (edgeMap ctx) ctx.result
  | compositeConnection c =>
    obtain ⟨composite, relationship, branches, sort, page, items⟩ := c
    refine assures_skip _ fun column => (accounts_sortColumns sort).skips fun columns => ?_
    refine (assures_connectionBranches ctx column columns true branches).bind fun bodies => ?_
    refine assures_fault fun union _ => ?_
    refine (assures_collected _ items page).bind fun r => ?_
    refine (assures_mergedEntries r.2 composite.name sort columns items).runs.bind fun out =>
      assures_pure ?_
    rintro ⟨⟨s, t, hrun⟩, _⟩ ⟨hcollect, hb⟩ _
    rw [hcollect]
    exact showsPage_of_entries hfor hb hlimit edges
      (fun hb _ _ _ _ hitem => mergedEntries_window hb hrun hitem edges)
      (fun _ _ hitem => mergedEntries_pageInfo hrun hitem) [union] (.var column) ctx.result

end Lookups

end GraphSelection.Program
