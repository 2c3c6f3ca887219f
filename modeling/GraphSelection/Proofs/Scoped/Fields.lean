import GraphSelection.Proofs.Scoped.Union

/-!
Fields and lookups. A lookup is a block of its own: given the node of the scope around, it returns
one column. The fields of a node are calls that need this node only. The induction is over the
selection, with a context whose names have been drawn for the scope at hand.
-/
namespace GraphSelection.Scoping

open Cypher Plan Program Minting

/-- The values under the keys of a projection. -/
def entryValues (items : List (MapItem Expr)) : List Expr :=
  items.filterMap fun
    | .own _ => none
    | .entry _ e => some e

theorem entryValues_cons (item : MapItem Expr) (items : List (MapItem Expr)) :
    entryValues (item :: items) = entryValues [item] ++ entryValues items := by
  cases item <;> rfl

/-- A part that fits into its place and, as a list of a composite, keeps a constituent. -/
structure Sound (returns : String → Names) (p : Part) : Prop where
  fits : p.Fits (Honest returns)
  keeps : p.KeepsBranch

section

variable {returns : String → Names}

theorem refers_shownValue {scope : Names} {e : Expr} (a : Attribute)
    (h : Refers returns scope e) : Refers returns scope (shownValue a e) := by
  unfold shownValue
  split
  · exact h
  · split
    · exact refers_apply _ h
    · split
      · refine .choice (.isNotNull h) (.map ?_) (.literal _)
        intro p hp
        simp only [List.mem_cons, List.not_mem_nil, or_false] at hp
        rcases hp with rfl | rfl
        · exact h
        · exact .property _ h
      · exact h

theorem storedItem_cases (name key : String) (a : Attribute) :
    storedItem name key a = .own key ∨
      storedItem name key a = .entry key (shownValue a (.propertyOf name a.stored)) := by
  simp only [storedItem]
  split
  · exact .inl rfl
  · exact .inr rfl

theorem refers_storedItem {scope : Names} {name : String} (key : String) (a : Attribute)
    (h : name ∈ scope) : ∀ e ∈ entryValues [storedItem name key a], Refers returns scope e := by
  intro e he
  rcases storedItem_cases name key a with hitem | hitem
  · simp [hitem, entryValues] at he
  · simp only [hitem, entryValues, List.filterMap_cons, List.filterMap_nil,
      List.mem_singleton] at he
    exact he ▸ refers_shownValue a (refers_propertyOf _ h)

theorem shownValue_ne_star (a : Attribute) (name key : String) :
    shownValue a (.propertyOf name key) ≠ .star := by
  unfold shownValue
  split
  · simp [Expr.propertyOf]
  · split
    · simp
    · split <;> simp [Expr.propertyOf]

theorem storedItem_ne_star (name key : String) (a : Attribute) :
    ∀ e ∈ entryValues [storedItem name key a], e ≠ .star := by
  intro e he
  rcases storedItem_cases name key a with hitem | hitem
  · simp [hitem, entryValues] at he
  · simp only [hitem, entryValues, List.filterMap_cons, List.filterMap_nil,
      List.mem_singleton] at he
    exact he ▸ shownValue_ne_star a name a.stored

theorem refers_projection {scope : Names} {x : String} {items : List (MapItem Expr)}
    (hx : x ∈ scope) (h : ∀ e ∈ entryValues items, Refers returns scope e) :
    Refers returns scope (.projection x items) := by
  refine .projection hx ?_
  intro key e hmem
  exact h e (List.mem_filterMap.mpr ⟨_, hmem, rfl⟩)

theorem refers_edgeProjection {ctx : Context} {fields : List EdgeField} {e : Expr} {scope : Names}
    (hedge : ∀ x ∈ ctx.relationship, x ∈ scope) (h : edgeProjection ctx fields = .ok e) :
    Refers returns scope e := by
  cases hx : ctx.edge with
  | error f => simp [edgeProjection, hx, bind, Except.bind] at h
  | ok x =>
    simp only [edgeProjection, hx, bind, Except.bind, pure, Except.pure, Except.ok.injEq] at h
    subst h
    have hmem : x ∈ scope := hedge x (edge_ok hx)
    refine .projection hmem ?_
    intro key e he
    obtain ⟨f, _, heq⟩ := List.mem_map.mp he
    cases f with
    | stored key' a =>
      refine refers_storedItem key' a hmem e ?_
      rw [show storedItem x key' a = .entry key e from heq]
      simp [entryValues]
    | typename key' typeName =>
      cases heq
      exact .literal _

/-- The fields of a node in one expression. -/
theorem Yields.projection {needs names : Names} {n m : Nat} {clauses : List Clause} {x : String}
    {items : List (MapItem Expr)} (h : Yields returns needs n m clauses names (entryValues items))
    (hx : x ∈ needs) : Yields returns needs n m clauses names [.projection x items] := by
  refine h.rewrap (by simp) ?_
  intro scope hneeds hrefers e he
  rw [List.mem_singleton] at he
  exact he ▸ refers_projection (hneeds x hx) hrefers

theorem gives_readResult {ctx : Context} {plan : Plan.Scope} {projection : Expr} {scope : Names}
    (h : Refers returns scope projection) (hstar : projection ≠ .star) :
    Gives returns scope (readResult ctx plan projection) [ctx.result] := by
  unfold readResult
  cases plan.relationship with
  | none => exact gives_give _ h hstar
  | some r =>
    have hcarry : Step returns scope (.carryOnly [Column.named projection ctx.subject])
        [ctx.subject] := by
      refine step_carryOnly ?_ ?_
      · intro c hc
        rw [List.mem_singleton] at hc
        exact hc ▸ h
      · cases projection <;> simp_all [exposed, Column.named, Column.name?]
    refine .cons hcarry (gives_give _ (refers_collected _ (.var List.mem_cons_self)) ?_)
    unfold collected
    split <;> simp

/-- A call around a block that is given the node at hand. -/
theorem yields_nestedCall {ctx : Context} {body : Context → Build (List Clause)}
    {calls : List Clause} {e : Expr} {s t : Supply} (hold : Older s.next ctx.subject)
    (hbody : ∀ inner u clauses v, Opens inner u.next → body inner u = .ok (clauses, v) →
      u.next ≤ v.next ∧ Gives returns (around inner) clauses [inner.result])
    (h : nestedCall ctx body s = .ok ((calls, e), t)) :
    ∃ names, Yields returns [ctx.subject] s.next t.next calls names [e] := by
  simp only [nestedCall, bind_ok, fresh_ok, pure_ok, Prod.mk.injEq] at h
  obtain ⟨edge, _, ⟨rfl, rfl⟩, node, _, ⟨rfl, rfl⟩, result, _, ⟨rfl, rfl⟩, clauses, u, hclauses,
    ⟨rfl, rfl⟩, rfl⟩ := h
  generalize hs₁ : ({ s with next := s.next + 1 } : Supply) = s₁ at *
  generalize hs₂ : ({ next := s₁.next + 1, params := s₁.params } : Supply) = s₂ at *
  have hnext : s₂.next = s.next + 2 := by simp [← hs₂, ← hs₁]
  have hown : Within [s.name "this", s₁.name "this"] s.next (s.next + 2) :=
    hs₁ ▸ Within.pair s (by decide) (by decide)
  have hopens : Opens (ctx.enter (s₁.name "this") (some (s.name "this")) (s₂.name "var"))
      (s₂.next + 1) := by
    refine ⟨?_, ?_, ?_, ?_⟩
    · exact fun x hx => (hown.older x hx).mono (by omega)
    · intro x hx
      simp only [around, Context.enter, List.head?_cons, Option.toList_some,
        List.mem_singleton] at hx
      exact hx ▸ hold.mono (by omega)
    · refine hown.fresh (Clear.of_older ?_ _)
      intro x hx
      simp only [around, Context.enter, List.head?_cons, Option.toList_some,
        List.mem_singleton] at hx
      exact hx ▸ hold
    · simp [Context.enter]
  obtain ⟨hle, hgives⟩ := hbody _ _ _ _ hopens hclauses
  simp only at hle
  refine ⟨_, .ofProvides (.call ?_ (fun x hx => hx) hgives)⟩
  exact (Within.single s₂ "var" (by decide)).mono (by omega) hle

/-- The body of a branch of a list: the nodes, their fields, and the sort keys in columns of
their own. -/
theorem gives_branchBody {scope names more : Names} {x column : String} {n m k : Nat}
    {found calls keyCalls : List Clause} {items : List (MapItem Expr)}
    {keys : List (String × Expr)} (hfound : Reaches returns scope found [x] n)
    (hitems : Yields returns [x] n m calls names (entryValues items))
    (hkeys : Yields returns [x] m k keyCalls more (keys.map Prod.snd)) :
    Gives returns scope (found ++ calls ++ keyCalls ++
      [.giveAll (Column.named (.projection x items) column ::
        keys.map fun p => Column.named p.2 p.1)]) (column :: keys.map Prod.fst) := by
  have hboth := (hitems.projection List.mem_cons_self).append hkeys
  obtain ⟨after, hruns, hneeds, hafter⟩ := hfound
  have hrefers := hboth.refers (after ++ (names ++ more))
    (fun y hy => List.mem_append_left _ (hneeds y hy)) (fun y hy => List.mem_append_right after hy)
  have hpair : ∀ p ∈ (column, Expr.projection x items) :: keys,
      p.2 ∈ [Expr.projection x items] ++ keys.map Prod.snd := by
    intro p hp
    rcases List.mem_cons.mp hp with rfl | hp
    · simp
    · exact List.mem_append_right _ (List.mem_map_of_mem hp)
  have hgives : Gives returns (after ++ (names ++ more))
      [.giveAll (((column, Expr.projection x items) :: keys).map fun p => Column.named p.2 p.1)]
      (((column, Expr.projection x items) :: keys).map Prod.fst) :=
    gives_giveAll (fun p hp => hrefers _ (hpair p hp)) (fun p hp => hboth.notStar _ (hpair p hp))
  rw [List.append_assoc found]
  exact .prepend (hruns.append (hboth.runs after hneeds (Clear.of_older hafter _))) hgives

/-- The body of a branch of a connection: the map of an edge holds the node, the properties of
the relationship and the sort keys. -/
theorem gives_connectionBody {ctx : Context} {scope names more : Names} {column : String}
    {n m k : Nat} {found calls keyCalls : List Clause} {items : List (MapItem Expr)}
    {properties keys : List (String × Expr)} (hfound : Reaches returns scope found (own ctx) n)
    (hitems : Yields returns [ctx.subject] n m calls names (entryValues items))
    (hproperties : ∀ scope, (∀ x ∈ own ctx, x ∈ scope) →
      ∀ p ∈ properties, Refers returns scope p.2)
    (hkeys : Yields returns (own ctx) m k keyCalls more (keys.map Prod.snd)) :
    Gives returns scope (found ++ calls ++ keyCalls ++
      [.give (.map (("node", .projection ctx.subject items) :: properties ++ keys)) column])
      [column] := by
  have hnode : Yields returns (own ctx) n m calls names [.projection ctx.subject items] := by
    refine (hitems.projection List.mem_cons_self).of_needs ?_
    simpa using subject_mem_own ctx
  have hboth : Yields returns (own ctx) n k (calls ++ keyCalls) (names ++ more)
      [.map (("node", .projection ctx.subject items) :: properties ++ keys)] := by
    refine (hnode.append hkeys).rewrap (by simp) ?_
    intro scope hneeds hrefers e he
    rw [List.mem_singleton] at he
    subst he
    refine .map ?_
    intro p hp
    simp only [List.cons_append, List.mem_cons, List.mem_append] at hp
    rcases hp with rfl | hp | hp
    · exact hrefers _ (by simp)
    · exact hproperties scope hneeds p hp
    · exact hrefers _ (List.mem_append_right _ (List.mem_map_of_mem hp))
  rw [List.append_assoc found, List.append_assoc found]
  obtain ⟨after, hruns, hown, hafter⟩ := hfound
  exact .prepend hruns (hboth.gives column hown hafter)

/-- The page of a connection: the edges are taken apart, ordered and shown. -/
theorem provides_edgesCall {ctx : Context} {l : EdgeList} {s : Supply} {names more : Names}
    {n m k : Nat} {window nodeCalls : List Clause} {nodeEntries properties : List (String × Expr)}
    (typename : Option (String × String)) (hn : s.next + 2 ≤ n)
    (hedges : Older s.next l.edges) (hown : ∀ x ∈ own ctx, Older n x)
    (hwindow : Provides returns (own ctx) n m window names)
    (hnode : Yields returns [ctx.subject] m k nodeCalls more (nodeEntries.map Prod.snd))
    (hproperties : ∀ scope, (∀ x ∈ own ctx, x ∈ scope) →
      ∀ p ∈ properties, Refers returns scope p.2) :
    Provides returns [l.edges, l.total] s.next k
      [.call [l.edges] (unpackEdge ctx l.edges
          (({ s with next := s.next + 1 } : Supply).name "edge") ++ window ++ nodeCalls ++
        [edgesResult (nodeEntries ++ properties) typename (s.name "var")])] [s.name "var"] := by
  have hnew : ({ s with next := s.next + 1 } : Supply).name "edge" ≠ l.edges :=
    hedges.ne_name { s with next := s.next + 1 } (Nat.le_succ _) "edge" (by decide)
  have hunpacked : ∀ x, x ∈ ctx.subject :: ctx.relationship.toList ↔ x ∈ own ctx := by
    intro x
    simp only [own, List.mem_cons, List.mem_append, List.not_mem_nil, or_false]
    exact or_comm
  have hnode' : Provides returns (own ctx) m k nodeCalls more :=
    hnode.toProvides.of_needs (by simpa using subject_mem_own ctx)
  have hcalls := (hwindow.append hnode').runs (ctx.subject :: ctx.relationship.toList)
    (fun x hx => (hunpacked x).mpr hx)
    (Clear.of_older (fun x hx => hown x ((hunpacked x).mp hx)) _)
  have hscope : ∀ x ∈ own ctx,
      x ∈ ctx.subject :: ctx.relationship.toList ++ (names ++ more) :=
    fun x hx => List.mem_append_left _ ((hunpacked x).mpr hx)
  have hwithin : Within [s.name "var"] s.next k := by
    have := hwindow.le
    have := hnode'.le
    exact (Within.single s "var" (by decide)).mono (Nat.le_refl _) (by omega)
  refine .call hwithin (by simp) ?_
  rw [List.append_assoc (unpackEdge _ _ _)]
  refine .prepend ((runs_unpackEdge hnew).append hcalls) (gives_edgesResult typename _ ?_)
  intro p hp
  rcases List.mem_append.mp hp with hp | hp
  · exact hnode.refers _ (by simp)
      (fun x hx => List.mem_append_right _ (List.mem_append_right _ hx)) _ (List.mem_map_of_mem hp)
  · exact hproperties _ hscope p hp

theorem properties_ok {ctx : Context} (asked : Option (String × List EdgeField))
    {properties : List (String × Expr)}
    (h : (match asked with
      | none => pure []
      | some (key, fields) => do
          let e ← edgeProjection ctx fields
          pure [(key, e)] : Except Failure (List (String × Expr))) = .ok properties) :
    ∀ scope, (∀ x ∈ own ctx, x ∈ scope) → ∀ p ∈ properties, Refers returns scope p.2 := by
  intro scope hown p hp
  cases asked with
  | none =>
    simp only [pure, Except.pure, Except.ok.injEq] at h
    subst h
    simp at hp
  | some pair =>
    obtain ⟨key, fields⟩ := pair
    cases he : edgeProjection ctx fields with
    | error f => simp [he, bind, Except.bind] at h
    | ok e =>
      simp only [he, bind, Except.bind, pure, Except.pure, Except.ok.injEq] at h
      subst h
      rw [List.mem_singleton] at hp
      subst hp
      exact refers_edgeProjection (fun x hx => hown x (relationship_mem_own hx)) he

theorem branchProperties_ok {ctx : Context} {edgeFields : List EdgeField}
    {properties : List (String × Expr)}
    (h : (match ctx.relationship with
      | none => pure []
      | some _ => do
          let e ← edgeProjection ctx edgeFields
          pure [("properties", e)] : Except Failure (List (String × Expr))) = .ok properties) :
    ∀ scope, (∀ x ∈ own ctx, x ∈ scope) → ∀ p ∈ properties, Refers returns scope p.2 := by
  cases hrel : ctx.relationship with
  | none =>
    rw [hrel] at h
    exact properties_ok none h
  | some x =>
    rw [hrel] at h
    exact properties_ok (some ("properties", edgeFields)) h

mutual
theorem yields_item : ∀ (f : Field) (ctx : Context) {calls : List Clause} {item : MapItem Expr}
    {s t : Supply}, (∀ p ∈ f.parts, Sound returns p) → Older s.next ctx.subject →
    Field.item ctx f s = .ok ((calls, item), t) →
    ∃ names, Yields returns [ctx.subject] s.next t.next calls names (entryValues [item])
  | .stored key a, ctx, calls, item, s, t, hparts, hold, h => by
    simp only [Field.item, pure_ok, Prod.mk.injEq] at h
    obtain ⟨⟨rfl, rfl⟩, rfl⟩ := h
    refine ⟨[], (Yields.nil _ (Nat.le_refl _)).rewrap (storedItem_ne_star _ key a) ?_⟩
    intro scope hneeds _
    exact refers_storedItem key a (hneeds _ List.mem_cons_self)
  | .typename key typeName, ctx, calls, item, s, t, hparts, hold, h => by
    simp only [Field.item, pure_ok, Prod.mk.injEq] at h
    obtain ⟨⟨rfl, rfl⟩, rfl⟩ := h
    exact ⟨[], .inline (by simp [Expr.string]) (Nat.le_refl _) fun _ _ => .literal _⟩
  | .computed key a, ctx, calls, item, s, t, hparts, hold, h => by
    simp only [Field.item, bind_ok, fresh_ok, pure_ok, Prod.mk.injEq] at h
    obtain ⟨name, _, ⟨rfl, rfl⟩, call, u, hcall, ⟨rfl, rfl⟩, rfl⟩ := h
    have hhonest : Honest returns a :=
      (hparts (.field (.computed key a)) (by simp [Field.parts])).fits
    exact ⟨_, .ofProvides ((makes_computedCall ctx a hhonest hold).provides (by decide)
      (Nat.le_refl _) hcall)⟩
  | .lookup key l, ctx, calls, item, s, t, hparts, hold, h => by
    simp only [Field.item, bind_ok, pure_ok, Prod.mk.injEq] at h
    obtain ⟨⟨calls', e⟩, u, hcall, ⟨rfl, rfl⟩, rfl⟩ := h
    have hrelated : l.relationship?.isSome = true :=
      (hparts (.field (.lookup key l)) (by simp [Field.parts])).fits
    refine yields_nestedCall hold ?_ hcall
    intro inner u clauses v hopens hbody
    exact gives_lookupClauses l inner (fun p hp => hparts p (by simp [Field.parts, hp])) hopens
      (fun _ => hrelated) hbody
  | .aggregate key a, ctx, calls, item, s, t, hparts, hold, h => by
    simp only [Field.item, bind_ok, pure_ok, Prod.mk.injEq] at h
    obtain ⟨⟨calls', e⟩, u, hcall, ⟨rfl, rfl⟩, rfl⟩ := h
    have hrelated : a.scope.relationship.isSome = true :=
      (hparts (.field (.aggregate key a)) (by simp [Field.parts])).fits
    refine yields_nestedCall hold ?_ hcall
    intro inner u clauses v hopens hbody
    exact gives_aggregateClauses (hparts (.aggregate a) (by simp [Field.parts])).fits hopens
      (fun _ => hrelated) hbody
theorem yields_items : ∀ (fields : List Field) (ctx : Context) {calls : List Clause}
    {items : List (MapItem Expr)} {s t : Supply}, (∀ p ∈ Field.partsOf fields, Sound returns p) →
    Older s.next ctx.subject → Field.items ctx fields s = .ok ((calls, items), t) →
    ∃ names, Yields returns [ctx.subject] s.next t.next calls names (entryValues items)
  | [], ctx, calls, items, s, t, hparts, hold, h => by
    simp only [Field.items, pure_ok, Prod.mk.injEq] at h
    obtain ⟨⟨rfl, rfl⟩, rfl⟩ := h
    exact ⟨[], .nil _ (Nat.le_refl _)⟩
  | f :: rest, ctx, calls, items, s, t, hparts, hold, h => by
    simp only [Field.items, bind_ok, pure_ok, Prod.mk.injEq] at h
    obtain ⟨⟨first, item⟩, u, hfirst, ⟨more, items'⟩, v, hrest, ⟨rfl, rfl⟩, rfl⟩ := h
    obtain ⟨names, hyields⟩ :=
      yields_item f ctx (fun p hp => hparts p (by simp [Field.partsOf, hp])) hold hfirst
    obtain ⟨names', hyields'⟩ :=
      yields_items rest ctx (fun p hp => hparts p (by simp [Field.partsOf, hp]))
        (hold.mono hyields.le) hrest
    rw [entryValues_cons]
    exact ⟨names ++ names', hyields.append hyields'⟩
theorem gives_lookupClauses : ∀ (l : Lookup Field) (ctx : Context) {clauses : List Clause}
    {s t : Supply}, (∀ p ∈ Field.lookupParts l, Sound returns p) → Opens ctx s.next →
    Reached ctx l.relationship? → Field.lookupClauses ctx l s = .ok (clauses, t) →
    s.next ≤ t.next ∧ Gives returns (around ctx) clauses [ctx.result]
  | .read ⟨scope, fields, sort, page⟩, ctx, clauses, s, t, hparts, hopens, hreached, h => by
    simp only [Field.lookupClauses, bind_ok, pure_ok] at h
    obtain ⟨found, u, hfound, window, v, hwindow, ⟨calls, items⟩, w, hitems, rfl, rfl⟩ := h
    have hfits : Read.Fits (Honest returns) false ⟨scope, fields, sort, page⟩ :=
      (hparts _ List.mem_cons_self).fits
    obtain ⟨hle, after, hruns, hneeds, hafter⟩ :=
      reaches_distinctNodes hfits.scope hopens hreached hfound
    have hordered : ∃ names, Provides returns [ctx.subject] u.next v.next window names :=
      provides_arranged hfits.sort List.mem_cons_self (by simp) (hopens.subject.mono hle) hwindow
    obtain ⟨names, hprovides⟩ := hordered
    obtain ⟨names', hyields⟩ :=
      yields_items fields ctx (fun p hp => hparts p (List.mem_cons_of_mem _ hp))
        (hopens.subject.mono (Nat.le_trans hle hprovides.le)) hitems
    have hall := (Yields.quiet hprovides).append (hyields.projection List.mem_cons_self)
    refine ⟨Nat.le_trans hle hall.le, ?_⟩
    rw [List.append_assoc found]
    refine .prepend (hruns.append (hall.runs after hneeds (Clear.of_older hafter _)))
      (gives_readResult ?_ (by simp))
    exact hall.refers _ (fun x hx => List.mem_append_left _ (hneeds x hx))
      (fun x hx => List.mem_append_right after hx) _ List.mem_cons_self
  | .connection ⟨scope, sort, page, items⟩, ctx, clauses, s, t, hparts, hopens, hreached, h => by
    simp only [Field.lookupClauses, bind_ok, pure_ok] at h
    obtain ⟨found, u, hfound, ⟨collect, l⟩, v, hlist, ⟨calls, entries⟩, w, hentries, rfl, rfl⟩ := h
    have hfits := (hparts _ List.mem_cons_self).fits
    obtain ⟨hle, after, hruns, hown, hafter⟩ := reaches_scopeMatch hfits.1 hopens hreached hfound
    have hcollected : Collected returns u.next v.next l ∧ _ := collected_edgeList hlist
    obtain ⟨hcollected, rfl⟩ := hcollected
    have hlistOlder := hcollected.within.older
    obtain ⟨names, hyields⟩ := yields_entries items ctx l sort
      (fun p hp => hparts p (List.mem_cons_of_mem _ hp)) hfits.2 hcollected.bounds
      (hopens.mono (Nat.le_trans hle hcollected.le)) (hlistOlder _ (by simp)) hentries
    have hedge : Refers returns after (edgeMap ctx) := by
      refine .map ?_
      intro p hp
      rcases List.mem_cons.mp hp with rfl | hp
      · exact .var (hown _ (subject_mem_own ctx))
      · obtain ⟨r, hr, rfl⟩ := Option.map_eq_some_iff.mp (Option.mem_toList.mp hp)
        exact .var (hown r (relationship_mem_own hr))
    refine ⟨Nat.le_trans hle (Nat.le_trans hcollected.le hyields.le), ?_⟩
    rw [List.append_assoc _ calls]
    exact .prepend (hruns.append (runs_collectEdges _ _ hedge))
      ((yields_map hyields).gives ctx.result (fun x hx => hx) hlistOlder)
  | .composite ⟨composite, relationship, branches, sort, page⟩, ctx, clauses, s, t, hparts,
      hopens, hreached, h => by
    simp only [Field.lookupClauses, bind_ok, fresh_ok, lift_ok, pure_ok] at h
    obtain ⟨column, _, ⟨rfl, rfl⟩, columns, u, hcolumns, bodies, v, hbodies, union, _,
      ⟨hunion, rfl⟩, window, w, hwindow, rfl, rfl⟩ := h
    obtain ⟨hle, hwithin, hlength⟩ := within_sortColumns hcolumns
    simp only at hle hwithin
    have hpart := hparts _ List.mem_cons_self
    have hfits : ∀ b ∈ branches, b.Fits (Honest returns) false ∧
        b.scope.relationship = relationship ∧ b.sort.length = columns.length := by
      intro b hb
      obtain ⟨hb, hrel, hsort⟩ := hpart.fits b hb
      exact ⟨hb, hrel, hsort.trans hlength.symm⟩
    obtain ⟨hle₁, hsame, hbranch⟩ := branch_branches branches ctx
      (fun p hp => hparts p (List.mem_cons_of_mem _ hp)) hfits (hopens.mono (by omega)) hreached
      hbodies
    have hnew : Within (s.name "var" :: columns) s.next u.next :=
      ((Within.single s "var" (by decide)).mono (Nat.le_refl _) hle).append
        (hwithin.mono (Nat.le_succ _) (Nat.le_refl _))
    rcases unionCall_ok hunion with ⟨rfl, _⟩ | ⟨hne, rfl⟩
    · exact absurd (List.length_eq_zero_iff.mp hsame.symm) hpart.keeps
    · have hstep : Step returns (around ctx) (.call [] [.union bodies])
          (around ctx ++ s.name "var" :: columns) :=
        .union hne hbranch (hnew.fresh (Clear.of_older hopens.aroundOlder _))
      obtain ⟨hle₂, after, hruns, hmem⟩ := runs_mergedWindow
        (List.mem_append_right (around ctx) List.mem_cons_self)
        (fun x hx => List.mem_append_right _ (List.mem_cons_of_mem _ hx)) hwindow
      exact ⟨by omega, .cons hstep (.prepend hruns (gives_compositeResult hmem))⟩
  | .compositeConnection ⟨composite, relationship, branches, sort, page, items⟩, ctx, clauses, s,
      t, hparts, hopens, hreached, h => by
    simp only [Field.lookupClauses, bind_ok, fresh_ok, lift_ok, pure_ok] at h
    obtain ⟨column, _, ⟨rfl, rfl⟩, columns, u, hcolumns, bodies, v, hbodies, union, _,
      ⟨hunion, rfl⟩, ⟨collect, l⟩, w, hlist, ⟨calls, entries⟩, x, hentries, rfl, rfl⟩ := h
    obtain ⟨hle, _, _⟩ := within_sortColumns hcolumns
    simp only at hle
    have hpart := hparts _ List.mem_cons_self
    obtain ⟨hle₁, hbranch⟩ := branch_connectionBranches branches ctx
      (fun p hp => hparts p (List.mem_cons_of_mem _ hp)) hpart.fits (hopens.mono (by omega))
      hreached hbodies
    have hcollected : Collected returns v.next w.next l ∧ _ := collected_edgeList hlist
    obtain ⟨hcollected, rfl⟩ := hcollected
    have hlistOlder := hcollected.within.older
    have hmerged : ∃ names, Yields returns [l.edges, l.total] w.next x.next calls names
        (entries.map Prod.snd) :=
      yields_mergedEntries hcollected.bounds (hlistOlder _ (by simp)) hentries
    obtain ⟨names, hyields⟩ := hmerged
    have hnew : Fresh (around ctx) [s.name "var"] :=
      (Within.single s "var" (by decide)).fresh (Clear.of_older hopens.aroundOlder _)
    have hstep : Step returns (around ctx) union (around ctx ++ [s.name "var"]) := by
      rcases unionCall_ok hunion with ⟨_, rfl⟩ | ⟨hne, rfl⟩
      · exact .unwind (.list (by simp)) (by simpa [Fresh] using hnew)
      · exact .union hne hbranch hnew
    have hle₂ := hcollected.le
    have hle₃ := hyields.le
    refine ⟨by omega, ?_⟩
    rw [List.cons_append, List.cons_append, List.append_assoc]
    exact .cons hstep (.prepend (runs_collectEdges _ _ (.var (by simp)))
      ((yields_map hyields).gives ctx.result (fun x hx => hx) hlistOlder))
theorem yields_entries : ∀ (items : List (ConnectionItem Field)) (ctx : Context) (l : EdgeList)
    (sort : List SortKey) {edges : Bool} {calls : List Clause} {entries : List (String × Expr)}
    {s t : Supply}, (∀ p ∈ Field.itemParts items, Sound returns p) →
    (∀ key ∈ sort, key.target.Fits (Honest returns) edges) → l.bounds.All (Closed returns) →
    Opens ctx s.next → Older s.next l.edges →
    Field.entries ctx l sort items s = .ok ((calls, entries), t) →
    ∃ names, Yields returns [l.edges, l.total] s.next t.next calls names (entries.map Prod.snd)
  | [], ctx, l, sort, edges, calls, entries, s, t, hparts, hsort, hbounds, hopens, hold, h => by
    simp only [Field.entries, pure_ok, Prod.mk.injEq] at h
    obtain ⟨⟨rfl, rfl⟩, rfl⟩ := h
    exact ⟨[], .nil _ (Nat.le_refl _)⟩
  | .edges key node properties typename :: rest, ctx, l, sort, edges, calls, entries, s, t, hparts,
      hsort, hbounds, hopens, hold, h => by
    simp only [Field.entries, bind_ok, fresh_ok, lift_ok, pure_ok, Prod.mk.injEq] at h
    obtain ⟨result, _, ⟨rfl, rfl⟩, edge, _, ⟨rfl, rfl⟩, window, u, hwindow,
      ⟨nodeCalls, nodeEntries⟩, v, hnode, propertyEntries, _, ⟨hproperties, rfl⟩,
      ⟨more, entries'⟩, w, hrest, ⟨rfl, rfl⟩, rfl⟩ := h
    have hopens' : Opens ctx (s.next + 2) := hopens.mono (by omega)
    have hordered : ∃ names, Provides returns (own ctx) (s.next + 2) u.next window names :=
      provides_orderedWindow hsort hbounds (subject_mem_own ctx)
        (fun _ x hx => relationship_mem_own hx) hopens'.subject hwindow
    obtain ⟨names, hprovides⟩ := hordered
    obtain ⟨names', hyields⟩ := yields_nodeEntry node ctx
      (fun p hp => hparts p (by simp [Field.itemParts, hp])) (hopens'.subject.mono hprovides.le)
      hnode
    have hcall := provides_edgesCall typename (Nat.le_refl _) hold hopens'.ownOlder hprovides
      hyields (properties_ok properties hproperties)
    obtain ⟨names'', hyields'⟩ := yields_entries rest ctx l sort
      (fun p hp => hparts p (by simp [Field.itemParts, hp])) hsort hbounds (hopens.mono hcall.le)
      (hold.mono hcall.le) hrest
    exact ⟨_, (Yields.ofProvides hcall).append hyields'⟩
  | .aggregate key items :: rest, ctx, l, sort, edges, calls, entries, s, t, hparts, hsort, hbounds,
      hopens, hold, h => by
    simp only [Field.entries, bind_ok, pure_ok, Prod.mk.injEq] at h
    obtain ⟨⟨first, group⟩, u, hfirst, ⟨more, entries'⟩, v, hrest, ⟨rfl, rfl⟩, rfl⟩ := h
    have hmeasures : ∀ m, Makes returns [l.edges, l.total] s.next (edgeMeasureCall ctx l.edges m) :=
      fun m => makes_edgeMeasureCall m hold (by simp)
    obtain ⟨names, hyields⟩ := yields_aggregateEntries hmeasures items (Nat.le_refl _) hfirst
    obtain ⟨names', hyields'⟩ := yields_entries rest ctx l sort
      (fun p hp => hparts p (by simpa [Field.itemParts] using hp)) hsort hbounds
      (hopens.mono hyields.le) (hold.mono hyields.le) hrest
    exact ⟨names ++ names', (yields_map hyields).append hyields'⟩
  | .totalCount key :: rest, ctx, l, sort, edges, calls, entries, s, t, hparts, hsort, hbounds,
      hopens, hold, h => by
    simp only [Field.entries, bind_ok, pure_ok, Prod.mk.injEq] at h
    obtain ⟨⟨more, entries'⟩, v, hrest, ⟨rfl, rfl⟩, rfl⟩ := h
    obtain ⟨names, hyields⟩ := yields_entries rest ctx l sort
      (fun p hp => hparts p (by simpa [Field.itemParts] using hp)) hsort hbounds hopens hold hrest
    have htotal : Yields returns [l.edges, l.total] s.next s.next [] [] [.var l.total] :=
      .inline (by simp) (Nat.le_refl _) fun scope hneeds => .var (hneeds _ (by simp))
    exact ⟨names, htotal.append hyields⟩
  | .pageInfo key fields :: rest, ctx, l, sort, edges, calls, entries, s, t, hparts, hsort, hbounds,
      hopens, hold, h => by
    simp only [Field.entries, bind_ok, pure_ok, Prod.mk.injEq] at h
    obtain ⟨⟨more, entries'⟩, v, hrest, ⟨rfl, rfl⟩, rfl⟩ := h
    obtain ⟨names, hyields⟩ := yields_entries rest ctx l sort
      (fun p hp => hparts p (by simpa [Field.itemParts] using hp)) hsort hbounds hopens hold hrest
    exact ⟨names, (yields_pageInfo fields (Nat.le_refl _) hbounds (by simp)).append hyields⟩
  | .typename key typeName :: rest, ctx, l, sort, edges, calls, entries, s, t, hparts, hsort,
      hbounds, hopens, hold, h => by
    simp only [Field.entries, bind_ok, pure_ok, Prod.mk.injEq] at h
    obtain ⟨⟨more, entries'⟩, v, hrest, ⟨rfl, rfl⟩, rfl⟩ := h
    obtain ⟨names, hyields⟩ := yields_entries rest ctx l sort
      (fun p hp => hparts p (by simpa [Field.itemParts] using hp)) hsort hbounds hopens hold hrest
    have hname : Yields returns [l.edges, l.total] s.next s.next [] [] [.string typeName] :=
      .inline (by simp [Expr.string]) (Nat.le_refl _) fun _ _ => .literal _
    exact ⟨names, hname.append hyields⟩
theorem yields_nodeEntry : ∀ (node : Option (String × List Field)) (ctx : Context)
    {calls : List Clause} {entries : List (String × Expr)} {s t : Supply},
    (∀ p ∈ Field.nodeParts node, Sound returns p) → Older s.next ctx.subject →
    Field.nodeEntry ctx node s = .ok ((calls, entries), t) →
    ∃ names, Yields returns [ctx.subject] s.next t.next calls names (entries.map Prod.snd)
  | none, ctx, calls, entries, s, t, hparts, hold, h => by
    simp only [Field.nodeEntry, pure_ok, Prod.mk.injEq] at h
    obtain ⟨⟨rfl, rfl⟩, rfl⟩ := h
    exact ⟨[], .nil _ (Nat.le_refl _)⟩
  | some (key, fields), ctx, calls, entries, s, t, hparts, hold, h => by
    simp only [Field.nodeEntry, bind_ok, pure_ok, Prod.mk.injEq] at h
    obtain ⟨⟨calls', items⟩, u, hitems, ⟨rfl, rfl⟩, rfl⟩ := h
    obtain ⟨names, hyields⟩ :=
      yields_items fields ctx (fun p hp => hparts p (by simp [Field.nodeParts, hp])) hold hitems
    exact ⟨names, hyields.projection List.mem_cons_self⟩
theorem branch_branches : ∀ (branches : List (Read Field)) (ctx : Context) {column : String}
    {columns : List String} {relationship : Option Relationship} {isFirst : Bool}
    {bodies : List (List Clause)} {s t : Supply},
    (∀ p ∈ Field.branchParts branches, Sound returns p) →
    (∀ b ∈ branches, b.Fits (Honest returns) false ∧ b.scope.relationship = relationship ∧
      b.sort.length = columns.length) →
    Opens ctx s.next → Reached ctx relationship →
    Field.branches ctx column columns isFirst branches s = .ok (bodies, t) →
    s.next ≤ t.next ∧ bodies.length = branches.length ∧
      ∀ b ∈ bodies, Branch returns (around ctx) b (column :: columns)
  | [], ctx, column, columns, relationship, isFirst, bodies, s, t, hparts, hfits, hopens, hreached,
      h => by
    simp only [Field.branches, pure_ok] at h
    obtain ⟨rfl, rfl⟩ := h
    exact ⟨Nat.le_refl _, rfl, by simp⟩
  | ⟨scope, fields, sort, page⟩ :: rest, ctx, column, columns, relationship, isFirst, bodies, s, t,
      hparts, hfits, hopens, hreached, h => by
    simp only [Field.branches, bind_ok, pure_ok] at h
    obtain ⟨branch, s₁, hbranch, start, s₂, hstart, found, s₃, hfound, ⟨calls, items⟩, s₄, hitems,
      ⟨keyCalls, keys⟩, s₅, hkeys, more, s₆, hrest, rfl, rfl⟩ := h
    obtain ⟨hle, hbranchOpens, hbeside⟩ := opens_branchContext hopens hbranch
    obtain ⟨hown, hrelationship, hsort⟩ := hfits _ List.mem_cons_self
    simp only at hrelationship hsort
    obtain ⟨rfl, himport⟩ := importParent_ok returns hstart
    obtain ⟨hle₁, hreaches⟩ := reaches_distinctNodes hown.scope hbranchOpens
      (hrelationship ▸ hbeside.reached hreached) hfound
    obtain ⟨names, hyields⟩ := yields_items fields branch
      (fun p hp => hparts p (by simp [Field.branchParts, hp]))
      (hbranchOpens.subject.mono hle₁) hitems
    have hsorted : (∃ names, Yields returns [branch.subject] s₄.next s₅.next keyCalls names
        (keys.map Prod.snd)) ∧ (sort.length = columns.length → keys.map Prod.fst = columns) :=
      yields_branchKeys hown.sort List.mem_cons_self (by simp)
        (hbranchOpens.subject.mono (Nat.le_trans hle₁ hyields.le)) hkeys
    obtain ⟨⟨names', hyields'⟩, hcolumns⟩ := hsorted
    have hle₂ := hyields.le
    have hle₃ := hyields'.le
    obtain ⟨hle₄, hlength, hbranches⟩ := branch_branches rest ctx
      (fun p hp => hparts p (by simp [Field.branchParts, hp]))
      (fun b hb => hfits b (List.mem_cons_of_mem _ hb)) (hopens.mono (by omega)) hreached hrest
    refine ⟨by omega, by simp [hlength], ?_⟩
    intro b hb
    rcases List.mem_cons.mp hb with rfl | hb
    · have hbody : Gives returns (around branch) _ (column :: keys.map Prod.fst) :=
        gives_branchBody hreaches hyields hyields'
      rw [hcolumns hsort] at hbody
      have hwhole := himport _ _ hbody
      rw [hbeside.around] at hwhole
      simpa only [List.append_assoc] using hwhole
    · exact hbranches b hb
theorem branch_connectionBranches : ∀ (branches : List (ConnectionBranch Field)) (ctx : Context)
    {column : String} {columns : List String} {relationship : Option Relationship}
    {isFirst : Bool} {bodies : List (List Clause)} {s t : Supply},
    (∀ p ∈ Field.connectionBranchParts branches, Sound returns p) →
    (∀ b ∈ branches, b.read.Fits (Honest returns) relationship.isSome ∧
      b.read.scope.relationship = relationship) →
    Opens ctx s.next → Reached ctx relationship →
    Field.connectionBranches ctx column columns isFirst branches s = .ok (bodies, t) →
    s.next ≤ t.next ∧ ∀ b ∈ bodies, Branch returns (around ctx) b [column]
  | [], ctx, column, columns, relationship, isFirst, bodies, s, t, hparts, hfits, hopens, hreached,
      h => by
    simp only [Field.connectionBranches, pure_ok] at h
    obtain ⟨rfl, rfl⟩ := h
    exact ⟨Nat.le_refl _, by simp⟩
  | ⟨⟨scope, fields, sort, page⟩, edgeFields⟩ :: rest, ctx, column, columns, relationship, isFirst,
      bodies, s, t, hparts, hfits, hopens, hreached, h => by
    simp only [Field.connectionBranches, bind_ok, lift_ok, pure_ok] at h
    obtain ⟨branch, s₁, hbranch, start, s₂, hstart, found, s₃, hfound, ⟨calls, items⟩, s₄, hitems,
      properties, _, ⟨hproperties, rfl⟩, ⟨keyCalls, keys⟩, s₅, hkeys, more, s₆, hrest, rfl,
      rfl⟩ := h
    obtain ⟨hle, hbranchOpens, hbeside⟩ := opens_branchContext hopens hbranch
    obtain ⟨hown, hrelationship⟩ := hfits _ List.mem_cons_self
    simp only at hrelationship
    obtain ⟨rfl, himport⟩ := importParent_ok returns hstart
    obtain ⟨hle₁, hreaches⟩ := reaches_scopeMatch hown.scope hbranchOpens
      (hrelationship ▸ hbeside.reached hreached) hfound
    obtain ⟨names, hyields⟩ := yields_items fields branch
      (fun p hp => hparts p (by simp [Field.connectionBranchParts, hp]))
      (hbranchOpens.subject.mono hle₁) hitems
    have hsorted : (∃ names, Yields returns (own branch) s₄.next s₅.next keyCalls names
        (keys.map Prod.snd)) ∧ (sort.length = columns.length → keys.map Prod.fst = columns) :=
      yields_branchKeys hown.sort (subject_mem_own branch) (fun _ x hx => relationship_mem_own hx)
        (hbranchOpens.subject.mono (Nat.le_trans hle₁ hyields.le)) hkeys
    obtain ⟨⟨names', hyields'⟩, _⟩ := hsorted
    have hle₂ := hyields.le
    have hle₃ := hyields'.le
    obtain ⟨hle₄, hbranches⟩ := branch_connectionBranches rest ctx
      (fun p hp => hparts p (by simp [Field.connectionBranchParts, hp]))
      (fun b hb => hfits b (List.mem_cons_of_mem _ hb)) (hopens.mono (by omega)) hreached hrest
    refine ⟨by omega, ?_⟩
    intro b hb
    rcases List.mem_cons.mp hb with rfl | hb
    · have hbody : Gives returns (around branch) _ [column] :=
        gives_connectionBody hreaches hyields (branchProperties_ok hproperties) hyields'
      have hwhole := himport _ _ hbody
      rw [hbeside.around] at hwhole
      simpa only [List.append_assoc] using hwhole
    · exact hbranches b hb
end

end

end GraphSelection.Scoping
