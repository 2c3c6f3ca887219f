import GraphSelection.Program.Edges
import GraphSelection.Proofs.Ensured
import GraphSelection.Proofs.Scoped.Conditions

/-!
Scopes of the plan. A scope knows the node of the scope around it, if there is one, and finds its
own node and the edge that leads to it. Orders, pages and measures then speak of these.
-/
namespace GraphSelection.Scoping

open Cypher Plan Program Minting

/-- What a nested block is given: the node of the scope around. -/
def around (ctx : Context) : Names := ctx.parents.head?.toList

/-- What a scope finds: the edge that leads to its node, and the node. -/
def own (ctx : Context) : Names := ctx.relationship.toList ++ [ctx.subject]

/-- A context whose names have been drawn but not found yet. -/
structure Opens (ctx : Context) (n : Nat) : Prop where
  ownOlder : ∀ x ∈ own ctx, Older n x
  aroundOlder : ∀ x ∈ around ctx, Older n x
  fresh : Fresh (around ctx) (own ctx)
  rooted : ctx.relationship = none → ctx.parents = []

theorem Opens.mono {ctx : Context} {n m : Nat} (h : Opens ctx n) (hnm : n ≤ m) :
    Opens ctx m where
  ownOlder x hx := (h.ownOlder x hx).mono hnm
  aroundOlder x hx := (h.aroundOlder x hx).mono hnm
  fresh := h.fresh
  rooted := h.rooted

theorem subject_mem_own (ctx : Context) : ctx.subject ∈ own ctx := by
  simp [own]

theorem relationship_mem_own {ctx : Context} {x : String} (h : x ∈ ctx.relationship) :
    x ∈ own ctx := by
  simp only [own, List.mem_append, Option.mem_toList]
  exact .inl h

theorem Opens.subject {ctx : Context} {n : Nat} (h : Opens ctx n) : Older n ctx.subject :=
  h.ownOlder _ (subject_mem_own ctx)

theorem edge_ok {ctx : Context} {x : String} (h : ctx.edge = .ok x) :
    ctx.relationship = some x := by
  unfold Context.edge at h
  split at h
  · simp at h
  · rename_i hsome
    cases h
    exact hsome

theorem parent_ok {ctx : Context} {x : String} (h : ctx.parent = .ok x) : around ctx = [x] := by
  unfold Context.parent at h
  split at h
  · simp at h
  · rename_i hparents
    cases h
    simp [around, hparents]

section

variable {returns : String → Names}

/-- The lookup or aggregate goes over a relationship wherever there is an edge to find. -/
def Reached (ctx : Context) (relationship : Option Relationship) : Prop :=
  ctx.relationship.isSome = true → relationship.isSome = true

theorem scopePattern_ok {ctx : Context} {scope : Plan.Scope} {p : Pattern}
    (hreached : Reached ctx scope.relationship) (h : scopePattern ctx scope = .ok p) :
    found p = own ctx ∧ (∀ x ∈ startedFrom p, x ∈ around ctx) ∧
      (scope.relationship = none → ctx.relationship = none) := by
  unfold scopePattern at h
  cases hrel : scope.relationship with
  | none =>
    have hnone : ctx.relationship = none := by
      cases hctx : ctx.relationship with
      | none => rfl
      | some x => simp [Reached, hctx, hrel] at hreached
    simp only [hrel, Except.ok.injEq] at h
    subst h
    refine ⟨?_, ?_, fun _ => hnone⟩
    · simp [own, hnone, found, Pattern.node, NodePattern.named]
    · simp [startedFrom, Pattern.node]
  | some r =>
    cases hparent : ctx.parent with
    | error f => simp [hrel, hparent, bind, Except.bind] at h
    | ok parent =>
      cases hedge : ctx.edge with
      | error f => simp [hrel, hparent, hedge, bind, Except.bind] at h
      | ok edge =>
        simp only [hrel, hparent, hedge, bind, Except.bind, pure, Except.pure,
          Except.ok.injEq] at h
        subst h
        refine ⟨?_, ?_, by simp⟩
        · simp [own, edge_ok hedge, found_traversal]
        · intro x hx
          rw [startedFrom_traversal] at hx
          rw [parent_ok hparent]
          exact hx

/-- The nodes of a scope are matched, filtered and validated in what is around it. -/
theorem reaches_scopeMatch {ctx : Context} {scope : Plan.Scope} {edges : Bool}
    {clauses : List Clause} {s t : Supply} (hfits : scope.Fits (Honest returns) edges)
    (hopens : Opens ctx s.next) (hreached : Reached ctx scope.relationship)
    (h : scopeMatch ctx scope s = .ok (clauses, t)) :
    s.next ≤ t.next ∧ Reaches returns (around ctx) clauses (own ctx) t.next := by
  simp only [scopeMatch, bind_ok, lift_ok, pure_ok] at h
  obtain ⟨p, _, ⟨hpattern, rfl⟩, first, u, hfirst, checks, _, hchecks, rfl, rfl⟩ := h
  obtain ⟨hfound, hstart, _⟩ := scopePattern_ok hreached hpattern
  obtain ⟨hle, names, hnames, hruns⟩ := runs_filteredMatch hfits.filter hopens.subject hfirst
  obtain ⟨more, hprovides⟩ :=
    provides_validated hfits.validations (hopens.subject.mono hle) hchecks
  rw [hfound] at hruns
  have hbefore : ∀ x ∈ around ctx ++ own ctx, Older s.next x := by
    intro x hx
    rcases List.mem_append.mp hx with hx | hx
    · exact hopens.aroundOlder x hx
    · exact hopens.ownOlder x hx
  have hmatch := hruns (around ctx) hstart hopens.fresh
    (List.mem_append_right _ (subject_mem_own ctx))
    (fun _ x hx => List.mem_append_right _ (relationship_mem_own hx)) (Clear.of_older hbefore _)
  have hmatched : Reaches returns (around ctx) first (own ctx) u.next := by
    refine ⟨_, hmatch, ?_, ?_⟩
    · intro x hx
      exact List.mem_append_left names (List.mem_append_right _ hx)
    · intro x hx
      rcases List.mem_append.mp hx with hx | hx
      · exact (hbefore x hx).mono hle
      · exact hnames.older x hx
  exact ⟨Nat.le_trans hle hprovides.le,
    hmatched.append hprovides (by simpa using subject_mem_own ctx)⟩

/-- Where each node is wanted once, the edges are forgotten. -/
theorem reaches_distinctNodes {ctx : Context} {scope : Plan.Scope} {edges : Bool}
    {clauses : List Clause} {s t : Supply} (hfits : scope.Fits (Honest returns) edges)
    (hopens : Opens ctx s.next) (hreached : Reached ctx scope.relationship)
    (h : distinctNodes ctx scope s = .ok (clauses, t)) :
    s.next ≤ t.next ∧ Reaches returns (around ctx) clauses [ctx.subject] t.next := by
  simp only [distinctNodes, bind_ok] at h
  obtain ⟨found, u, hfound, h⟩ := h
  obtain ⟨hle, after, hruns, hown, holder⟩ := reaches_scopeMatch hfits hopens hreached hfound
  have hsubject := hown _ (subject_mem_own ctx)
  cases hrel : scope.relationship with
  | none =>
    simp only [hrel, pure_ok] at h
    obtain ⟨rfl, rfl⟩ := h
    exact ⟨hle, after, hruns, by simpa using hsubject, holder⟩
  | some r =>
    simp only [hrel, pure_ok] at h
    obtain ⟨rfl, rfl⟩ := h
    have hcarry : Step returns after (.carry [Column.var ctx.subject] true [] none none none)
        (exposed after [Column.var ctx.subject]) := by
      refine .carry true ?_ ?_ ?_ ?_ ?_
      · intro c hc
        rw [List.mem_singleton] at hc
        exact hc ▸ .var hsubject
      all_goals simp
    refine ⟨hle, _, hruns.snoc hcarry, ?_, ?_⟩
    · exact fun x hx => hx
    · intro x hx
      rw [List.mem_singleton.mp hx]
      exact holder _ hsubject

theorem countParam_next {count : Option Nat} {e : Option Expr} {s t : Supply}
    (h : countParam count s = .ok (e, t)) : s.next ≤ t.next := by
  cases count with
  | none =>
    simp only [countParam, pure_ok] at h
    exact h.2 ▸ Nat.le_refl _
  | some n =>
    simp only [countParam, bind_ok, param_ok, pure_ok] at h
    obtain ⟨_, _, ⟨_, rfl⟩, _, rfl⟩ := h
    exact Nat.le_succ _

/-- The bounds of a page refer to no name. -/
theorem closed_bounds (returns : String → Names) {page : Page} {b : Bounds} {s t : Supply}
    (h : bounds page s = .ok (b, t)) : s.next ≤ t.next ∧ b.All (Closed returns) := by
  have hclosed : b.All (Closed returns) :=
    (ensures_bounds (fun x scope => .param x) page).run s b t h
  simp only [bounds, bind_ok, pure_ok] at h
  obtain ⟨_, u, hskip, _, v, hlimit, _, rfl⟩ := h
  exact ⟨Nat.le_trans (countParam_next hskip) (countParam_next hlimit), hclosed⟩

section Sorting

variable {ctx : Context} {edges : Bool} {needs : Names} {s t : Supply}

theorem yields_sortValue {key : SortKey} {calls : List Clause} {e : Expr}
    (hfits : key.target.Fits (Honest returns) edges) (hsubject : ctx.subject ∈ needs)
    (hedge : edges = true → ∀ x ∈ ctx.relationship, x ∈ needs) (hold : Older s.next ctx.subject)
    (h : sortValue ctx key s = .ok ((calls, e), t)) :
    ∃ names, Yields returns needs s.next t.next calls names [e] := by
  unfold sortValue at h
  cases htarget : key.target with
  | node a =>
    simp only [htarget, pure_ok, Prod.mk.injEq] at h
    obtain ⟨⟨rfl, rfl⟩, rfl⟩ := h
    exact ⟨[], .inline (by simp [Expr.propertyOf]) (Nat.le_refl _) fun scope hneeds =>
      refers_propertyOf _ (hneeds _ hsubject)⟩
  | edge a =>
    simp only [htarget, bind_ok, lift_ok, pure_ok, Prod.mk.injEq] at h
    obtain ⟨x, _, ⟨hx, rfl⟩, ⟨rfl, rfl⟩, rfl⟩ := h
    rw [htarget] at hfits
    exact ⟨[], .inline (by simp [Expr.propertyOf]) (Nat.le_refl _) fun scope hneeds =>
      refers_propertyOf _ (hneeds _ (hedge hfits x (edge_ok hx)))⟩
  | computed a =>
    simp only [htarget, bind_ok, fresh_ok, pure_ok, Prod.mk.injEq] at h
    obtain ⟨name, _, ⟨rfl, rfl⟩, call, u, hcall, ⟨rfl, rfl⟩, rfl⟩ := h
    rw [htarget] at hfits
    have hprovides : Provides returns [ctx.subject] s.next u.next [call] [s.name "var"] :=
      (makes_computedCall ctx a hfits hold).provides (by decide) (Nat.le_refl _) hcall
    refine ⟨_, .ofProvides (hprovides.of_needs ?_)⟩
    intro x hx
    rw [List.mem_singleton] at hx
    exact hx ▸ hsubject

theorem yields_sortValues {sort : List SortKey} {calls : List Clause}
    {keys : List (OrderKey Expr)} (hfits : ∀ key ∈ sort, key.target.Fits (Honest returns) edges)
    (hsubject : ctx.subject ∈ needs) (hedge : edges = true → ∀ x ∈ ctx.relationship, x ∈ needs)
    (hold : Older s.next ctx.subject) (h : sortValues ctx sort s = .ok ((calls, keys), t)) :
    (∃ names, Yields returns needs s.next t.next calls names (keys.map OrderKey.expression)) ∧
      keys.length = sort.length := by
  induction sort generalizing s calls keys with
  | nil =>
    simp only [sortValues, pure_ok, Prod.mk.injEq] at h
    obtain ⟨⟨rfl, rfl⟩, rfl⟩ := h
    exact ⟨⟨[], .nil _ (Nat.le_refl _)⟩, rfl⟩
  | cons key rest ih =>
    simp only [sortValues, bind_ok, pure_ok, Prod.mk.injEq] at h
    obtain ⟨⟨first, e⟩, u, hfirst, ⟨more, keys'⟩, v, hrest, ⟨rfl, rfl⟩, rfl⟩ := h
    obtain ⟨names, hyields⟩ :=
      yields_sortValue (hfits key List.mem_cons_self) hsubject hedge hold hfirst
    obtain ⟨⟨names', hyields'⟩, hlength⟩ :=
      ih (fun k hk => hfits k (List.mem_cons_of_mem key hk)) (hold.mono hyields.le) hrest
    exact ⟨⟨names ++ names', hyields.append hyields'⟩, by simp [hlength]⟩

theorem provides_orderedWindow {sort : List SortKey} {b : Bounds} {clauses : List Clause}
    (hfits : ∀ key ∈ sort, key.target.Fits (Honest returns) edges) (hb : b.All (Closed returns))
    (hsubject : ctx.subject ∈ needs) (hedge : edges = true → ∀ x ∈ ctx.relationship, x ∈ needs)
    (hold : Older s.next ctx.subject) (h : orderedWindow ctx sort b s = .ok (clauses, t)) :
    ∃ names, Provides returns needs s.next t.next clauses names := by
  unfold orderedWindow at h
  split at h
  · rw [pure_ok] at h
    obtain ⟨rfl, rfl⟩ := h
    exact ⟨[], .nil _ (Nat.le_refl _)⟩
  · simp only [bind_ok, pure_ok] at h
    obtain ⟨⟨calls, keys⟩, u, hkeys, rfl, rfl⟩ := h
    obtain ⟨⟨names, hyields⟩, _⟩ := yields_sortValues hfits hsubject hedge hold hkeys
    refine ⟨names, hyields.le, hyields.within, ?_⟩
    intro scope hneeds hclear
    refine (hyields.runs scope hneeds hclear).snoc (step_window ?_ ?_ ?_)
    · intro k hk
      exact hyields.refers _ (fun x hx => List.mem_append_left names (hneeds x hx))
        (fun x hx => List.mem_append_right scope hx) _ (List.mem_map_of_mem hk)
    · exact fun e he => hb.skip e he _
    · exact fun e he => hb.limit e he _

theorem provides_arranged {sort : List SortKey} {page : Page} {clauses : List Clause}
    (hfits : ∀ key ∈ sort, key.target.Fits (Honest returns) edges)
    (hsubject : ctx.subject ∈ needs) (hedge : edges = true → ∀ x ∈ ctx.relationship, x ∈ needs)
    (hold : Older s.next ctx.subject) (h : arranged ctx sort page s = .ok (clauses, t)) :
    ∃ names, Provides returns needs s.next t.next clauses names := by
  unfold arranged at h
  split at h
  · rw [pure_ok] at h
    obtain ⟨rfl, rfl⟩ := h
    exact ⟨[], .nil _ (Nat.le_refl _)⟩
  · rw [bind_ok] at h
    obtain ⟨b, u, hb, h⟩ := h
    obtain ⟨hle, hclosed⟩ := closed_bounds returns hb
    obtain ⟨names, hprovides⟩ :=
      provides_orderedWindow hfits hclosed hsubject hedge (hold.mono hle) h
    exact ⟨names, hprovides.widen hle (Nat.le_refl _)⟩

end Sorting

theorem makes_measureCall {ctx : Context} {scope : Plan.Scope} {n : Nat} (m : Measure)
    (hfits : scope.Fits (Honest returns) false) (hopens : Opens ctx n)
    (hreached : Reached ctx scope.relationship) :
    Makes returns (around ctx) n (measureCall ctx scope m) := by
  intro name s clause t hn h
  simp only [measureCall, bind_ok, lift_ok, pure_ok] at h
  obtain ⟨imports, _, ⟨himports, rfl⟩, found, u, hfound, reduced, _, ⟨hreduced, rfl⟩, rfl, rfl⟩ := h
  have hpattern : ∃ p, scopePattern ctx scope = .ok p := by
    simp only [scopeMatch, bind_ok, lift_ok] at hfound
    obtain ⟨p, _, ⟨hp, _⟩, _⟩ := hfound
    exact ⟨p, hp⟩
  obtain ⟨p, hp⟩ := hpattern
  obtain ⟨_, _, hroot⟩ := scopePattern_ok hreached hp
  have haround : imports = around ctx := by
    cases hrel : scope.relationship with
    | none =>
      simp only [hrel, pure, Except.pure, Except.ok.injEq] at himports
      subst himports
      simp [around, hopens.rooted (hroot hrel)]
    | some r =>
      cases hparent : ctx.parent with
      | error f => simp [hrel, hparent, bind, Except.bind] at himports
      | ok parent =>
        simp only [hrel, hparent, bind, Except.bind, pure, Except.pure, Except.ok.injEq] at himports
        subst himports
        exact (parent_ok hparent).symm
  subst haround
  obtain ⟨hle, after, hruns, hown, _⟩ := reaches_scopeMatch hfits (hopens.mono hn) hreached hfound
  have hreduces : Runs returns after reduced.1 after ∧ Refers returns after reduced.2 :=
    runs_measured hreduced (hown _ (subject_mem_own ctx))
      (fun x hx => hown x (relationship_mem_own hx))
  refine ⟨hle, _, _, rfl, fun x hx => hx, ?_⟩
  exact .prepend (hruns.append hreduces.1)
    (gives_give name hreduces.2 (reduced_ne_star hreduced))

section Aggregates

variable {needs : Names} {n : Nat} {call : Measure → String → Build Clause}

/-- The call of a measure, or what is under a key. -/
theorem yields_map {entries : List (String × Expr)} {clauses : List Clause} {names : Names}
    {m k : Nat} (h : Yields returns needs m k clauses names (entries.map Prod.snd)) :
    Yields returns needs m k clauses names [.map entries] := by
  refine h.rewrap (by simp) ?_
  intro scope _ hrefers e he
  rw [List.mem_singleton] at he
  subst he
  refine .map ?_
  intro p hp
  exact hrefers _ (List.mem_map_of_mem hp)

mutual
theorem yields_aggregateEntry (hcall : ∀ m, Makes returns needs n (call m)) :
    ∀ (item : AggregateItem) {calls : List Clause} {entry : String × Expr} {s t : Supply},
      n ≤ s.next → aggregateEntry call item s = .ok ((calls, entry), t) →
      ∃ names, Yields returns needs s.next t.next calls names [entry.2]
  | .measure key m, calls, entry, s, t, hn, h => by
    simp only [aggregateEntry, bind_ok, fresh_ok, pure_ok, Prod.mk.injEq] at h
    obtain ⟨name, _, ⟨rfl, rfl⟩, clause, u, hclause, ⟨rfl, rfl⟩, rfl⟩ := h
    exact ⟨_, .ofProvides ((hcall m).provides (by decide) hn hclause)⟩
  | .group key items, calls, entry, s, t, hn, h => by
    simp only [aggregateEntry, bind_ok, pure_ok, Prod.mk.injEq] at h
    obtain ⟨⟨calls', entries⟩, u, hitems, ⟨rfl, rfl⟩, rfl⟩ := h
    obtain ⟨names, hyields⟩ := yields_aggregateEntries hcall items hn hitems
    exact ⟨names, yields_map hyields⟩
  | .typename key typeName, calls, entry, s, t, hn, h => by
    simp only [aggregateEntry, pure_ok, Prod.mk.injEq] at h
    obtain ⟨⟨rfl, rfl⟩, rfl⟩ := h
    exact ⟨[], .inline (by simp [Expr.string]) (Nat.le_refl _) fun scope _ => .literal _⟩
theorem yields_aggregateEntries (hcall : ∀ m, Makes returns needs n (call m)) :
    ∀ (items : List AggregateItem) {calls : List Clause} {entries : List (String × Expr)}
      {s t : Supply}, n ≤ s.next → aggregateEntries call items s = .ok ((calls, entries), t) →
      ∃ names, Yields returns needs s.next t.next calls names (entries.map Prod.snd)
  | [], calls, entries, s, t, hn, h => by
    simp only [aggregateEntries, pure_ok, Prod.mk.injEq] at h
    obtain ⟨⟨rfl, rfl⟩, rfl⟩ := h
    exact ⟨[], .nil _ (Nat.le_refl _)⟩
  | item :: rest, calls, entries, s, t, hn, h => by
    simp only [aggregateEntries, bind_ok, pure_ok, Prod.mk.injEq] at h
    obtain ⟨⟨first, entry⟩, u, hfirst, ⟨more, entries'⟩, v, hrest, ⟨rfl, rfl⟩, rfl⟩ := h
    obtain ⟨names, hyields⟩ := yields_aggregateEntry hcall item hn hfirst
    obtain ⟨names', hyields'⟩ :=
      yields_aggregateEntries hcall rest (Nat.le_trans hn hyields.le) hrest
    exact ⟨names ++ names', hyields.append hyields'⟩
end

end Aggregates

/-- Calls and then a `RETURN` of what they yield. -/
theorem Yields.gives {needs names : Names} {n m : Nat} {clauses : List Clause} {e : Expr}
    {scope : Names} (h : Yields returns needs n m clauses names [e]) (result : String)
    (hneeds : ∀ x ∈ needs, x ∈ scope) (hscope : ∀ x ∈ scope, Older n x) :
    Gives returns scope (clauses ++ [.give e result]) [result] := by
  refine .prepend (h.runs scope hneeds (Clear.of_older hscope _)) (gives_give result ?_ ?_)
  · exact h.refers _ (fun x hx => List.mem_append_left names (hneeds x hx))
      (fun x hx => List.mem_append_right scope hx) e List.mem_cons_self
  · exact h.notStar e List.mem_cons_self

theorem gives_aggregateClauses {ctx : Context} {a : Aggregate} {clauses : List Clause}
    {s t : Supply} (hfits : a.scope.Fits (Honest returns) false) (hopens : Opens ctx s.next)
    (hreached : Reached ctx a.scope.relationship)
    (h : aggregateClauses ctx a s = .ok (clauses, t)) :
    s.next ≤ t.next ∧ Gives returns (around ctx) clauses [ctx.result] := by
  simp only [aggregateClauses, bind_ok, pure_ok] at h
  obtain ⟨⟨calls, entries⟩, u, hentries, rfl, rfl⟩ := h
  obtain ⟨names, hyields⟩ := yields_aggregateEntries
    (fun m => makes_measureCall m hfits hopens hreached) a.items (Nat.le_refl _) hentries
  exact ⟨hyields.le,
    (yields_map hyields).gives ctx.result (fun x hx => hx) hopens.aroundOlder⟩

section Edges

variable {ctx : Context}

theorem runs_unpackEdge {edges edge : String} (hnew : edge ≠ edges) :
    Runs returns [edges] (unpackEdge ctx edges edge) (ctx.subject :: ctx.relationship.toList) := by
  refine .cons (.unwind (.var List.mem_cons_self) (by simpa using hnew))
    (.single (step_carryOnly ?_ ?_))
  · intro c hc
    rcases List.mem_cons.mp hc with rfl | hc
    · exact refers_propertyOf _ (by simp)
    · obtain ⟨r, _, rfl⟩ := Option.map_eq_some_iff.mp (Option.mem_toList.mp hc)
      exact refers_propertyOf _ (by simp)
  · cases ctx.relationship <;> rfl

theorem makes_edgeMeasureCall {needs : Names} {edges : String} {n : Nat} (m : Measure)
    (hold : Older n edges) (hneeds : edges ∈ needs) :
    Makes returns needs n (edgeMeasureCall ctx edges m) := by
  intro name s clause t hn h
  simp only [edgeMeasureCall, bind_ok, fresh_ok, lift_ok, pure_ok] at h
  obtain ⟨edge, _, ⟨rfl, rfl⟩, reduced, _, ⟨hreduced, rfl⟩, rfl, rfl⟩ := h
  have hnew : s.name "edge" ≠ edges := hold.ne_name s hn "edge" (by decide)
  have hreduces : Runs returns (ctx.subject :: ctx.relationship.toList) reduced.1
      (ctx.subject :: ctx.relationship.toList) ∧
      Refers returns (ctx.subject :: ctx.relationship.toList) reduced.2 :=
    runs_measured hreduced List.mem_cons_self
      (fun x hx => List.mem_cons_of_mem _ (Option.mem_toList.mpr hx))
  refine ⟨Nat.le_succ _, _, _, rfl, by simpa using hneeds, ?_⟩
  exact .prepend ((runs_unpackEdge hnew).append hreduces.1)
    (gives_give name hreduces.2 (reduced_ne_star hreduced))

/-- An edge list and its length, under new names. -/
structure Collected (returns : String → Names) (n m : Nat) (l : EdgeList) : Prop where
  le : n ≤ m
  within : Within [l.edges, l.total] n m
  bounds : l.bounds.All (Closed returns)

theorem runs_collectEdges {scope : Names} {e : Expr} (edges total : String)
    (h : Refers returns scope e) :
    Runs returns scope (collectEdges e edges total) [edges, total] := by
  have hcollect : Step returns scope
      (.carryOnly [Column.named (.apply "collect" [e]) edges]) [edges] := by
    refine step_carryOnly ?_ rfl
    intro c hc
    rw [List.mem_singleton] at hc
    exact hc ▸ refers_apply _ h
  refine .cons hcollect (.single (step_carryOnly ?_ rfl))
  · intro c hc
    simp only [List.mem_cons, List.not_mem_nil, or_false] at hc
    rcases hc with rfl | rfl
    · exact .var List.mem_cons_self
    · exact refers_apply _ (.var List.mem_cons_self)

theorem collected_edgeList {φ : Type} {e : Expr} {items : List (ConnectionItem φ)} {page : Page}
    {clauses : List Clause} {l : EdgeList} {s t : Supply}
    (h : edgeList e items page s = .ok ((clauses, l), t)) :
    Collected returns s.next t.next l ∧ clauses = collectEdges e l.edges l.total := by
  have hparts : ∃ b u, (s.next + 2 ≤ t.next ∧ b.All (Closed returns)) ∧
      l = { edges := s.name "edges", total := u, bounds := b } ∧
      u = ({ s with next := s.next + 1 } : Supply).name "totalCount" ∧
      clauses = collectEdges e l.edges l.total := by
    unfold edgeList at h
    split at h
    · simp only [bind_ok, fresh_ok, pure_ok, Prod.mk.injEq] at h
      obtain ⟨_, _, ⟨rfl, rfl⟩, _, _, ⟨rfl, rfl⟩, b, v, hb, ⟨rfl, rfl⟩, rfl⟩ := h
      obtain ⟨hle, hclosed⟩ := closed_bounds returns hb
      exact ⟨b, _, ⟨hle, hclosed⟩, rfl, rfl, rfl⟩
    · simp only [bind_ok, fresh_ok, pure_ok, Prod.mk.injEq] at h
      obtain ⟨_, _, ⟨rfl, rfl⟩, _, _, ⟨rfl, rfl⟩, b, v, ⟨rfl, rfl⟩, ⟨rfl, rfl⟩, rfl⟩ := h
      exact ⟨_, _, ⟨Nat.le_refl _, Bounds.all_whole⟩, rfl, rfl, rfl⟩
  obtain ⟨b, u, ⟨hle, hclosed⟩, rfl, rfl, hclauses⟩ := hparts
  refine ⟨⟨by omega, ?_, hclosed⟩, hclauses⟩
  exact (Within.pair s (by decide) (by decide)).mono (Nat.le_refl _) hle

theorem refers_pageInfo {l : EdgeList} {scope : Names} (f : PageInfoField)
    (hbounds : l.bounds.All (Closed returns)) (htotal : l.total ∈ scope) :
    Refers returns scope (l.pageInfo f).2 := by
  cases f with
  | hasNextPage key =>
    simp only [EdgeList.pageInfo, EdgeList.hasNextPage]
    cases hlimit : l.bounds.limit with
    | none => exact .literal _
    | some limit =>
      have hclosed := hbounds.limit limit hlimit
      cases hskip : l.bounds.skip with
      | none => exact .binary _ (hclosed scope) (.var htotal)
      | some skip =>
        exact .binary _ (.binary _ (hbounds.skip skip hskip scope) (hclosed scope)) (.var htotal)
  | hasPreviousPage key =>
    simp only [EdgeList.pageInfo, EdgeList.hasPreviousPage]
    cases hskip : l.bounds.skip with
    | none => exact .literal _
    | some skip => exact .binary _ (hbounds.skip skip hskip scope) (.literal _)
  | typename key => exact .literal _

end Edges

end

end GraphSelection.Scoping
