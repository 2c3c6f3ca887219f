import GraphSelection.Compile
import GraphSelection.Proofs.Scoped.Fields

/-!
Changes. A nested change is a block that is given the node it hangs on; what it finds and makes in
there is forgotten, and a count comes back. The induction is over the nested changes, with what is
known after everything that was written so far.
-/
namespace GraphSelection.Scoping

open Cypher Plan Program Minting

section

variable {returns : String → Names}

theorem provides_assigned {name : String} {assignments : List Assignment} {clauses : List Clause}
    {s t : Supply} (h : assigned name assignments s = .ok (clauses, t)) :
    Provides returns [name] s.next t.next clauses [] := by
  have hpairs : ∀ (assignments : List Assignment) {pairs : List (Expr × Expr)} {s t : Supply},
      assignmentList name assignments s = .ok (pairs, t) →
      s.next ≤ t.next ∧ ∀ p ∈ pairs, (∃ key, p.1 = .propertyOf name key) ∧ Closed returns p.2 := by
    intro assignments
    induction assignments with
    | nil =>
      intro pairs s t h
      simp only [assignmentList, pure_ok] at h
      obtain ⟨rfl, rfl⟩ := h
      exact ⟨Nat.le_refl _, by simp⟩
    | cons a rest ih =>
      intro pairs s t h
      simp only [assignmentList, Program.assignment, bind_ok, pure_ok] at h
      obtain ⟨_, u, ⟨value, _, hvalue, rfl, rfl⟩, more, v, hrest, rfl, rfl⟩ := h
      obtain ⟨hnext, hclosed⟩ := closed_typedParam returns hvalue
      obtain ⟨hle, hmore⟩ := ih hrest
      refine ⟨by omega, ?_⟩
      intro p hp
      rcases List.mem_cons.mp hp with rfl | hp
      · exact ⟨⟨_, rfl⟩, hclosed⟩
      · exact hmore p hp
  simp only [assigned, bind_ok, pure_ok] at h
  obtain ⟨pairs, u, hlist, rfl, rfl⟩ := h
  obtain ⟨hle, hrefers⟩ := hpairs assignments hlist
  refine ⟨hle, .nil _ _, ?_⟩
  intro scope hneeds _
  rw [List.append_nil]
  split
  · exact .nil
  · refine .single (.set ?_ ?_)
    · intro p hp
      obtain ⟨⟨key, hkey⟩, _⟩ := hrefers p hp
      exact hkey ▸ refers_propertyOf _ (hneeds name List.mem_cons_self)
    · intro p hp
      exact (hrefers p hp).2 scope

/-- Nodes that are found from scratch, or over a relationship from a known node. -/
theorem reaches_filteredMatch {ctx : Context} {edges : Bool} {pattern : Pattern}
    {filter : Option Condition} {scope : Names} {clauses : List Clause} {s t : Supply}
    (hfits : ∀ c ∈ filter, c.Fits (Honest returns) edges)
    (hold : ∀ x ∈ scope ++ found pattern, Older s.next x)
    (hstart : ∀ x ∈ startedFrom pattern, x ∈ scope) (hnew : Fresh scope (found pattern))
    (hsubject : ctx.subject ∈ found pattern)
    (hedge : edges = true → ∀ x ∈ ctx.relationship, x ∈ found pattern)
    (h : filteredMatch pattern filter ctx s = .ok (clauses, t)) :
    s.next ≤ t.next ∧ Reaches returns scope clauses (scope ++ found pattern) t.next := by
  have hmem := List.mem_append_right scope hsubject
  obtain ⟨hle, names, hnames, hruns⟩ := runs_filteredMatch hfits (hold _ hmem) h
  refine ⟨hle, _, hruns scope hstart hnew hmem
    (fun hedges x hx => List.mem_append_right scope (hedge hedges x hx)) (Clear.of_older hold _),
    fun x hx => List.mem_append_left names hx, ?_⟩
  intro x hx
  rcases List.mem_append.mp hx with hx | hx
  · exact (hold x hx).mono hle
  · exact hnames.older x hx

theorem provides_counted {ctx : Context} {body : List Clause} {needs : Names} {result : String}
    {n m k : Nat} (hresult : Within [result] n m)
    (h : Reaches returns [ctx.subject] body needs k) :
    Provides returns [ctx.subject] n m [counted ctx body result] [result] := by
  obtain ⟨after, hruns, _⟩ := h
  exact .call hresult (fun x hx => hx)
    (.prepend hruns (gives_give result (refers_apply _ .star) (by simp)))

/-- The names that a nested change draws: for the edge, for the node and for the count. -/
structure Drawn (ctx : Context) (s : Supply) (edge node result : String) : Prop where
  own : Within [edge, node] s.next (s.next + 2)
  result : Within [result] s.next (s.next + 3)
  subject : Older s.next ctx.subject
  distinct : edge ≠ node

namespace Drawn

variable {ctx : Context} {s : Supply} {edge node result : String}

theorem intro (hedge : s.name "this" = edge)
    (hnode : ({ s with next := s.next + 1 } : Supply).name "this" = node)
    (hresult : ({ s with next := s.next + 1 + 1 } : Supply).name "var" = result)
    (hold : Older s.next ctx.subject) : Drawn ctx s edge node result := by
  subst hedge hnode hresult
  refine ⟨?_, ?_, hold, ?_⟩
  · exact Within.pair s (by decide) (by decide)
  · exact (Within.single { s with next := s.next + 1 + 1 } "var" (by decide)).mono
      (by simp only; omega) (by simp)
  · intro heq
    have hfirst := minted_name s "this" (by decide)
    have hsecond := minted_name { s with next := s.next + 1 } "this" (by decide)
    have := hfirst.unique (heq ▸ hsecond)
    simp at this

theorem older (h : Drawn ctx s edge node result) :
    ∀ x ∈ [ctx.subject, edge, node], Older (s.next + 3) x := by
  intro x hx
  rcases List.mem_cons.mp hx with rfl | hx
  · exact h.subject.mono (by omega)
  · exact (h.own.older x hx).mono (by omega)

theorem fresh (h : Drawn ctx s edge node result) : Fresh [ctx.subject] [edge, node] := by
  refine h.own.fresh (Clear.of_older ?_ _)
  intro x hx
  rw [List.mem_singleton] at hx
  exact hx ▸ h.subject

end Drawn

theorem step_createNode {scope : Names} {x : String} (e : Entity) (h : x ∉ scope) :
    Step returns scope (.create (labelled x e)) (scope ++ [x]) := by
  refine .create ?_ ?_
  · simp [joined, labelled, Pattern.node]
  · simpa [Fresh, made, labelled, Pattern.node, NodePattern.named] using h

theorem joined_connection (start edge stop : String) (r : Relationship) :
    joined (connection start r edge stop) = [start, stop] := rfl

theorem made_connection (start edge stop : String) (r : Relationship) :
    made (connection start r edge stop) = [edge] := rfl

/-- The nodes that a relationship of the node at hand leads to. -/
theorem reaches_linkedNodes {ctx : Context} {s u t : Supply} {edge node result : String}
    {link : Link} {filter : Option Condition} {clauses : List Clause}
    (hdrawn : Drawn ctx s edge node result) (hu : s.next + 3 ≤ u.next)
    (hfits : ∀ c ∈ filter, c.Fits (Honest returns) true)
    (h : linkedNodes ctx (ctx.enter node (some edge) result) link filter u = .ok (clauses, t)) :
    u.next ≤ t.next ∧ Reaches returns [ctx.subject] clauses [ctx.subject, edge, node] t.next := by
  simp only [linkedNodes, bind_ok, lift_ok] at h
  obtain ⟨edge', _, ⟨hedge, rfl⟩, h⟩ := h
  cases hedge
  refine reaches_filteredMatch hfits ?_ ?_ hdrawn.fresh ?_ ?_ h
  · exact fun x hx => (hdrawn.older x hx).mono hu
  · exact fun x hx => hx
  · simp [found_traversal, Context.enter]
  · intro _ x hx
    cases hx
    simp [found_traversal]

theorem provides_delete {x : String} (detach : Bool) (n : Nat) :
    Provides returns [x] n n [.delete detach [x]] [] where
  le := Nat.le_refl n
  within := .nil n n
  runs scope hneeds _ := by
    rw [List.append_nil]
    exact .single (.delete detach hneeds)

theorem runs_assigned (returns : String → Names) {name : String}
    {assignments : List Assignment} {clauses : List Clause} {scope : Names} {s t : Supply}
    (h : assigned name assignments s = .ok (clauses, t))
    (hname : name ∈ scope) (hscope : ∀ x ∈ scope, Older s.next x) :
    s.next ≤ t.next ∧ Runs returns scope clauses scope := by
  have hprovides : Provides returns [name] s.next t.next clauses [] := provides_assigned h
  have hruns := hprovides.runs scope (by simpa using hname) (Clear.of_older hscope _)
  rw [List.append_nil] at hruns
  exact ⟨hprovides.le, hruns⟩

/-- A new node, and a new edge to it, with the values of both. -/
theorem reaches_created {ctx : Context} {s u₀ u₁ u₂ : Supply} {edge node result : String}
    {link : Link} {assignments edgeAssignments : List Assignment} {own onEdge : List Clause}
    (hdrawn : Drawn ctx s edge node result) (hu : s.next + 3 ≤ u₀.next)
    (hown : assigned node assignments u₀ = .ok (own, u₁))
    (honEdge : assigned edge edgeAssignments u₁ = .ok (onEdge, u₂)) :
    u₀.next ≤ u₂.next ∧ Reaches returns [ctx.subject]
      (.create (labelled node link.target) :: own ++
        .create (connection ctx.subject link.relationship edge node) :: onEdge)
      [ctx.subject, edge, node] u₂.next := by
  have hfresh := hdrawn.fresh
  have holder := hdrawn.older
  have hnode : ∀ x ∈ [ctx.subject] ++ [node], Older u₀.next x := by
    intro x hx
    exact (holder x (by grind)).mono hu
  obtain ⟨hle, hruns⟩ := runs_assigned returns hown (by simp) hnode
  have hboth : ∀ x ∈ [ctx.subject] ++ [node] ++ [edge], Older u₁.next x := by
    intro x hx
    exact (holder x (by grind)).mono (by omega)
  obtain ⟨hle', hruns'⟩ := runs_assigned returns honEdge (by simp) hboth
  have hmakeNode : Step returns [ctx.subject] (.create (labelled node link.target))
      ([ctx.subject] ++ [node]) := step_createNode _ (hfresh node (by simp))
  have hmakeEdge : Step returns ([ctx.subject] ++ [node])
      (.create (connection ctx.subject link.relationship edge node))
      ([ctx.subject] ++ [node] ++ [edge]) := by
    refine .create ?_ ?_
    · rw [joined_connection]
      exact fun x hx => hx
    · rw [made_connection]
      intro x hx
      rw [List.mem_singleton] at hx
      subst hx
      have hsubject := hfresh x (by simp)
      simpa [hdrawn.distinct] using hsubject
  refine ⟨by omega, _, (Runs.cons hmakeNode hruns).append (.cons hmakeEdge hruns'), ?_, ?_⟩
  · grind
  · intro x hx
    exact (hboth x hx).mono hle'

/-- A node that is found from scratch, and an edge to it. -/
theorem reaches_connected {ctx : Context} {s u₀ u₁ u₂ : Supply} {edge node result : String}
    {link : Link} {filter : Option Condition} {edgeAssignments : List Assignment}
    {found onEdge : List Clause} (hdrawn : Drawn ctx s edge node result)
    (hu : s.next + 3 ≤ u₀.next) (hfits : ∀ c ∈ filter, c.Fits (Honest returns) false)
    (hfound : filteredMatch (labelled node link.target) filter
      (ctx.enter node (some edge) result) u₀ = .ok (found, u₁))
    (honEdge : assigned edge edgeAssignments u₁ = .ok (onEdge, u₂)) :
    u₀.next ≤ u₂.next ∧ Reaches returns [ctx.subject]
      (found ++ .merge (connection ctx.subject link.relationship edge node) :: onEdge)
      [ctx.subject, edge, node] u₂.next := by
  have holder := hdrawn.older
  have hfresh := hdrawn.fresh
  have hnode : ∀ x ∈ [ctx.subject] ++ [node], Older u₀.next x := by
    intro x hx
    exact (holder x (by grind)).mono hu
  obtain ⟨hle, names, hnames, hruns⟩ :=
    runs_filteredMatch hfits ((holder node (by simp)).mono hu) hfound
  have hmatch : Runs returns [ctx.subject] found ([ctx.subject] ++ [node] ++ names) := by
    refine hruns [ctx.subject] ?_ ?_ ?_ (by simp) (Clear.of_older hnode _)
    · simp [startedFrom, labelled, Pattern.node]
    · intro x hx
      refine hfresh x ?_
      simp [Scoping.found, labelled, Pattern.node, NodePattern.named] at hx
      simp [hx]
    · simp [Scoping.found, labelled, Pattern.node, NodePattern.named, Context.enter]
  -- The names of the calls of the filter are younger than that of the edge.
  have hedge : edge ∉ [ctx.subject] ++ [node] ++ names := by
    have hsubject := hfresh edge (by simp)
    have hyounger : Fresh names [edge, node] :=
      hdrawn.own.fresh (fun x hx i hi hm => (hnames.clear_before s.next) x hx i hi (by omega))
    have hnames := hyounger edge (by simp)
    simp only [List.mem_singleton] at hsubject
    simp [hsubject, hdrawn.distinct, hnames]
  have hmerge : Step returns ([ctx.subject] ++ [node] ++ names)
      (.merge (connection ctx.subject link.relationship edge node))
      ([ctx.subject] ++ [node] ++ names ++ [edge]) := by
    refine .merge ?_ ?_
    · rw [joined_connection]
      grind
    · rw [made_connection]
      intro x hx
      rw [List.mem_singleton] at hx
      exact hx ▸ hedge
  have hscope : ∀ x ∈ [ctx.subject] ++ [node] ++ names ++ [edge], Older u₁.next x := by
    intro x hx
    rcases List.mem_append.mp hx with hx | hx
    · rcases List.mem_append.mp hx with hx | hx
      · exact (hnode x hx).mono hle
      · exact hnames.older x hx
    · rw [List.mem_singleton] at hx
      exact hx ▸ (holder edge (by simp)).mono (by omega)
  obtain ⟨hle', hruns'⟩ := runs_assigned returns honEdge (by simp) hscope
  refine ⟨by omega, _, hmatch.append (.cons hmerge hruns'), ?_, ?_⟩
  · grind
  · intro x hx
    exact (hscope x hx).mono hle'

mutual
theorem provides_clause : ∀ (m : Mutation) (ctx : Context) {clause : Clause} {s t : Supply},
    (∀ p ∈ m.parts, Sound returns p) → Older s.next ctx.subject →
    Mutation.clause ctx m s = .ok (clause, t) →
    ∃ names, Provides returns [ctx.subject] s.next t.next [clause] names
  | .create link ⟨assignments, nested, validations⟩ edgeAssignments, ctx, clause, s, t, hparts,
      hold, h => by
    simp only [Mutation.clause, bind_ok, fresh_ok, pure_ok] at h
    obtain ⟨edge, _, ⟨hedge, rfl⟩, node, _, ⟨hnode, rfl⟩, result, _, ⟨hresult, rfl⟩, own, u₁, hown,
      onEdge, u₂, honEdge, written, u₃, hwritten, checks, u₄, hchecks, rfl, rfl⟩ := h
    have hdrawn : Drawn ctx s edge node result := .intro hedge hnode hresult hold
    have hvalidations := (hparts _ List.mem_cons_self).fits
    obtain ⟨hle, hcreated⟩ := reaches_created hdrawn (Nat.le_refl _) hown honEdge
    obtain ⟨hle', hnested⟩ := reaches_after nested (ctx.enter node (some edge) result)
      (fun p hp => hparts p (List.mem_cons_of_mem _ hp)) (by simp [Context.enter]) hcreated hwritten
    obtain ⟨names, hprovides⟩ := provides_validated hvalidations
      ((hdrawn.older node (by simp)).mono (Nat.le_trans hle hle')) hchecks
    have hle'' := hprovides.le
    simp only at hle
    exact ⟨_, provides_counted (hdrawn.result.mono (Nat.le_refl _) (by omega))
      (hnested.andThen hprovides (by simp [Context.enter]))⟩
  | .connect link filter edgeAssignments validations, ctx, clause, s, t, hparts, hold, h => by
    simp only [Mutation.clause, bind_ok, fresh_ok, pure_ok] at h
    obtain ⟨edge, _, ⟨hedge, rfl⟩, node, _, ⟨hnode, rfl⟩, result, _, ⟨hresult, rfl⟩, found, u₁,
      hfound, onEdge, u₂, honEdge, checks, u₃, hchecks, rfl, rfl⟩ := h
    have hdrawn : Drawn ctx s edge node result := .intro hedge hnode hresult hold
    obtain ⟨hfilter, hvalidations⟩ := (hparts _ List.mem_cons_self).fits
    obtain ⟨hle, hconnected⟩ :=
      reaches_connected hdrawn (Nat.le_refl _) hfilter hfound honEdge
    obtain ⟨names, hprovides⟩ := provides_validated hvalidations
      ((hdrawn.older node (by simp)).mono hle) hchecks
    have hle' := hprovides.le
    simp only at hle
    exact ⟨_, provides_counted (hdrawn.result.mono (Nat.le_refl _) (by omega))
      (hconnected.andThen hprovides (by simp [Context.enter]))⟩
  | .disconnect link filter validations, ctx, clause, s, t, hparts, hold, h => by
    simp only [Mutation.clause, bind_ok, fresh_ok, pure_ok] at h
    obtain ⟨edge, _, ⟨hedge, rfl⟩, node, _, ⟨hnode, rfl⟩, result, _, ⟨hresult, rfl⟩, found, u₁,
      hfound, checks, u₂, hchecks, rfl, rfl⟩ := h
    have hdrawn : Drawn ctx s edge node result := .intro hedge hnode hresult hold
    obtain ⟨hfilter, hvalidations⟩ := (hparts _ List.mem_cons_self).fits
    obtain ⟨hle, hreaches⟩ := reaches_linkedNodes hdrawn (Nat.le_refl _) hfilter hfound
    obtain ⟨names, hprovides⟩ :=
      provides_validated hvalidations ((hdrawn.older node (by simp)).mono hle) hchecks
    have hle' := hprovides.le
    simp only at hle
    exact ⟨_, provides_counted (hdrawn.result.mono (Nat.le_refl _) (by omega))
      ((hreaches.append hprovides (by simp [Context.enter])).append (provides_delete false _)
        (by simp))⟩
  | .update link filter before nodeAssignments edgeAssignments after, ctx, clause, s, t, hparts,
      hold, h => by
    simp only [Mutation.clause, bind_ok, fresh_ok, pure_ok] at h
    obtain ⟨edge, _, ⟨hedge, rfl⟩, node, _, ⟨hnode, rfl⟩, result, _, ⟨hresult, rfl⟩, found, u₁,
      hfound, first, u₂, hfirst, own, u₃, hown, onEdge, u₄, honEdge, last, u₅, hlast, rfl, rfl⟩ := h
    have hdrawn : Drawn ctx s edge node result := .intro hedge hnode hresult hold
    obtain ⟨hfilter, hbefore, hafter⟩ := (hparts _ List.mem_cons_self).fits
    have hnodeOlder := hdrawn.older node (by simp)
    obtain ⟨hle, hreaches⟩ := reaches_linkedNodes hdrawn (Nat.le_refl _) hfilter hfound
    simp only at hle
    obtain ⟨names, hchecked⟩ := provides_validated hbefore (hnodeOlder.mono hle) hfirst
    have hown : Provides returns [node] u₂.next u₃.next own [] := provides_assigned hown
    have honEdge : Provides returns [edge] u₃.next u₄.next onEdge [] := provides_assigned honEdge
    have hle₁ := hchecked.le
    have hle₂ := hown.le
    have hle₃ := honEdge.le
    obtain ⟨names', hrechecked⟩ :=
      provides_validated hafter (hnodeOlder.mono (by omega)) hlast
    have hle₄ := hrechecked.le
    have hwritten := ((hreaches.append hchecked (by simp [Context.enter])).append hown
      (by simp)).append honEdge (by simp)
    exact ⟨_, provides_counted (hdrawn.result.mono (Nat.le_refl _) (by omega))
      (hwritten.andThen hrechecked (by simp [Context.enter]))⟩
  | .delete link filter before nested, ctx, clause, s, t, hparts, hold, h => by
    simp only [Mutation.clause, bind_ok, fresh_ok, pure_ok] at h
    obtain ⟨edge, _, ⟨hedge, rfl⟩, node, _, ⟨hnode, rfl⟩, result, _, ⟨hresult, rfl⟩, found, u₁,
      hfound, first, u₂, hfirst, clauses, u₃, hnested, rfl, rfl⟩ := h
    have hdrawn : Drawn ctx s edge node result := .intro hedge hnode hresult hold
    obtain ⟨hfilter, hbefore⟩ := (hparts _ List.mem_cons_self).fits
    obtain ⟨hle, hreaches⟩ := reaches_linkedNodes hdrawn (Nat.le_refl _) hfilter hfound
    simp only at hle
    obtain ⟨names, hchecked⟩ :=
      provides_validated hbefore ((hdrawn.older node (by simp)).mono hle) hfirst
    obtain ⟨hle', hdeleted⟩ := reaches_after nested (ctx.enter node (some edge) result)
      (fun p hp => hparts p (List.mem_cons_of_mem _ hp)) (by simp [Context.enter])
      (hreaches.append hchecked (by simp [Context.enter])) hnested
    have hle₁ := hchecked.le
    exact ⟨_, provides_counted (hdrawn.result.mono (Nat.le_refl _) (by omega))
      (hdeleted.andThen (provides_delete true _) (by simp))⟩
theorem reaches_after : ∀ (ms : List Mutation) (ctx : Context) {before clauses : List Clause}
    {scope needs : Names} {s t : Supply}, (∀ p ∈ Mutation.partsOf ms, Sound returns p) →
    ctx.subject ∈ needs → Reaches returns scope before needs s.next →
    Mutation.after ctx before ms s = .ok (clauses, t) →
    s.next ≤ t.next ∧ Reaches returns scope clauses needs t.next
  | [], ctx, before, clauses, scope, needs, s, t, hparts, hsubject, hreaches, h => by
    simp only [Mutation.after, pure_ok] at h
    obtain ⟨rfl, rfl⟩ := h
    exact ⟨Nat.le_refl _, hreaches⟩
  | m :: rest, ctx, before, clauses, scope, needs, s, t, hparts, hsubject, hreaches, h => by
    simp only [Mutation.after, bind_ok] at h
    obtain ⟨clause, u, hclause, h⟩ := h
    have hold : Older s.next ctx.subject := by
      obtain ⟨after, _, hneeds, holder⟩ := hreaches
      exact holder _ (hneeds _ hsubject)
    obtain ⟨names, hprovides⟩ :=
      provides_clause m ctx (fun p hp => hparts p (by simp [Mutation.partsOf, hp])) hold hclause
    obtain ⟨hle, hrest⟩ := reaches_after rest ctx
      (fun p hp => hparts p (by simp [Mutation.partsOf, hp])) hsubject
      (hreaches.andThen hprovides (by simpa using hsubject)) h
    exact ⟨Nat.le_trans hprovides.le hle, hrest⟩
end

theorem reaches_labelled {ctx : Context} {e : Entity} {filter : Option Condition}
    {clauses : List Clause} {s t : Supply} (hfits : ∀ c ∈ filter, c.Fits (Honest returns) false)
    (hold : Older s.next ctx.subject)
    (h : filteredMatch (labelled ctx.subject e) filter ctx s = .ok (clauses, t)) :
    s.next ≤ t.next ∧ Reaches returns [] clauses [ctx.subject] t.next := by
  have hfound : found (labelled ctx.subject e) = [ctx.subject] := rfl
  have hreaches : s.next ≤ t.next ∧
      Reaches returns [] clauses ([] ++ found (labelled ctx.subject e)) t.next := by
    refine reaches_filteredMatch hfits ?_ ?_ ?_ ?_ (by simp) h
    · rw [hfound]
      simpa using hold
    · simp [startedFrom, labelled, Pattern.node]
    · simp [Fresh]
    · simp [hfound]
  exact hreaches

theorem reaches_newNode {ctx : Context} {e : Entity} {n : NewNode Mutation}
    {clauses : List Clause} {s t : Supply} (hparts : ∀ p ∈ newNodeParts e n, Sound returns p)
    (hold : Older s.next ctx.subject) (h : newNode ctx e n s = .ok (clauses, t)) :
    s.next ≤ t.next ∧ Reaches returns [] clauses [ctx.subject] t.next := by
  simp only [newNode, bind_ok, pure_ok] at h
  obtain ⟨own, u₁, hown, written, u₂, hwritten, checks, u₃, hchecks, rfl, rfl⟩ := h
  have hscope : ∀ x ∈ [ctx.subject], Older s.next x := by simpa using hold
  obtain ⟨hle, hruns⟩ := runs_assigned returns hown List.mem_cons_self hscope
  have hcreated : Reaches returns [] (.create (labelled ctx.subject e) :: own) [ctx.subject]
      u₁.next :=
    ⟨[ctx.subject], .cons (step_createNode e (by simp)) hruns, fun x hx => hx,
      fun x hx => (hscope x hx).mono hle⟩
  obtain ⟨hle₁, hnested⟩ := reaches_after n.nested ctx
    (fun p hp => hparts p (List.mem_cons_of_mem _ hp)) List.mem_cons_self hcreated hwritten
  obtain ⟨names, hprovides⟩ := provides_validated (hparts _ List.mem_cons_self).fits
    (hold.mono (Nat.le_trans hle hle₁)) hchecks
  have hle₂ := hprovides.le
  exact ⟨by omega, hnested.andThen hprovides fun x hx => hx⟩

/-- Each new node is made in a call that gives it back; their names differ. -/
theorem runs_newNodes {ctx : Context} {e : Entity} {nodes : List (NewNode Mutation)}
    {isFirst : Bool} {calls : List Clause} {contexts : List Context} {s t : Supply}
    (hparts : ∀ p ∈ nodes.flatMap (newNodeParts e), Sound returns p) (hopens : Opens ctx s.next)
    (h : newNodes ctx e isFirst nodes s = .ok ((calls, contexts), t)) :
    s.next ≤ t.next ∧ (∀ c ∈ contexts, Older t.next c.subject) ∧
      ∀ scope, (isFirst = true → ctx.subject ∉ scope) → Clear scope s.next t.next →
        Runs returns scope calls (scope ++ contexts.map Context.subject) := by
  induction nodes generalizing isFirst calls contexts s with
  | nil =>
    simp only [newNodes, pure_ok, Prod.mk.injEq] at h
    obtain ⟨⟨rfl, rfl⟩, rfl⟩ := h
    refine ⟨Nat.le_refl _, by simp, ?_⟩
    intro scope _ _
    simpa using Runs.nil
  | cons n rest ih =>
    simp only [newNodes, bind_ok, pure_ok, Prod.mk.injEq] at h
    obtain ⟨branch, u₁, hbranch, body, u₂, hbody, ⟨more, contexts'⟩, u₃, hrest, ⟨rfl, rfl⟩,
      rfl⟩ := h
    obtain ⟨hle, hbranchOpens, _⟩ := opens_branchContext hopens hbranch
    obtain ⟨hle₁, after, hruns, hneeds, _⟩ := reaches_newNode
      (fun p hp => hparts p (by simp [hp])) hbranchOpens.subject hbody
    have hpartsRest : ∀ p ∈ rest.flatMap (newNodeParts e), Sound returns p := by
      intro p hp
      refine hparts p ?_
      rw [List.flatMap_cons]
      exact List.mem_append_right _ hp
    obtain ⟨hle₂, holder, hmore⟩ := ih hpartsRest (hopens.mono (by omega)) hrest
    have hgives : Gives returns [] (body ++ [.giveAll [Column.var branch.subject]])
        [branch.subject] := by
      refine .prepend hruns ?_
      have hgive : Gives returns after ([] ++ [.returning [Column.var branch.subject] false])
          (exposed after [Column.var branch.subject]) := by
        refine .returning false .nil ?_
        intro c hc
        rw [List.mem_singleton] at hc
        exact hc ▸ .var (hneeds _ List.mem_cons_self)
      exact hgive
    refine ⟨by omega, ?_, ?_⟩
    · intro c hc
      rcases List.mem_cons.mp hc with rfl | hc
      · exact hbranchOpens.subject.mono (by omega)
      · exact holder c hc
    · intro scope hfirst hclear
      have hnew : Fresh scope [branch.subject] := by
        rcases subject_branchContext hbranch with ⟨rfl, rfl⟩ | hwithin
        · simpa [Fresh] using hfirst rfl
        · exact hwithin.fresh (hclear.sub (Nat.le_refl _) (by omega))
      have hscope : Clear (scope ++ [branch.subject]) u₂.next u₃.next := by
        refine (hclear.sub (by omega) (Nat.le_refl _)).append (Clear.of_older ?_ _)
        intro x hx
        rw [List.mem_singleton] at hx
        exact hx ▸ hbranchOpens.subject.mono hle₁
      have hrest := hmore (scope ++ [branch.subject]) (by simp) hscope
      rw [List.append_assoc] at hrest
      exact .cons (.call (by simp) hgives hnew) hrest

theorem yields_projections {fields : List Field} {contexts : List Context} {needs : Names}
    {calls : List Clause} {es : List Expr} {s t : Supply}
    (hparts : ∀ p ∈ Field.partsOf fields, Sound returns p)
    (hneeds : ∀ c ∈ contexts, c.subject ∈ needs) (hold : ∀ c ∈ contexts, Older s.next c.subject)
    (h : projections fields contexts s = .ok ((calls, es), t)) :
    ∃ names, Yields returns needs s.next t.next calls names es := by
  induction contexts generalizing calls es s with
  | nil =>
    simp only [projections, pure_ok, Prod.mk.injEq] at h
    obtain ⟨⟨rfl, rfl⟩, rfl⟩ := h
    exact ⟨[], .nil _ (Nat.le_refl _)⟩
  | cons ctx rest ih =>
    simp only [projections, bind_ok, pure_ok, Prod.mk.injEq] at h
    obtain ⟨⟨first, items⟩, u, hfirst, ⟨more, es'⟩, v, hrest, ⟨rfl, rfl⟩, rfl⟩ := h
    obtain ⟨names, hyields⟩ :=
      yields_items fields ctx hparts (hold ctx List.mem_cons_self) hfirst
    obtain ⟨names', hyields'⟩ := ih (fun c hc => hneeds c (List.mem_cons_of_mem _ hc))
      (fun c hc => (hold c (List.mem_cons_of_mem _ hc)).mono hyields.le) hrest
    have hown : Yields returns needs s.next u.next first names [.projection ctx.subject items] :=
      (hyields.projection List.mem_cons_self).of_needs
        (by simpa using hneeds ctx List.mem_cons_self)
    exact ⟨names ++ names', hown.append hyields'⟩

theorem gives_createClauses {ctx : Context} {c : Create} {clauses : List Clause} {s t : Supply}
    (hparts : ∀ p ∈ (Operation.create c).parts, Sound returns p) (hopens : Opens ctx s.next)
    (h : createClauses ctx c s = .ok (clauses, t)) :
    Gives returns [] clauses [ctx.result] := by
  simp only [createClauses, bind_ok, pure_ok] at h
  obtain ⟨⟨calls, contexts⟩, u, hcalls, ⟨more, es⟩, v, hmore, rfl, rfl⟩ := h
  obtain ⟨hle, holder, hruns⟩ := runs_newNodes
    (fun p hp => hparts p (List.mem_append_left _ hp)) hopens hcalls
  have hprojected : ∃ names, Yields returns (contexts.map Context.subject) u.next v.next more
      names es :=
    yields_projections (fun p hp => hparts p (List.mem_append_right _ hp))
      (fun ctx hctx => List.mem_map_of_mem hctx) holder hmore
  obtain ⟨names, hyields⟩ := hprojected
  have hlist : Yields returns (contexts.map Context.subject) u.next v.next more names
      [.list es] := by
    refine hyields.rewrap (by simp) ?_
    intro scope _ hrefers e he
    rw [List.mem_singleton] at he
    exact he ▸ .list hrefers
  have hmade := hruns [] (by simp) (.nil _ _)
  rw [List.nil_append] at hmade
  have holder' : ∀ x ∈ contexts.map Context.subject, Older u.next x := by
    intro x hx
    obtain ⟨ctx', hctx, rfl⟩ := List.mem_map.mp hx
    exact holder ctx' hctx
  rw [List.append_assoc]
  exact .prepend hmade (hlist.gives ctx.result (fun x hx => hx) holder')

theorem gives_updateClauses {ctx : Context} {o : Update} {clauses : List Clause} {s t : Supply}
    (hparts : ∀ p ∈ (Operation.update o).parts, Sound returns p) (hopens : Opens ctx s.next)
    (h : updateClauses ctx o s = .ok (clauses, t)) :
    Gives returns [] clauses [ctx.result] := by
  simp only [updateClauses, bind_ok, pure_ok] at h
  obtain ⟨found, u₁, hfound, first, u₂, hfirst, own, u₃, hown, written, u₄, hwritten, last, u₅,
    hlast, ⟨calls, items⟩, u₆, hitems, rfl, rfl⟩ := h
  obtain ⟨hfilter, hbefore, hafter⟩ := (hparts _ List.mem_cons_self).fits
  obtain ⟨hle, hreaches⟩ := reaches_labelled hfilter hopens.subject hfound
  obtain ⟨names, hchecked⟩ :=
    provides_validated hbefore (hopens.subject.mono hle) hfirst
  have hassigned : Provides returns [ctx.subject] u₂.next u₃.next own [] := provides_assigned hown
  have hbase := (hreaches.append hchecked fun x hx => hx).append hassigned fun x hx => hx
  obtain ⟨hle₁, hnested⟩ := reaches_after o.nested ctx
    (fun p hp => hparts p (by simp [Operation.parts, hp])) List.mem_cons_self hbase hwritten
  have hle₂ := hchecked.le
  have hle₃ := hassigned.le
  obtain ⟨names', hrechecked⟩ :=
    provides_validated hafter (hopens.subject.mono (by omega)) hlast
  have hle₄ := hrechecked.le
  obtain ⟨names'', hyields⟩ := yields_items o.fields ctx
    (fun p hp => hparts p (by simp [Operation.parts, hp])) (hopens.subject.mono (by omega)) hitems
  obtain ⟨after, hruns, hneeds, holder⟩ := hnested.andThen hrechecked fun x hx => hx
  have hprojected := hyields.runs after hneeds (Clear.of_older holder _)
  refine .prepend (hruns.andThen hprojected)
    (gives_give _ (refers_apply _ (.distinct (refers_projection ?_ ?_))) (by simp))
  · exact List.mem_append_left _ (hneeds _ List.mem_cons_self)
  · exact hyields.refers _ (fun x hx => List.mem_append_left _ (hneeds x hx))
      (fun x hx => List.mem_append_right after hx)

theorem runs_deleteClauses {ctx : Context} {d : Delete} {clauses : List Clause} {s t : Supply}
    (hparts : ∀ p ∈ (Operation.delete d).parts, Sound returns p) (hopens : Opens ctx s.next)
    (h : deleteClauses ctx d s = .ok (clauses, t)) :
    ∃ after, Runs returns [] clauses after := by
  simp only [deleteClauses, bind_ok, pure_ok] at h
  obtain ⟨found, u₁, hfound, first, u₂, hfirst, nested, u₃, hnested, rfl, rfl⟩ := h
  obtain ⟨hfilter, hbefore⟩ := (hparts _ List.mem_cons_self).fits
  obtain ⟨hle, hreaches⟩ := reaches_labelled hfilter hopens.subject hfound
  obtain ⟨names, hchecked⟩ := provides_validated hbefore (hopens.subject.mono hle) hfirst
  obtain ⟨hle₁, hdeleted⟩ := reaches_after d.nested ctx
    (fun p hp => hparts p (List.mem_cons_of_mem _ hp)) List.mem_cons_self
    (hreaches.append hchecked fun x hx => hx) hnested
  obtain ⟨after, hruns, _⟩ := hdeleted.andThen (provides_delete true _) fun x hx => hx
  exact ⟨after, hruns⟩

/-- The clauses of a program are in order, and end in the column of the response if it has one. -/
def Answers (returns : String → Names) (clauses : List Clause) : Option String → Prop
  | some column => Gives returns [] clauses [column]
  | none => ∃ after, Runs returns [] clauses after

/-- The program of a plan whose parts all fit into their places is in order. -/
theorem answers_programOf {terms : Terms} {o : Operation} {clauses : List Clause} {t : Supply}
    (hparts : ∀ p ∈ o.parts, Sound returns p) (h : programOf terms o {} = .ok (clauses, t)) :
    Answers returns clauses (resultOf o) := by
  simp only [programOf, bind_ok, fresh_ok] at h
  obtain ⟨subject, s, ⟨rfl, rfl⟩, h⟩ := h
  generalize hctx : Context.root terms _ responseColumn = ctx at h
  have hopens : Opens ctx 1 := by
    subst hctx
    refine ⟨?_, by simp [around, Context.root], by simp [Fresh, around, Context.root], fun _ => rfl⟩
    intro x hx
    simp only [own, Context.root, Option.toList_none, List.nil_append, List.mem_singleton] at hx
    exact hx ▸ older_name {} "this" (by decide)
  have haround : around ctx = [] := by
    subst hctx
    rfl
  have hresult : ctx.result = responseColumn := by
    subst hctx
    rfl
  have hreached : ∀ relationship, Reached ctx relationship := by
    intro relationship hsome
    subst hctx
    simp [Context.root] at hsome
  cases o with
  | lookup l =>
    have hgives := (gives_lookupClauses l ctx hparts hopens (hreached _) h).2
    rwa [haround, hresult] at hgives
  | aggregate a =>
    have hgives := (gives_aggregateClauses (hparts _ List.mem_cons_self).fits hopens
      (hreached _) h).2
    rwa [haround, hresult] at hgives
  | create c =>
    have hgives := gives_createClauses hparts hopens h
    rwa [hresult] at hgives
  | update u =>
    have hgives := gives_updateClauses hparts hopens h
    rwa [hresult] at hgives
  | delete d => exact runs_deleteClauses hparts hopens h

end

end GraphSelection.Scoping
