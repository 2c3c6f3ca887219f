import GraphSelection.Proofs.Formed.Changes
import GraphSelection.Proofs.WellScoped

/-!
When validations are checked. The clauses of every place of change stand in one order: what finds
its node, what must hold before it writes, all its writing with the changes nested in it, what must
hold afterwards, and an answer. Nothing outside the writing part writes at any depth. The relation
between plans and clauses follows the nesting of the changes.
-/
namespace GraphSelection.Program

open Cypher Plan

section Order

/-- How a change comes by its node. -/
inductive Origin where
  | made
  | found (filter : Option Condition)

/-- What a place of change asks for. -/
structure Stages where
  target : Entity
  origin : Origin
  before : List Condition
  nested : List Mutation
  after : List Condition

def newNodeStages (e : Entity) (n : NewNode Mutation) : Stages :=
  ⟨e, .made, [], n.nested, n.validations⟩

def stagesOf : Mutation → Stages
  | .create link n _ => newNodeStages link.target n
  | .connect link filter _ validations => ⟨link.target, .found filter, [], [], validations⟩
  | .disconnect link filter validations => ⟨link.target, .found filter, validations, [], []⟩
  | .update link filter before _ _ after => ⟨link.target, .found filter, before, [], after⟩
  | .delete link filter before nested => ⟨link.target, .found filter, before, nested, []⟩

def updateStages (u : Update) : Stages := ⟨u.entity, .found u.filter, u.before, u.nested, u.after⟩

def deleteStages (d : Delete) : Stages := ⟨d.entity, .found d.filter, d.before, d.nested, []⟩

/-- Nothing in the list writes, at any depth. -/
structure Quiet (cs : List Clause) : Prop where
  own : ∀ c ∈ cs, ¬ c.IsWriting
  inner : ∀ place body, .list place body ∈ Clause.itemsOf cs → ∀ c ∈ body, ¬ c.IsWriting

/-- The pattern leads to a node of the entity, and names it for the context. -/
def LeadsTo (ctx : Context) (target : Entity) (pattern : Pattern) : Prop :=
  pattern = labelled ctx.subject target ∨ ∃ start r edge,
    pattern = traversal start r edge (NodePattern.named ctx.subject target.labels)

/-- A new node is the first thing that is written; another one is matched and filtered first. -/
def Origin.Gives (ctx : Context) (target : Entity) (found writes : List Clause) : Origin → Prop
  | .made => found = [] ∧ writes.head? = some (.create (labelled ctx.subject target))
  | .found filter => ∃ pattern s t, LeadsTo ctx target pattern ∧
      Filtered ctx pattern s filter found t

/-- A `WITH *` that stops with the message where the predicate does not hold. -/
def stopsUnless (message : String) (predicate : Expr) : Clause :=
  .carry [⟨.star, none⟩] false [] none none
    (some (.apply "apoc.util.validatePredicate"
      [.not predicate, .literal (.string message), .list [.literal (.integer 0)]]))

/-- The clauses assert the conjunction of exactly what the conditions are compiled to, each after
the calls that it needs. -/
def Asserts (ctx : Context) (conditions : List Condition) (cs : List Clause) : Prop :=
  ∃ parts : List (Expr × List Clause),
    List.Forall₂ (fun c part => ∃ s t, gathered (Condition.predicate ctx c) s = .ok (part, t))
      conditions parts ∧
    cs = parts.flatMap Prod.snd ++
      ((Expr.allOf (parts.map Prod.fst)).map (stopsUnless ctx.terms.forbidden)).toList

mutual
/-- The clauses of a place of change keep the order of its stages. -/
inductive Timed : Stages → List Clause → Prop
  | intro {x : Stages} {ctx : Context} {found first writes last rest cs : List Clause}
      (horder : cs = found ++ first ++ writes ++ last ++ rest)
      (horigin : x.origin.Gives ctx x.target found writes) (hfound : Quiet found)
      (hfirst : Asserts ctx x.before first ∧ Quiet first) (hwrites : Writes x.nested writes)
      (hlast : Asserts ctx x.after last ∧ Quiet last) (hrest : Quiet rest) : Timed x cs
/-- Writing clauses with a call for each nested change, and nothing else but separators. -/
inductive Writes : List Mutation → List Clause → Prop
  | nil : Writes [] []
  | write {c : Clause} {ms : List Mutation} {cs : List Clause} (hc : c.IsWriting)
      (h : Writes ms cs) : Writes ms (c :: cs)
  | carry {ms : List Mutation} {cs : List Clause} (h : Writes ms cs) :
      Writes ms (Clause.carryAll :: cs)
  | nested {m : Mutation} {ms : List Mutation} {imports : List String} {body cs : List Clause}
      (hbody : Timed (stagesOf m) body) (h : Writes ms cs) :
      Writes (m :: ms) (.call imports body :: cs)
end

/-- A creation has a call for each new node; lookups write nothing. -/
def KeepsTime : Operation → List Clause → Prop
  | .lookup _, cs => Quiet cs
  | .aggregate _, cs => Quiet cs
  | .create c, cs => ∃ bodies rest, cs = bodies.map (.call []) ++ rest ∧ Quiet rest ∧
      List.Forall₂ (fun n body => Timed (newNodeStages c.entity n) body) c.nodes bodies
  | .update u, cs => Timed (updateStages u) cs
  | .delete d, cs => Timed (deleteStages d) cs

end Order

section Lists

/-- Everything may stand in a program that writes nothing. -/
def quiet : Policy := ⟨fun _ => True, fun _ => True, false⟩

theorem allows_quiet (a : Attribute) : Allows quiet a := fun _ _ => trivial

theorem Grants.made {α : Type} {p : α → Prop} {x : Build α} {s t : Supply} {a : α}
    (h : Grants quiet p x) (hrun : x s = .ok (a, t)) : p a :=
  h.run s a t hrun fun _ _ => trivial

theorem quiet_of_block {place : Place} {cs : List Clause} (h : Block quiet place cs) :
    Quiet cs where
  own := h.formed.writes rfl
  inner place' body hmem := by
    have hformed : WellFormed quiet place' body := h.items _ (List.mem_cons_of_mem _ hmem)
    exact hformed.writes rfl

theorem quiet_of_still {cs : List Clause} (h : StillList quiet cs) : Quiet cs :=
  quiet_of_block h.opened.block

theorem quiet_nil : Quiet [] := quiet_of_still stillList_nil

theorem quiet_counted (result : String) : Quiet [.give (.apply "count" [.star]) result] :=
  quiet_of_block (openList_nil.give (by simp) result .block)

theorem Writes.append {ms ms' : List Mutation} {cs cs' : List Clause} :
    Writes ms cs → Writes ms' cs' → Writes (ms ++ ms') (cs ++ cs')
  | .nil, h' => h'
  | .write hc h, h' => .write hc (h.append h')
  | .carry h, h' => .carry (h.append h')
  | .nested hbody h, h' => .nested hbody (h.append h')

/-- More writing after the nested changes. -/
theorem Writes.close {ms : List Mutation} {cs cs' : List Clause} (h : Writes ms cs)
    (h' : Writes [] cs') : Writes ms (cs ++ cs') := by
  simpa using h.append h'

/-- Clauses that are joined to others may have a separator before them. -/
theorem andThen_split (before after : List Clause) :
    ∃ gap, StillList quiet gap ∧ Writes [] gap ∧ andThen before after = before ++ gap ++ after := by
  unfold andThen
  split
  · exact ⟨[.carryAll], by simp, .carry .nil, by simp⟩
  · exact ⟨[], stillList_nil, .nil, by simp⟩

theorem asserts_nil (ctx : Context) : Asserts ctx [] [] := ⟨[], .nil, rfl⟩

theorem validationParts_made {ctx : Context} {conditions : List Condition} {s t : Supply}
    {r : List Clause × List Expr} (h : validationParts ctx conditions s = .ok (r, t)) :
    ∃ parts : List (Expr × List Clause),
      List.Forall₂ (fun c part => ∃ s t, gathered (Condition.predicate ctx c) s = .ok (part, t))
        conditions parts ∧ r = (parts.flatMap Prod.snd, parts.map Prod.fst) := by
  induction conditions generalizing s r with
  | nil =>
    obtain ⟨rfl, rfl⟩ := (pure_ok ..).mp h
    exact ⟨[], .nil, rfl⟩
  | cons c rest ih =>
    simp only [validationParts, bind_ok, pure_ok] at h
    obtain ⟨first, u, hfirst, more, v, hmore, rfl, rfl⟩ := h
    obtain ⟨parts, hparts, rfl⟩ := ih hmore
    exact ⟨first :: parts, .cons ⟨s, u, hfirst⟩ hparts, rfl⟩

theorem asserts_validated {ctx : Context} {conditions : List Condition} {s t : Supply}
    {cs : List Clause} (h : validated ctx conditions s = .ok (cs, t)) :
    Asserts ctx conditions cs := by
  simp only [validated, bind_ok, pure_ok] at h
  obtain ⟨r, u, hparts, rfl, rfl⟩ := h
  obtain ⟨parts, hcompiled, rfl⟩ := validationParts_made hparts
  exact ⟨parts, hcompiled, rfl⟩

theorem validated_asserts {ctx : Context} {conditions : List Condition} {s t : Supply}
    {cs : List Clause} (hfits : FitsAll (Allows quiet) conditions)
    (h : validated ctx conditions s = .ok (cs, t)) : Asserts ctx conditions cs ∧ Quiet cs :=
  ⟨asserts_validated h, quiet_of_still ((grants_validated hfits).made h)⟩

theorem assigned_writes {name : String} {assignments : List Assignment} {s t : Supply}
    {cs : List Clause} (h : assigned name assignments s = .ok (cs, t)) : Writes [] cs := by
  simp only [assigned, bind_ok, pure_ok] at h
  obtain ⟨pairs, u, _, rfl, rfl⟩ := h
  split
  · exact .nil
  · exact .write (.set _) .nil

theorem linkedNodes_gives {ctx child : Context} {link : Link} {filter : Option Condition}
    {s t : Supply} {found : List Clause}
    (hfits : ∀ c ∈ filter, c.Fits (Allows quiet) true)
    (h : linkedNodes ctx child link filter s = .ok (found, t)) :
    (∀ writes, Origin.Gives child link.target found writes (.found filter)) ∧ Quiet found := by
  refine ⟨?_, quiet_of_still ((grants_linkedNodes hfits).made h)⟩
  simp only [linkedNodes, bind_ok, lift_ok] at h
  obtain ⟨edge, u, _, h⟩ := h
  exact fun _ => ⟨_, u, t, .inr ⟨_, _, _, rfl⟩, (filteredMatch_ok ..).mp h⟩

theorem labelled_gives {ctx : Context} {target : Entity} {filter : Option Condition}
    {s t : Supply} {found : List Clause}
    (hfits : ∀ c ∈ filter, c.Fits (Allows quiet) false)
    (h : filteredMatch (labelled ctx.subject target) filter ctx s = .ok (found, t)) :
    (∀ writes, Origin.Gives ctx target found writes (.found filter)) ∧ Quiet found :=
  ⟨fun _ => ⟨_, s, t, .inl rfl, (filteredMatch_ok ..).mp h⟩,
    quiet_of_still ((grants_filteredMatch _ hfits).made h)⟩

end Lists

section Changes

mutual
theorem clause_timed : ∀ (m : Mutation) (ctx : Context) {clause : Clause} {s t : Supply},
    (∀ p ∈ m.parts, p.Fits (Allows quiet)) → Mutation.clause ctx m s = .ok (clause, t) →
    ∃ imports body, clause = .call imports body ∧ Timed (stagesOf m) body
  | .create link ⟨assignments, nested, validations⟩ edgeAssignments, ctx, clause, s, t, hparts,
      h => by
    simp only [Mutation.clause, bind_ok, fresh_ok, pure_ok] at h
    obtain ⟨edge, _, ⟨_, rfl⟩, node, _, ⟨_, rfl⟩, result, _, ⟨_, rfl⟩, own, u₁, hown, onEdge, u₂,
      honEdge, written, u₃, hwritten, checks, u₄, hchecks, rfl, rfl⟩ := h
    obtain ⟨more, rfl, hmore⟩ := after_writes nested (ctx.enter node (some edge) result)
      (fun p hp => hparts p (List.mem_cons_of_mem _ hp)) hwritten
    obtain ⟨gap, _, hgap, hjoin⟩ := andThen_split _ checks
    have hnode : Writes [] (.create (labelled node link.target) :: own) :=
      .write (.create _) (assigned_writes hown)
    have hedge : Writes [] (.create (connection ctx.subject link.relationship edge node) ::
        onEdge) :=
      .write (.create _) (assigned_writes honEdge)
    refine ⟨_, _, rfl, .intro ?_ ⟨rfl, rfl⟩ quiet_nil ⟨asserts_nil _, quiet_nil⟩
      (((hnode.append hedge).append hmore).close hgap)
      (validated_asserts (hparts _ List.mem_cons_self) hchecks) (quiet_counted result)⟩
    rw [hjoin]
    simp
  | .connect link filter edgeAssignments validations, ctx, clause, s, t, hparts, h => by
    simp only [Mutation.clause, bind_ok, fresh_ok, pure_ok] at h
    obtain ⟨edge, _, ⟨_, rfl⟩, node, _, ⟨_, rfl⟩, result, _, ⟨_, rfl⟩, found, u₁, hfound, onEdge,
      u₂, honEdge, checks, u₃, hchecks, rfl, rfl⟩ := h
    have hfits : (∀ c ∈ filter, c.Fits (Allows quiet) false) ∧ FitsAll (Allows quiet) validations :=
      hparts _ List.mem_cons_self
    obtain ⟨horigin, hquiet⟩ := labelled_gives hfits.1 hfound
    obtain ⟨gap, _, hgap, hjoin⟩ := andThen_split _ checks
    have hedge : Writes [] (.merge (connection ctx.subject link.relationship edge node) ::
        onEdge) :=
      .write (.merge _) (assigned_writes honEdge)
    refine ⟨_, _, rfl, .intro ?_ (horigin _) hquiet ⟨asserts_nil _, quiet_nil⟩ (hedge.close hgap)
      (validated_asserts hfits.2 hchecks) (quiet_counted result)⟩
    rw [hjoin]
    simp
  | .disconnect link filter validations, ctx, clause, s, t, hparts, h => by
    simp only [Mutation.clause, bind_ok, fresh_ok, pure_ok] at h
    obtain ⟨edge, _, ⟨_, rfl⟩, node, _, ⟨_, rfl⟩, result, _, ⟨_, rfl⟩, found, u₁, hfound, checks,
      u₂, hchecks, rfl, rfl⟩ := h
    have hfits : (∀ c ∈ filter, c.Fits (Allows quiet) true) ∧ FitsAll (Allows quiet) validations :=
      hparts _ List.mem_cons_self
    obtain ⟨horigin, hquiet⟩ := linkedNodes_gives hfits.1 hfound
    have hdelete : Writes [] [.delete false [edge]] := .write (.delete ..) .nil
    refine ⟨_, _, rfl, .intro ?_ (horigin _) hquiet (validated_asserts hfits.2 hchecks) hdelete
      ⟨asserts_nil (ctx.enter node (some edge) result), quiet_nil⟩ (quiet_counted result)⟩
    simp
  | .update link filter before nodeAssignments edgeAssignments after, ctx, clause, s, t, hparts,
      h => by
    simp only [Mutation.clause, bind_ok, fresh_ok, pure_ok] at h
    obtain ⟨edge, _, ⟨_, rfl⟩, node, _, ⟨_, rfl⟩, result, _, ⟨_, rfl⟩, found, u₁, hfound, first, u₂,
      hfirst, own, u₃, hown, onEdge, u₄, honEdge, last, u₅, hlast, rfl, rfl⟩ := h
    have hfits : (∀ c ∈ filter, c.Fits (Allows quiet) true) ∧ FitsAll (Allows quiet) before ∧
        FitsAll (Allows quiet) after :=
      hparts _ List.mem_cons_self
    obtain ⟨horigin, hquiet⟩ := linkedNodes_gives hfits.1 hfound
    obtain ⟨gap, _, hgap, hjoin⟩ := andThen_split _ last
    have hwrites := (assigned_writes hown).append (assigned_writes honEdge)
    refine ⟨_, _, rfl, .intro ?_ (horigin _) hquiet (validated_asserts hfits.2.1 hfirst)
      (hwrites.close hgap) (validated_asserts hfits.2.2 hlast) (quiet_counted result)⟩
    rw [hjoin]
    simp
  | .delete link filter before nested, ctx, clause, s, t, hparts, h => by
    simp only [Mutation.clause, bind_ok, fresh_ok, pure_ok] at h
    obtain ⟨edge, _, ⟨_, rfl⟩, node, _, ⟨_, rfl⟩, result, _, ⟨_, rfl⟩, found, u₁, hfound, first, u₂,
      hfirst, clauses, u₃, hclauses, rfl, rfl⟩ := h
    have hfits : (∀ c ∈ filter, c.Fits (Allows quiet) true) ∧ FitsAll (Allows quiet) before :=
      hparts _ List.mem_cons_self
    obtain ⟨horigin, hquiet⟩ := linkedNodes_gives hfits.1 hfound
    obtain ⟨more, rfl, hmore⟩ := after_writes nested (ctx.enter node (some edge) result)
      (fun p hp => hparts p (List.mem_cons_of_mem _ hp)) hclauses
    obtain ⟨gap, _, hgap, hjoin⟩ := andThen_split _ [.delete true [node]]
    have hdelete : Writes [] [.delete true [node]] := .write (.delete ..) .nil
    refine ⟨_, _, rfl, .intro ?_ (horigin _) hquiet (validated_asserts hfits.2 hfirst)
      ((hmore.close hgap).close hdelete)
      ⟨asserts_nil (ctx.enter node (some edge) result), quiet_nil⟩ (quiet_counted result)⟩
    rw [hjoin]
    simp
theorem after_writes : ∀ (ms : List Mutation) (ctx : Context) {before cs : List Clause}
    {s t : Supply}, (∀ p ∈ Mutation.partsOf ms, p.Fits (Allows quiet)) →
    Mutation.after ctx before ms s = .ok (cs, t) → ∃ more, cs = before ++ more ∧ Writes ms more
  | [], ctx, before, cs, s, t, hparts, h => by
    simp only [Mutation.after, pure_ok] at h
    obtain ⟨rfl, rfl⟩ := h
    exact ⟨[], by simp, .nil⟩
  | m :: rest, ctx, before, cs, s, t, hparts, h => by
    simp only [Mutation.after, bind_ok] at h
    obtain ⟨clause, u, hclause, h⟩ := h
    obtain ⟨imports, body, rfl, hbody⟩ :=
      clause_timed m ctx (fun p hp => hparts p (List.mem_append_left _ hp)) hclause
    obtain ⟨more, rfl, hmore⟩ :=
      after_writes rest ctx (fun p hp => hparts p (List.mem_append_right _ hp)) h
    obtain ⟨gap, _, hgap, hjoin⟩ := andThen_split before [.call imports body]
    refine ⟨gap ++ .call imports body :: more, by rw [hjoin]; simp, ?_⟩
    exact hgap.append (.nested hbody hmore)
end

theorem newNode_timed {ctx : Context} {e : Entity} {n : NewNode Mutation} {s t : Supply}
    {body : List Clause} (hparts : ∀ p ∈ newNodeParts e n, p.Fits (Allows quiet))
    (h : newNode ctx e n s = .ok (body, t)) (name : String) :
    Timed (newNodeStages e n) (body ++ [.giveAll [Column.var name]]) := by
  simp only [newNode, bind_ok, pure_ok] at h
  obtain ⟨own, u₁, hown, written, u₂, hwritten, checks, u₃, hchecks, rfl, rfl⟩ := h
  obtain ⟨more, rfl, hmore⟩ :=
    after_writes n.nested ctx (fun p hp => hparts p (List.mem_cons_of_mem _ hp)) hwritten
  obtain ⟨gap, _, hgap, hjoin⟩ := andThen_split _ checks
  have hnode : Writes [] (.create (labelled ctx.subject e) :: own) :=
    .write (.create _) (assigned_writes hown)
  have hrest : Quiet [.giveAll [Column.var name]] :=
    quiet_of_block (openList_nil.giveAll (by simp [Column.var]) .block)
  refine .intro ?_ ⟨rfl, rfl⟩ quiet_nil ⟨asserts_nil _, quiet_nil⟩
    ((hnode.append hmore).close hgap)
    (validated_asserts (hparts _ List.mem_cons_self) hchecks) hrest
  rw [hjoin]
  simp

theorem newNodes_timed {ctx : Context} {e : Entity} {nodes : List (NewNode Mutation)}
    (hparts : ∀ n ∈ nodes, ∀ p ∈ newNodeParts e n, p.Fits (Allows quiet)) {isFirst : Bool}
    {r : List Clause × List Context} {s t : Supply}
    (h : newNodes ctx e isFirst nodes s = .ok (r, t)) :
    ∃ bodies : List (List Clause), r.1 = bodies.map (.call []) ∧
      List.Forall₂ (fun n body => Timed (newNodeStages e n) body) nodes bodies := by
  induction nodes generalizing isFirst r s with
  | nil =>
    obtain ⟨rfl, rfl⟩ := (pure_ok ..).mp h
    exact ⟨[], rfl, .nil⟩
  | cons n rest ih =>
    simp only [newNodes, bind_ok, pure_ok] at h
    obtain ⟨own, u₁, _, body, u₂, hbody, more, u₃, hmore, rfl, rfl⟩ := h
    obtain ⟨bodies, hcalls, hbodies⟩ := ih (fun n hn => hparts n (List.mem_cons_of_mem _ hn)) hmore
    have htimed := newNode_timed (hparts n List.mem_cons_self) hbody own.subject
    exact ⟨_ :: bodies, by simp [hcalls], .cons htimed hbodies⟩

end Changes

section Operations

variable {ctx : Context} {s t : Supply} {clauses : List Clause}

theorem createClauses_timed {c : Create}
    (hparts : ∀ p ∈ Operation.parts (.create c), p.Fits (Allows quiet))
    (h : createClauses ctx c s = .ok (clauses, t)) : KeepsTime (.create c) clauses := by
  have hnodes : ∀ n ∈ c.nodes, ∀ p ∈ newNodeParts c.entity n, p.Fits (Allows quiet) :=
    fun n hn p hp => hparts p (List.mem_append_left _ (List.mem_flatMap.mpr ⟨n, hn, hp⟩))
  have hfields : ∀ p ∈ Field.partsOf c.fields, p.Fits (Allows quiet) :=
    fun p hp => hparts p (List.mem_append_right _ hp)
  simp only [createClauses, bind_ok, pure_ok] at h
  obtain ⟨made, u₁, hmade, shown, u₂, hshown, rfl, rfl⟩ := h
  obtain ⟨bodies, hcalls, hbodies⟩ := newNodes_timed hnodes hmade
  have hquiet := (grants_projections hfields made.2).made hshown
  have hrest := quiet_of_block
    (hquiet.1.opened.give (obeys_list.mpr hquiet.2) ctx.result .block)
  exact ⟨bodies, _, by rw [hcalls, List.append_assoc], hrest, hbodies⟩

theorem updateClauses_timed {u : Update}
    (hparts : ∀ p ∈ Operation.parts (.update u), p.Fits (Allows quiet))
    (h : updateClauses ctx u s = .ok (clauses, t)) : KeepsTime (.update u) clauses := by
  have hfits : (∀ c ∈ u.filter, c.Fits (Allows quiet) false) ∧
      FitsAll (Allows quiet) u.before ∧ FitsAll (Allows quiet) u.after :=
    hparts (.update u) (by simp [Operation.parts])
  simp only [updateClauses, bind_ok, pure_ok] at h
  obtain ⟨found, u₁, hfound, first, u₂, hfirst, own, u₃, hown, written, u₄, hwritten, last, u₅,
    hlast, shown, u₆, hshown, rfl, rfl⟩ := h
  obtain ⟨horigin, hquiet⟩ := labelled_gives hfits.1 hfound
  obtain ⟨more, rfl, hmore⟩ := after_writes u.nested ctx
    (fun p hp => hparts p (by simp [Operation.parts, hp])) hwritten
  obtain ⟨gap, _, hgap, hjoin⟩ := andThen_split (found ++ first ++ own ++ more) last
  obtain ⟨gap', hgap', _, hjoin'⟩ := andThen_split (found ++ first ++ own ++ more ++ gap ++ last)
    shown.1
  have hitems := (grants_items ctx u.fields
    fun p hp => hparts p (by simp [Operation.parts, hp])).made hshown
  have hall : (Expr.apply "collect" [.distinct (.projection ctx.subject shown.2)]).Obeys quiet := by
    simpa using obeys_projection ctx.subject |>.mp (obeys_items hitems.2)
  have hcalls : StillList quiet (gap' ++ shown.1) := stillList_append.mpr ⟨hgap', hitems.1⟩
  have hrest := quiet_of_block (hcalls.opened.give hall ctx.result .block)
  refine .intro ?_ (horigin _) hquiet (validated_asserts hfits.2.1 hfirst)
    (((assigned_writes hown).append hmore).close hgap) (validated_asserts hfits.2.2 hlast) hrest
  rw [hjoin, hjoin']
  simp

theorem deleteClauses_timed {d : Delete}
    (hparts : ∀ p ∈ Operation.parts (.delete d), p.Fits (Allows quiet))
    (h : deleteClauses ctx d s = .ok (clauses, t)) : KeepsTime (.delete d) clauses := by
  have hfits : (∀ c ∈ d.filter, c.Fits (Allows quiet) false) ∧ FitsAll (Allows quiet) d.before :=
    hparts (.delete d) List.mem_cons_self
  simp only [deleteClauses, bind_ok, pure_ok] at h
  obtain ⟨found, u₁, hfound, first, u₂, hfirst, written, u₃, hwritten, rfl, rfl⟩ := h
  obtain ⟨horigin, hquiet⟩ := labelled_gives hfits.1 hfound
  obtain ⟨more, rfl, hmore⟩ := after_writes d.nested ctx
    (fun p hp => hparts p (List.mem_cons_of_mem _ hp)) hwritten
  obtain ⟨gap, _, hgap, hjoin⟩ := andThen_split (found ++ first ++ more)
    [.delete true [ctx.subject]]
  have hdelete : Writes [] [.delete true [ctx.subject]] := .write (.delete ..) .nil
  refine .intro ?_ (horigin _) hquiet (validated_asserts hfits.2 hfirst)
    ((hmore.close hgap).close hdelete) ⟨asserts_nil ctx, quiet_nil⟩ quiet_nil
  rw [hjoin]
  simp

theorem programOf_timed {terms : Terms} {o : Operation}
    (hparts : ∀ p ∈ o.parts, p.Fits (Allows quiet))
    (h : programOf terms o s = .ok (clauses, t)) : KeepsTime o clauses := by
  simp only [programOf, bind_ok, fresh_ok] at h
  obtain ⟨subject, u, _, h⟩ := h
  cases o with
  | lookup l => exact quiet_of_block ((grants_lookupClauses _ l hparts .program).made h).block
  | aggregate a =>
    have hscope : a.scope.Fits (Allows quiet) false := hparts (.aggregate a) List.mem_cons_self
    exact quiet_of_block ((grants_aggregateClauses _ hscope .program).made h).block
  | create c => exact createClauses_timed hparts h
  | update u => exact updateClauses_timed hparts h
  | delete d => exact deleteClauses_timed hparts h

end Operations

end GraphSelection.Program

namespace GraphSelection.Stage

/-- Nobody may change a node but its own, neither before the change nor after it. -/
def selfOnly : Rule :=
  { kind := .validate
    actions := Action.all
    moments := Moment.all
    needsAuthentication := true
    node := some (.record [("name", .text "$jwt.sub")])
    claims := none }

def knows : Relationship :=
  { name := "knows"
    graphType := "KNOWS"
    direction := .outgoing
    target := "Member"
    isList := true
    properties := none
    nestedActions := NestedAction.all }

def member : Entity :=
  { name := "Member"
    labels := ["Member"]
    attributes := [("name", { name := "name", kind := .string })]
    relationships := [("knows", knows)]
    rules := [selfOnly]
    pages := none }

def members : Resolve.Setup :=
  ⟨{ entities := [("Member", member)], composites := [], propertySets := [] }, {}, {}⟩

/-- A member is renamed and meets a new member, and somebody that it knows is deleted. -/
def renamed : Request :=
  { operation := .update
    entity := "Member"
    args :=
      [("where", .record [("name", .text "Emma")]),
       ("update", .record [("name", .text "Jane")]),
       ("create", .record [("knows", .record [("node", .record [("name", .text "Anne")])])]),
       ("delete", .record [("knows", .record [("where", .record
         [("node", .record [("name", .text "Frank")])])])])]
    selection := [.leaf "name"] }

end GraphSelection.Stage

namespace GraphSelection

open Program Resolve

/-- In the program of a change, at the root and at every place nested in it, validations are checked
at their time: those before the change once its node is found and before anything is written there
or below, those after it once all that is written. What is asserted is what the rules of the schema
ask for the action at that moment. -/
theorem compile_timed (s : Setup) (r : Request) (p : Compiled) (h : compile s r = .ok p) :
    ∃ o, s.plan r = .ok o ∧ (∀ part ∈ o.parts, s.Guards part) ∧ KeepsTime o p.clauses := by
  obtain ⟨o, t, hplan, hprogram, _, _⟩ := Scoping.compile_ok h
  have hguards := Setup.operation_guards (Scoping.plan_ok hplan)
  refine ⟨o, hplan, hguards, programOf_timed (fun part hpart => ?_) hprogram⟩
  exact (Setup.guards_fits (hguards part hpart)).mono fun a _ => allows_quiet a

theorem renamed_timed :
    ∃ p o, compile Stage.members Stage.renamed = .ok p ∧
      Stage.members.plan Stage.renamed = .ok o ∧ KeepsTime o p.clauses := by
  obtain ⟨p, h⟩ : ∃ p, compile Stage.members Stage.renamed = .ok p :=
    exists_of_isOk (by decide +kernel)
  obtain ⟨o, hplan, _, htimed⟩ := compile_timed Stage.members Stage.renamed p h
  exact ⟨p, o, h, hplan, htimed⟩

end GraphSelection
