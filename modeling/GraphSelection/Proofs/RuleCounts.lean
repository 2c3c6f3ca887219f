import GraphSelection.Proofs.Resolved.Entries
import GraphSelection.Proofs.Updates
import Mathlib.Algebra.GroupWithZero.Nat

/-!
How often a rule counts. The rules of a scope are drawn for its entity and for each attribute that
is read, measured or written there. A rule of the entity is drawn once. A rule of an attribute is
drawn as often as the attribute occurs, so it counts at most once where no attribute occurs twice.
-/
namespace GraphSelection.Stage

/-- The year of birth, under two keys. -/
def bornTwice : Request :=
  { operation := .read
    entity := "Person"
    selection := [.leaf "born", (Selection.leaf "born").withAlias "year"] }

end GraphSelection.Stage

namespace GraphSelection.Resolve

open GraphSelection Plan

/-- Where a rule is declared: at the entity or at the named one of its attributes, and its position
there. -/
structure RulePlace where
  owner : Option String
  index : Nat
  deriving DecidableEq

@[simp] theorem RulePlace.mk_beq (owner owner' : Option String) (index index' : Nat) :
    ((⟨owner, index⟩ : RulePlace) == ⟨owner', index'⟩) = (owner == owner' && index == index') := by
  rw [Bool.eq_iff_iff]
  simp

/-- What the rule at a place adds to a filter or to a list of validations. -/
structure Share where
  place : RulePlace
  condition : Condition

/-- The rules of an entity and of attributes are gathered if they pass the test. -/
structure Draw where
  attributes : List Attribute
  test : Rule → Bool

def filterDraw (attributes : List Attribute) (action : Action) : Draw :=
  ⟨attributes, fun rule => rule.kind == .filter && rule.appliesTo action⟩

def checkDraw (attributes : List Attribute) (action : Action) (moment : Moment) : Draw :=
  ⟨attributes, fun rule => rule.appliesAt action moment⟩

/-- The rules of one list with their places. -/
def placedAt (owner : Option String) (path : String) (rules : List Rule) :
    List (RulePlace × Declared) :=
  (indexed rules).map fun (index, rule) =>
    (⟨owner, index⟩, ⟨itemPath (childPath path "authorization") index, rule⟩)

def placedRules (e : Entity) (attributes : List Attribute) : List (RulePlace × Declared) :=
  placedAt none e.name e.rules ++
    attributes.flatMap fun a => placedAt (some a.name) (childPath e.name a.name) a.rules

namespace Draw

/-- What the rule asks, if it passes the test and constrains anything. -/
def asked (draw : Draw) (s : Setup) (e : Entity) (d : Declared) : Option Condition :=
  if draw.test d.rule then (ruleCondition s e d).toOption.join else none

/-- There is a rule at the position that passes the test and constrains something. -/
def asksAt (draw : Draw) (s : Setup) (e : Entity) (path : String) (rules : List Rule)
    (index : Nat) : Bool :=
  rules[index]?.any fun rule =>
    (draw.asked s e ⟨itemPath (childPath path "authorization") index, rule⟩).isSome

/-- How often the rule at a place counts: at the entity once, at an attribute as often as the
attribute occurs. -/
def times (draw : Draw) (s : Setup) (e : Entity) (place : RulePlace) : Nat :=
  match place.owner with
  | none => if draw.asksAt s e e.name e.rules place.index then 1 else 0
  | some name => draw.attributes.countP fun a =>
      a.name == name && draw.asksAt s e (childPath e.name a.name) a.rules place.index

end Draw

/-- Each share is what the rule at its place asks, and the rule is among those that are drawn. -/
def ReadFrom (s : Setup) (e : Entity) (draws : List Draw) (shares : List Share) : Prop :=
  ∀ share ∈ shares, ∃ draw ∈ draws, ∃ d, (share.place, d) ∈ placedRules e draw.attributes ∧
    draw.test d.rule = true ∧ ruleCondition s e d = .ok (some share.condition)

def sharesOf (place : RulePlace) (shares : List Share) : Nat :=
  shares.countP fun share => share.place == place

/-- Every rule has as many shares as it is drawn, hence at most one where the attributes of a single
draw are all different. -/
structure Shared (s : Setup) (e : Entity) (draws : List Draw) (shares : List Share) : Prop where
  read : ReadFrom s e draws shares
  counted : ∀ place, sharesOf place shares = (draws.map fun draw => draw.times s e place).sum
  once : ∀ draw, draws = [draw] → (draw.attributes.map Attribute.name).Nodup →
    ∀ place, sharesOf place shares ≤ 1

section Draws

variable {s : Setup} {e : Entity}

theorem countP_zip_range' {α : Type} (p : Nat → α → Bool) (xs : List α) (start index : Nat) :
    ((List.range' start xs.length).zip xs).countP (fun x => x.1 == index && p x.1 x.2) =
      if start ≤ index ∧ xs[index - start]?.any (p index) = true then 1 else 0 := by
  induction xs generalizing start with
  | nil => simp
  | cons x rest ih =>
    rw [List.length_cons, List.range'_succ, List.zip_cons_cons, List.countP_cons, ih]
    by_cases hhere : start = index
    · subst hhere
      have hpast : ¬ start + 1 ≤ start := by omega
      simp [hpast]
    · by_cases hlater : start + 1 ≤ index
      · have hle : start ≤ index := by omega
        have hstep : index - start = index - (start + 1) + 1 := by omega
        simp [hhere, hlater, hle, hstep]
      · have hnot : ¬ start ≤ index := by omega
        simp [hhere, hlater, hnot]

/-- A list of rules has one rule at each of its positions. -/
theorem countP_placedAt (p : Declared → Bool) (owner : Option String) (path : String)
    (rules : List Rule) (place : RulePlace) :
    (placedAt owner path rules).countP (fun x => x.1 == place && p x.2) =
      if owner = place.owner ∧ rules[place.index]?.any (fun rule =>
        p ⟨itemPath (childPath path "authorization") place.index, rule⟩) = true
      then 1 else 0 := by
  obtain ⟨owner', index⟩ := place
  rw [placedAt, List.countP_map, indexed, List.range_eq_range']
  by_cases howner : owner = owner'
  · subst howner
    have hcount := countP_zip_range'
      (fun i rule => p ⟨itemPath (childPath path "authorization") i, rule⟩) rules 0 index
    simpa [Function.comp_def] using hcount
  · rw [List.countP_eq_zero.mpr]
    · simp [howner]
    · intro x _
      simp [howner]

theorem placedRules_declared (e : Entity) (attributes : List Attribute) :
    (placedRules e attributes).map Prod.snd = declaredRules e attributes := by
  simp [placedRules, declaredRules, placedAt, declaredAt, List.map_flatMap, Function.comp_def]

namespace Draw

variable {draw : Draw}

/-- What the rules of the draw ask, each with the place of its rule. -/
def shares (draw : Draw) (s : Setup) (e : Entity) : List Share :=
  (placedRules e draw.attributes).filterMap fun x => (draw.asked s e x.2).map (Share.mk x.1)

theorem asked_eq_some {d : Declared} {c : Condition} :
    draw.asked s e d = some c ↔ draw.test d.rule = true ∧ ruleCondition s e d = .ok (some c) := by
  unfold asked
  split
  · rename_i htest
    cases hread : ruleCondition s e d with
    | error failure => simp [Except.toOption]
    | ok asked => simp [Except.toOption, htest]
  · rename_i htest
    simp [htest]

theorem filterMap_of_mapM {α : Type} {f : α → Result (Option Condition)} {xs : List α}
    {found : List (Option Condition)} (h : xs.mapM f = .ok found) :
    found.filterMap id = xs.filterMap fun x => (f x).toOption.join := by
  induction xs generalizing found with
  | nil =>
    simp only [List.mapM_nil, except_pure_ok] at h
    subst h
    rfl
  | cons x rest ih =>
    simp only [List.mapM_cons, except_bind_ok, except_pure_ok] at h
    obtain ⟨first, hfirst, more, hmore, rfl⟩ := h
    rw [List.filterMap_cons, List.filterMap_cons, ih hmore, hfirst]
    rfl

/-- The conditions of rules are those of the shares, in order. -/
theorem shares_conditions {cs : List Condition}
    (h : ruleConditions s e draw.attributes draw.test = .ok cs) :
    cs = (draw.shares s e).map Share.condition := by
  simp only [ruleConditions, except_bind_ok, except_pure_ok] at h
  obtain ⟨found, hfound, rfl⟩ := h
  rw [filterMap_of_mapM hfound, ← placedRules_declared, List.filterMap_filter, List.filterMap_map,
    shares, List.map_filterMap]
  refine List.filterMap_congr fun x _ => ?_
  simp only [Function.comp_apply, asked]
  split
  · simp [Function.comp_def]
  · rfl

theorem shares_read (share : Share) (h : share ∈ draw.shares s e) :
    ∃ d, (share.place, d) ∈ placedRules e draw.attributes ∧ draw.test d.rule = true ∧
      ruleCondition s e d = .ok (some share.condition) := by
  obtain ⟨⟨place, d⟩, hplaced, hshare⟩ := List.mem_filterMap.mp h
  obtain ⟨c, hasked, rfl⟩ := Option.map_eq_some_iff.mp hshare
  obtain ⟨htest, hread⟩ := asked_eq_some.mp hasked
  exact ⟨d, hplaced, htest, hread⟩

theorem sharesOf_shares (place : RulePlace) :
    sharesOf place (draw.shares s e) =
      (placedRules e draw.attributes).countP fun x =>
        x.1 == place && (draw.asked s e x.2).isSome := by
  rw [sharesOf, shares, List.countP_filterMap]
  congr 1
  funext x
  cases draw.asked s e x.2 with
  | none => simp
  | some c => simp

theorem countP_attributes (p : Declared → Bool) (e : Entity) (attributes : List Attribute)
    (owner : Option String) (index : Nat) :
    (attributes.flatMap fun a =>
        placedAt (some a.name) (childPath e.name a.name) a.rules).countP
        (fun x => x.1 == ⟨owner, index⟩ && p x.2) =
      attributes.countP fun a => some a.name == owner && a.rules[index]?.any fun rule =>
        p ⟨itemPath (childPath (childPath e.name a.name) "authorization") index, rule⟩ := by
  induction attributes with
  | nil => rfl
  | cons a rest ih =>
    rw [List.flatMap_cons, List.countP_append, ih, countP_placedAt, List.countP_cons, Nat.add_comm]
    simp

/-- Each place has as many shares as its rule is drawn. -/
theorem sharesOf_eq_times (place : RulePlace) :
    sharesOf place (draw.shares s e) = draw.times s e place := by
  obtain ⟨owner, index⟩ := place
  have hentity := countP_placedAt (fun d => (draw.asked s e d).isSome) none e.name e.rules
    ⟨owner, index⟩
  have hattributes := countP_attributes (fun d => (draw.asked s e d).isSome) e draw.attributes
    owner index
  rw [sharesOf_shares, placedRules, List.countP_append, hentity, hattributes]
  cases owner with
  | none =>
    by_cases hasks : draw.asksAt s e e.name e.rules index = true
    · simp_all [times, asksAt]
    · simp_all [times, asksAt]
  | some name => simp [times, asksAt]

/-- No rule is drawn twice where the attributes are all different. -/
theorem times_le_one (hnodup : (draw.attributes.map Attribute.name).Nodup) (place : RulePlace) :
    draw.times s e place ≤ 1 := by
  unfold times
  split
  · split
    · exact Nat.le_refl 1
    · exact Nat.zero_le 1
  · rename_i name _
    have hfewer : draw.attributes.countP (fun a => a.name == name &&
          draw.asksAt s e (childPath e.name a.name) a.rules place.index) ≤
        draw.attributes.countP (fun a => a.name == name) := by
      apply List.countP_mono_left
      intro a _ ha
      exact (Bool.and_eq_true_iff.mp ha).1
    have hcount : draw.attributes.countP (fun a => a.name == name) =
        (draw.attributes.map Attribute.name).count name := by
      rw [List.count, List.countP_map]
      rfl
    have honce : (draw.attributes.map Attribute.name).count name ≤ 1 :=
      List.nodup_iff_count.mp hnodup name
    omega

end Draw

/-- What the rules of some draws ask, draw by draw. -/
theorem shared_draws (draws : List Draw) :
    Shared s e draws (draws.flatMap fun draw => draw.shares s e) := by
  have hcounted : ∀ place, sharesOf place (draws.flatMap fun draw => draw.shares s e) =
      (draws.map fun draw => draw.times s e place).sum := by
    intro place
    rw [sharesOf, List.countP_flatMap]
    congr 1
    apply List.map_congr_left
    intro draw _
    exact draw.sharesOf_eq_times place
  refine ⟨?_, hcounted, ?_⟩
  · intro share hshare
    obtain ⟨draw, hdraw, hshare⟩ := List.mem_flatMap.mp hshare
    exact ⟨draw, hdraw, draw.shares_read share hshare⟩
  · rintro draw rfl hnodup place
    have hone := hcounted place
    have hle : draw.times s e place ≤ 1 := draw.times_le_one hnodup place
    simp only [List.map_cons, List.map_nil, List.sum_cons, List.sum_nil] at hone
    omega

end Draws

/-- A filter over an entity, for an action on its nodes and the attributes that are touched. -/
structure RuledFilter where
  entity : Entity
  attributes : List Attribute
  action : Action
  filter : Option Condition

/-- A list of validations over an entity, with the draws that they are taken from. -/
structure RuledChecks where
  entity : Entity
  draws : List Draw
  checks : List Condition

def readFilter (scope : Scope) (attributes : List Attribute) : RuledFilter :=
  ⟨scope.entity, attributes, .read, scope.filter⟩

def readChecks (scope : Scope) (attributes : List Attribute) : RuledChecks :=
  ⟨scope.entity, [checkDraw attributes .read .before], scope.validations⟩

def lookupFilters : Lookup Field → List RuledFilter
  | .read r => [readFilter r.scope (Field.attributes r.fields)]
  | .connection c => [readFilter c.scope (Setup.edgeNodeAttributes c.items)]
  | .composite c => c.branches.map fun b => readFilter b.scope (Field.attributes b.fields)
  | .compositeConnection c =>
      c.branches.map fun b => readFilter b.read.scope (Field.attributes b.read.fields)

def lookupChecks : Lookup Field → List RuledChecks
  | .read r => [readChecks r.scope (Field.attributes r.fields)]
  | .connection c => [readChecks c.scope (Setup.edgeNodeAttributes c.items)]
  | .composite c => c.branches.map fun b => readChecks b.scope (Field.attributes b.fields)
  | .compositeConnection c =>
      c.branches.map fun b => readChecks b.read.scope (Field.attributes b.read.fields)

def changeFilters : Mutation → List RuledFilter
  | .create _ _ _ => []
  | .connect link filter _ _ => [⟨link.target, [], .createRelationship, filter⟩]
  | .disconnect link filter _ => [⟨link.target, [], .deleteRelationship, filter⟩]
  | .update link filter _ _ _ _ => [⟨link.target, [], .update, filter⟩]
  | .delete link filter _ _ => [⟨link.target, [], .delete, filter⟩]

/-- A new node at the end of a relationship is validated as a node and for the relationship. -/
def changeChecks : Mutation → List RuledChecks
  | .create link n _ =>
      [⟨link.target,
        [checkDraw (writtenBy n.assignments) .create .after,
          checkDraw [] .createRelationship .after], n.validations⟩]
  | .connect link _ _ validations =>
      [⟨link.target, [checkDraw [] .createRelationship .after], validations⟩]
  | .disconnect link _ validations =>
      [⟨link.target, [checkDraw [] .deleteRelationship .before], validations⟩]
  | .update link _ before node _ after =>
      [⟨link.target, [checkDraw (writtenBy node) .update .before], before⟩,
        ⟨link.target, [checkDraw (writtenBy node) .update .after], after⟩]
  | .delete link _ before _ => [⟨link.target, [checkDraw [] .delete .before], before⟩]

/-- The filters of a part by itself. -/
def ruledFilters : Part → List RuledFilter
  | .field _ => []
  | .lookup l => lookupFilters l
  | .aggregate a =>
      [⟨a.scope.entity, AggregateItem.nodeAttributesOf a.items, .aggregate, a.scope.filter⟩]
  | .newNode _ _ => []
  | .change m => changeFilters m
  | .update u => [⟨u.entity, writtenBy u.assignments, .update, u.filter⟩]
  | .delete d => [⟨d.entity, [], .delete, d.filter⟩]

/-- The lists of validations of a part by itself. -/
def ruledChecks : Part → List RuledChecks
  | .field _ => []
  | .lookup l => lookupChecks l
  | .aggregate a =>
      [⟨a.scope.entity, [checkDraw (AggregateItem.nodeAttributesOf a.items) .aggregate .before],
        a.scope.validations⟩]
  | .newNode e n => [⟨e, [checkDraw (writtenBy n.assignments) .create .after], n.validations⟩]
  | .change m => changeChecks m
  | .update u =>
      [⟨u.entity, [checkDraw (writtenBy u.assignments) .update .before], u.before⟩,
        ⟨u.entity, [checkDraw (writtenBy u.assignments) .update .after], u.after⟩]
  | .delete d => [⟨d.entity, [checkDraw [] .delete .before], d.before⟩]

/-- The filter demands what the request asks and what the rules ask, in one conjunction. -/
def RuledFilter.Joins (s : Setup) (x : RuledFilter) : Prop :=
  ∃ (asked : List Condition) (rules : Option Condition) (edge : List Condition),
    (∀ c ∈ asked ++ edge, AskedOf s x.entity c) ∧
    guardFilter s x.entity x.attributes x.action = .ok rules ∧
    demands x.filter =
      asked.flatMap Condition.flat ++ demands rules ++ edge.flatMap Condition.flat

/-- The list consists of what its draws give, one after the other. -/
def RuledChecks.Gathers (s : Setup) (x : RuledChecks) : Prop :=
  ∃ lists, List.Forall₂
    (fun draw cs => ruleConditions s x.entity draw.attributes draw.test = .ok cs) x.draws lists ∧
    x.checks = lists.flatten

section Filters

variable {s : Setup} {e : Entity} {via : Option Via} {q : Asked} {path : String}
  {below : FieldReader}

theorem whereCondition_asked {members : Option Doc.Members} {asked : Option Condition}
    (h : s.whereCondition e members path = .ok asked) : ∀ c ∈ asked.toList, AskedOf s e c := by
  intro c hc
  have hsome : asked = some c := Option.mem_toList.mp hc
  subst hsome
  cases members with
  | none => cases h
  | some members => exact ⟨.node e, members, _, .inl rfl, h⟩

theorem edgeCondition_asked {properties : Option PropertySet} {edge : Option Placed}
    {asked : Option Condition} (h : edgeCondition s via properties edge = .ok asked) :
    ∀ c ∈ asked.toList, AskedOf s e c := by
  intro c hc
  have hsome : asked = some c := Option.mem_toList.mp hc
  subst hsome
  unfold edgeCondition at h
  split at h
  · cases h
  · split at h
    · cases h
    · exact ⟨_, _, _, .inr ⟨_, rfl⟩, h⟩

/-- What a filter demands when it is joined out of what is asked and the rules. -/
theorem joins_allOf {attributes : List Attribute} {action : Action} {asked : List Condition}
    {rules : Option Condition} (hasked : ∀ c ∈ asked, AskedOf s e c)
    (h : guardFilter s e attributes action = .ok rules) :
    (RuledFilter.mk e attributes action (Condition.allOf (asked ++ rules.toList))).Joins s := by
  refine ⟨asked, rules, [], ?_, h, ?_⟩
  · simpa using hasked
  · rw [demands_allOf, List.flatMap_append, List.flatMap_nil, List.append_nil, demands]

theorem guardedScope_joins {relationship : Option Relationship} {asked : List Condition}
    {attributes : List Attribute} {action : Action} {scope : Scope}
    (hasked : ∀ c ∈ asked, AskedOf s e c)
    (h : guardedScope s e relationship asked attributes action = .ok scope) :
    (RuledFilter.mk scope.entity attributes action scope.filter).Joins s := by
  simp only [guardedScope, except_bind_ok, except_pure_ok] at h
  obtain ⟨rules, hrules, _, _, rfl⟩ := h
  exact joins_allOf hasked hrules

theorem readScope_joins {members : Option Doc.Members} {fields : List Field}
    {arrangement : Arrangement} {r : Read Field}
    (h : s.readScope e via members fields arrangement path = .ok r) :
    (readFilter r.scope (Field.attributes r.fields)).Joins s := by
  simp only [Setup.readScope, except_bind_ok, except_pure_ok] at h
  obtain ⟨asked, hasked, scope, hscope, rfl⟩ := h
  exact guardedScope_joins (whereCondition_asked hasked) hscope

/-- The condition on the edges goes beside the others in every branch. -/
theorem RuledFilter.Joins.and {x : RuledFilter} (h : x.Joins s) {edge : List Condition}
    (hedge : ∀ c ∈ edge, AskedOf s x.entity c) :
    (RuledFilter.mk x.entity x.attributes x.action
      (Condition.allOf (x.filter.toList ++ edge))).Joins s := by
  obtain ⟨asked, rules, inner, hasked, hrules, hdemands⟩ := h
  refine ⟨asked, rules, inner ++ edge, ?_, hrules, ?_⟩
  · intro c hc
    rw [← List.append_assoc] at hc
    rcases List.mem_append.mp hc with hc | hc
    · exact hasked c hc
    · exact hedge c hc
  · rw [demands_allOf, List.flatMap_append, List.flatMap_append, ← List.append_assoc, ← hdemands]
    rfl

theorem readOf_joins {target : Target} {l : Lookup Field}
    (h : s.readOf below target via q path = .ok l) : ∀ x ∈ lookupFilters l, x.Joins s := by
  cases target with
  | entity e =>
    obtain ⟨r, hr, rfl⟩ := (except_map_ok ..).mp h
    simp only [Setup.entityRead, except_bind_ok] at hr
    obtain ⟨_, _, _, _, _, _, hscope⟩ := hr
    intro x hx
    obtain rfl := List.mem_singleton.mp hx
    exact readScope_joins hscope
  | composite c =>
    obtain ⟨r, hr, rfl⟩ := (except_map_ok ..).mp h
    simp only [Setup.compositeRead, except_bind_ok, except_pure_ok] at hr
    obtain ⟨_, _, _, _, _, _, branches, hbranches, rfl⟩ := hr
    intro x hx
    obtain ⟨b, hb, rfl⟩ := List.mem_map.mp hx
    obtain ⟨⟨e, rest⟩, _, hmade⟩ := mem_of_mapM_ok hbranches b hb
    simp only [Setup.branch, except_bind_ok] at hmade
    obtain ⟨_, _, _, _, hscope⟩ := hmade
    exact readScope_joins hscope

theorem entityConnection_joins {c : Connection Field}
    (h : s.entityConnection below e via q path = .ok c) :
    (readFilter c.scope (Setup.edgeNodeAttributes c.items)).Joins s := by
  simp only [Setup.entityConnection, except_bind_ok, except_pure_ok] at h
  obtain ⟨items, _, parts, _, node, hnode, edge, hedge, scope, hscope, _, _, rfl⟩ := h
  refine guardedScope_joins ?_ hscope
  intro c hc
  rcases List.mem_append.mp hc with hc | hc
  · have hsome : node = some c := Option.mem_toList.mp hc
    subst hsome
    split at hnode
    · cases hnode
    · exact ⟨.node e, _, _, .inl rfl, hnode⟩
  · exact edgeCondition_asked hedge c hc

theorem compositeConnection_joins {c : Composite} {r : CompositeConnection Field}
    (h : s.compositeConnection below c via q path = .ok r) :
    ∀ b ∈ r.branches, (readFilter b.read.scope (Field.attributes b.read.fields)).Joins s := by
  obtain ⟨parts, _, branches, ⟨_, _, _, _, _, hedge, _⟩, _, hbranches, rfl⟩ :=
    Setup.compositeConnection_iff.mp h
  intro b hb
  obtain ⟨⟨e, rest⟩, _, hmade⟩ := mem_of_mapM_ok hbranches b hb
  obtain ⟨fields, read, _, hbranch, rfl⟩ := Setup.connectionBranch_ok.mp hmade
  simp only [Setup.branch, except_bind_ok] at hbranch
  obtain ⟨_, _, hscope⟩ := hbranch
  exact (readScope_joins hscope).and (edgeCondition_asked hedge)

theorem connectionOf_joins {target : Target} {l : Lookup Field}
    (h : s.connectionOf below target via q path = .ok l) : ∀ x ∈ lookupFilters l, x.Joins s := by
  cases target with
  | entity e =>
    obtain ⟨c, hc, rfl⟩ := (except_map_ok ..).mp h
    intro x hx
    obtain rfl := List.mem_singleton.mp hx
    exact entityConnection_joins hc
  | composite c =>
    obtain ⟨r, hr, rfl⟩ := (except_map_ok ..).mp h
    intro x hx
    obtain ⟨b, hb, rfl⟩ := List.mem_map.mp hx
    exact compositeConnection_joins hr b hb

theorem guardedAggregate_joins {relationship : Option Relationship} {args : Doc.Members}
    {items : List AggregateItem} {a : Aggregate}
    (h : guardedAggregate s e relationship args items path = .ok a) :
    ∀ x ∈ ruledFilters (.aggregate a), x.Joins s := by
  simp only [guardedAggregate, except_bind_ok, except_pure_ok] at h
  obtain ⟨_, _, asked, hasked, scope, hscope, rfl⟩ := h
  intro x hx
  obtain rfl := List.mem_singleton.mp hx
  exact guardedScope_joins (whereCondition_asked hasked) hscope

/-- What is read for an entry of the request. -/
theorem readFor_joins {p : Part} (h : s.ReadFor q p) : ∀ x ∈ ruledFilters p, x.Joins s := by
  cases p with
  | lookup l =>
    obtain ⟨_, _, _, _, _, _, h | h⟩ := h
    · exact readOf_joins h
    · exact connectionOf_joins h
  | aggregate a =>
    rcases h with ⟨via, _, h⟩ | ⟨e, _, h⟩
    · simp only [relatedAggregate, except_bind_ok] at h
      obtain ⟨target, _, h⟩ := h
      cases target with
      | composite c => simp only [except_throw_ok] at h
      | entity e =>
        simp only [except_bind_ok] at h
        obtain ⟨_, _, h⟩ := h
        exact guardedAggregate_joins h
    · simp only [rootAggregate, except_bind_ok] at h
      obtain ⟨_, _, h⟩ := h
      exact guardedAggregate_joins h
  | field f => exact h.elim
  | newNode e n => exact h.elim
  | change m => exact h.elim
  | update u => exact h.elim
  | delete d => exact h.elim

theorem linkFilter_joins {l : Link} {properties : Option PropertySet} {item : Placed}
    {action : Action} {filter : Option Condition}
    (h : s.linkFilter l properties item action = .ok filter) :
    (RuledFilter.mk l.target [] action filter).Joins s := by
  simp only [Setup.linkFilter, except_bind_ok, except_pure_ok] at h
  obtain ⟨_, _, parts, hparts, rules, hrules, rfl⟩ := h
  refine joins_allOf ?_ hrules
  intro c hc
  obtain ⟨part, hpart, hc⟩ := List.mem_flatten.mp hc
  obtain ⟨entry, _, hentry⟩ := mem_of_mapM_ok hparts part hpart
  exact linkPart_asked hentry c hc

theorem makes_joins {m : Mutation} (h : s.Makes m) : ∀ x ∈ changeFilters m, x.Joins s := by
  cases h with
  | create h =>
    simp only [Setup.nestedCreate, except_bind_ok, except_pure_ok] at h
    obtain ⟨_, _, _, _, _, _, _, _, _, _, _, _, rfl⟩ := h
    intro x hx
    exact absurd hx List.not_mem_nil
  | connect h =>
    simp only [Setup.nestedConnect, except_bind_ok, except_pure_ok] at h
    obtain ⟨_, _, filter, hfilter, _, _, _, _, _, _, rfl⟩ := h
    intro x hx
    obtain rfl := List.mem_singleton.mp hx
    exact linkFilter_joins hfilter
  | disconnect h =>
    simp only [Setup.nestedDisconnect, except_bind_ok, except_pure_ok] at h
    obtain ⟨_, _, filter, hfilter, _, _, rfl⟩ := h
    intro x hx
    obtain rfl := List.mem_singleton.mp hx
    exact linkFilter_joins hfilter
  | update h =>
    simp only [Setup.nestedUpdate, except_bind_ok, except_pure_ok] at h
    obtain ⟨_, _, filter, hfilter, _, _, _, _, _, _, _, _, _, _, _, _, _, _, rfl⟩ := h
    intro x hx
    obtain rfl := List.mem_singleton.mp hx
    exact linkFilter_joins hfilter
  | delete h =>
    simp only [Setup.nestedDelete, except_bind_ok, except_pure_ok] at h
    obtain ⟨_, _, filter, hfilter, _, _, _, _, rfl⟩ := h
    intro x hx
    obtain rfl := List.mem_singleton.mp hx
    exact linkFilter_joins hfilter

theorem atRoot_joins {p : Part} (h : s.MadeAtRoot p) (hread : ¬ p.IsRead)
    (hchange : ∀ m, p ≠ .change m) : ∀ x ∈ ruledFilters p, x.Joins s := by
  intro x hx
  cases p with
  | update u =>
    obtain ⟨e, q, path, hu⟩ := h
    simp only [Setup.update, except_bind_ok, except_pure_ok] at hu
    obtain ⟨_, _, _, _, _, _, _, _, _, _, asked, hasked, rules, hrules, _, _, _, _, _, _, rfl⟩ := hu
    obtain rfl := List.mem_singleton.mp hx
    exact joins_allOf (whereCondition_asked hasked) hrules
  | delete d =>
    obtain ⟨e, q, path, hd⟩ := h
    simp only [Setup.delete, except_bind_ok, except_pure_ok] at hd
    obtain ⟨_, _, asked, hasked, rules, hrules, _, _, _, _, _, _, rfl⟩ := hd
    obtain rfl := List.mem_singleton.mp hx
    exact joins_allOf (whereCondition_asked hasked) hrules
  | field f => exact absurd hx List.not_mem_nil
  | newNode e n => exact absurd hx List.not_mem_nil
  | lookup l => exact absurd trivial hread
  | aggregate a => exact absurd trivial hread
  | change m => exact absurd rfl (hchange m)

theorem operation_joins {r : Request} {o : Operation} (ho : s.operation r = .ok o) {p : Part}
    (hp : p ∈ o.parts) : ∀ x ∈ ruledFilters p, x.Joins s := by
  by_cases hread : p.IsRead
  · obtain ⟨q, _, hfor⟩ := Setup.operation_reads ho hp hread
    exact readFor_joins hfor
  · by_cases hchange : ∃ m, p = .change m
    · obtain ⟨m, rfl⟩ := hchange
      exact makes_joins (Setup.operation_made ho m hp)
    · have hne : ∀ m, p ≠ .change m := fun m heq => hchange ⟨m, heq⟩
      exact atRoot_joins (Setup.operation_atRoot ho p hp) hread hne

end Filters

section Checks

variable {s : Setup} {e : Entity}

/-- A list of validations that is one draw. -/
theorem gathers_draw {draw : Draw} {cs : List Condition}
    (h : ruleConditions s e draw.attributes draw.test = .ok cs) :
    (RuledChecks.mk e [draw] cs).Gathers s :=
  ⟨[cs], .cons h .nil, by simp⟩

theorem lookup_gathers {l : Lookup Field} (h : s.GuardsLookup l) :
    ∀ x ∈ lookupChecks l, x.Gathers s := by
  intro x hx
  cases l with
  | read r =>
    obtain rfl := List.mem_singleton.mp hx
    exact gathers_draw h.scope.validations
  | connection c =>
    obtain rfl := List.mem_singleton.mp hx
    exact gathers_draw h.1.validations
  | composite c =>
    obtain ⟨b, hb, rfl⟩ := List.mem_map.mp hx
    exact gathers_draw (h b hb).1.scope.validations
  | compositeConnection c =>
    obtain ⟨b, hb, rfl⟩ := List.mem_map.mp hx
    exact gathers_draw (h b hb).1.scope.validations

theorem change_gathers {m : Mutation} (h : s.GuardsChange m) :
    ∀ x ∈ changeChecks m, x.Gathers s := by
  intro x hx
  cases m with
  | create link n edge =>
    obtain ⟨_, own, linked, hown, hlinked, hall⟩ := h
    obtain rfl := List.mem_singleton.mp hx
    exact ⟨[own, linked], .cons hown (.cons hlinked .nil), by simp [hall]⟩
  | connect link filter edge validations =>
    obtain rfl := List.mem_singleton.mp hx
    exact gathers_draw h.2.2
  | disconnect link filter validations =>
    obtain rfl := List.mem_singleton.mp hx
    exact gathers_draw h.2.2
  | update link filter before node edge after =>
    rcases List.mem_cons.mp hx with rfl | hx
    · exact gathers_draw h.2.2.1
    · obtain rfl := List.mem_singleton.mp hx
      exact gathers_draw h.2.2.2
  | delete link filter before nested =>
    obtain rfl := List.mem_singleton.mp hx
    exact gathers_draw h.2.2

theorem guards_gather {p : Part} (h : s.Guards p) : ∀ x ∈ ruledChecks p, x.Gathers s := by
  cases p with
  | lookup l => exact lookup_gathers h
  | change m => exact change_gathers h
  | field f =>
    intro x hx
    exact absurd hx List.not_mem_nil
  | aggregate a =>
    intro x hx
    obtain rfl := List.mem_singleton.mp hx
    exact gathers_draw (Guarded.validations h)
  | newNode e n =>
    intro x hx
    obtain rfl := List.mem_singleton.mp hx
    exact gathers_draw h.2
  | update u =>
    intro x hx
    rcases List.mem_cons.mp hx with rfl | hx
    · exact gathers_draw h.2.2.1
    · obtain rfl := List.mem_singleton.mp hx
      exact gathers_draw h.2.2.2
  | delete d =>
    intro x hx
    obtain rfl := List.mem_singleton.mp hx
    exact gathers_draw h.2.2

/-- The lists of draws are the conditions of their shares. -/
theorem shares_of_lists {draws : List Draw} {lists : List (List Condition)}
    (h : List.Forall₂
      (fun draw cs => ruleConditions s e draw.attributes draw.test = .ok cs) draws lists) :
    lists.flatten = (draws.flatMap fun draw => draw.shares s e).map Share.condition := by
  induction h with
  | nil => rfl
  | cons hfirst _ ih =>
    rw [List.flatten_cons, List.flatMap_cons, List.map_append, ih, Draw.shares_conditions hfirst]

end Checks

/-- How often the rules of the schema count in the filters and in the lists of validations of a
plan, at every depth. A filter demands what the request asks and the share of each rule beside it; a
list of validations consists of shares. A rule of the entity has one share in a draw, a rule of an
attribute has one for each time that the attribute is read, measured or written there. -/
theorem rules_counted (s : Setup) (r : Request) (o : Operation) (ho : s.operation r = .ok o)
    (part : Part) (hpart : part ∈ o.parts) :
    (∀ x ∈ ruledFilters part, ∃ (asked : List Condition) (shares : List Share)
        (edge : List Condition),
      (∀ c ∈ asked ++ edge, AskedOf s x.entity c) ∧
      demands x.filter =
        (asked ++ shares.map Share.condition ++ edge).flatMap Condition.flat ∧
      Shared s x.entity [filterDraw x.attributes x.action] shares) ∧
    ∀ x ∈ ruledChecks part, ∃ shares : List Share,
      x.checks = shares.map Share.condition ∧ Shared s x.entity x.draws shares := by
  constructor
  · intro x hx
    obtain ⟨asked, rules, edge, hasked, hrules, hdemands⟩ := operation_joins ho hpart x hx
    refine ⟨asked, (filterDraw x.attributes x.action).shares s x.entity, edge, hasked, ?_, ?_⟩
    · simp only [guardFilter, except_bind_ok, except_pure_ok] at hrules
      obtain ⟨parts, hparts, rfl⟩ := hrules
      have hshares := (filterDraw x.attributes x.action).shares_conditions hparts
      rw [hdemands, demands_allOf, List.flatMap_append, List.flatMap_append, hshares]
    · have hshared : Shared s x.entity [filterDraw x.attributes x.action]
          ([filterDraw x.attributes x.action].flatMap fun draw => draw.shares s x.entity) :=
        shared_draws _
      simpa using hshared
  · intro x hx
    obtain ⟨lists, hlists, hchecks⟩ :=
      guards_gather (Setup.operation_guards ho part hpart) x hx
    exact ⟨_, hchecks.trans (shares_of_lists hlists), shared_draws x.draws⟩

/-- The year of birth is shown once, so its rule counts once. -/
theorem famous_counted :
    ∃ r shares, Stage.setup.operation Stage.famous = .ok (.lookup (.read r)) ∧
      r.scope.validations = shares.map Share.condition ∧
      ReadFrom Stage.setup r.scope.entity
        [checkDraw (Field.attributes r.fields) .read .before] shares ∧
      sharesOf ⟨some "born", 0⟩ shares = 1 := by
  obtain ⟨r, ho, hentity, hattributes⟩ :
      ∃ r, Stage.setup.operation Stage.famous = .ok (.lookup (.read r)) ∧
        r.scope.entity = Stage.person ∧
        (checkDraw (Field.attributes r.fields) .read .before).times Stage.setup Stage.person
          ⟨some "born", 0⟩ = 1 :=
    ⟨_, rfl, rfl, rfl⟩
  obtain ⟨_, hchecks⟩ :=
    rules_counted Stage.setup Stage.famous _ ho (.lookup (.read r)) List.mem_cons_self
  obtain ⟨shares, hvalidations, hshared⟩ := hchecks _ List.mem_cons_self
  refine ⟨r, shares, ho, hvalidations, hshared.read, ?_⟩
  rw [hshared.counted]
  change [(checkDraw _ _ _).times Stage.setup r.scope.entity _].sum = 1
  rw [hentity, hattributes]
  rfl

theorem bornTwice_place (place : RulePlace) (d : Declared)
    (h : (place, d) ∈ placedRules Stage.person [Stage.born, Stage.born])
    (htest : d.rule.appliesAt .read .before = true) : place = ⟨some "born", 0⟩ := by
  have hplaced : placedRules Stage.person [Stage.born, Stage.born] =
      [(⟨none, 0⟩, ⟨"Person.authorization[0]", Stage.ownNode⟩),
       (⟨some "born", 0⟩, ⟨"Person.born.authorization[0]", Stage.signedIn⟩),
       (⟨some "born", 0⟩, ⟨"Person.born.authorization[0]", Stage.signedIn⟩)] := rfl
  rw [hplaced] at h
  simp only [List.mem_cons, List.not_mem_nil, or_false, Prod.mk.injEq] at h
  rcases h with ⟨rfl, rfl⟩ | ⟨rfl, rfl⟩ | ⟨rfl, rfl⟩
  · cases htest
  · rfl
  · rfl

/-- The year of birth is shown under two keys, and the one rule that guards it is validated twice.
Whatever rules the two validations are put down to, one of them counts more than once. -/
theorem bornTwice_repeated :
    ∃ r, Stage.setup.operation Stage.bornTwice = .ok (.lookup (.read r)) ∧
      ∀ shares, r.scope.validations = shares.map Share.condition →
        ReadFrom Stage.setup r.scope.entity
          [checkDraw (Field.attributes r.fields) .read .before] shares →
        ∃ place, 1 < sharesOf place shares := by
  obtain ⟨r, ho, hentity, hattributes, htwice⟩ :
      ∃ r, Stage.setup.operation Stage.bornTwice = .ok (.lookup (.read r)) ∧
        r.scope.entity = Stage.person ∧
        Field.attributes r.fields = [Stage.born, Stage.born] ∧ r.scope.validations.length = 2 :=
    ⟨_, rfl, rfl, rfl, rfl⟩
  refine ⟨r, ho, fun shares hvalidations hread => ⟨⟨some "born", 0⟩, ?_⟩⟩
  rw [hentity, hattributes] at hread
  have hall : sharesOf ⟨some "born", 0⟩ shares = shares.length := by
    apply List.countP_eq_length.mpr
    intro share hshare
    obtain ⟨draw, hdraw, d, hplaced, htest, _⟩ := hread share hshare
    obtain rfl := List.mem_singleton.mp hdraw
    have hplace := bornTwice_place share.place d hplaced htest
    simp [hplace]
  have hlength : shares.length = 2 := by
    rw [hvalidations, List.length_map] at htwice
    exact htwice
  omega

end GraphSelection.Resolve
