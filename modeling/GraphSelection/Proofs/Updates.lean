import GraphSelection.Proofs.Resolved.Origins
import GraphSelection.Proofs.Timed

/-!
Updates at the root of a request and updates across a relationship. Both are validated by the rules
of the entity and of the attributes they write, at the moments the rules name. The two are not
filtered alike: at the root the filter rules of the written attributes narrow the filter, across a
relationship those of the entity do and nothing else but the request itself.
-/
namespace GraphSelection.Resolve

open GraphSelection Plan

section Updates

/-- An update of nodes of one entity. -/
structure Updating where
  entity : Entity
  written : List Attribute
  filter : Option Condition
  before : List Condition
  after : List Condition

def Updating.validations (u : Updating) : Moment → List Condition
  | .before => u.before
  | .after => u.after

/-- The update at the root of a request. -/
def atRoot (u : Update) : Updating :=
  ⟨u.entity, writtenBy u.assignments, u.filter, u.before, u.after⟩

/-- The update that a part makes of the nodes at the end of a relationship. -/
def across : Part → Option Updating
  | .change (.update link filter before node _ after) =>
      some ⟨link.target, writtenBy node, filter, before, after⟩
  | _ => none

/-- The rules of a list that have a kind and guard updates. -/
def forUpdate (kind : RuleKind) (rules : List Declared) : List Declared :=
  rules.filter fun d => d.rule.kind == kind && d.rule.appliesTo .update

/-- The filter of the update demands all that the rule asks. -/
def Narrows (s : Setup) (u : Updating) (d : Declared) : Prop :=
  ∃ asked, ruleCondition s u.entity d = .ok asked ∧ ∀ c ∈ demands asked, c ∈ demands u.filter

/-- What the rule asks is validated at every moment it names. -/
def Validates (s : Setup) (u : Updating) (d : Declared) : Prop :=
  ∀ moment ∈ d.rule.moments, ∃ asked, ruleCondition s u.entity d = .ok asked ∧
    ∀ c ∈ asked, c ∈ u.validations moment

/-- The validations of the update are those of its rules at their moments, and no others. -/
structure Checked (s : Setup) (u : Updating) : Prop where
  all : ∀ d ∈ forUpdate .validate (declaredRules u.entity u.written), Validates s u d
  only : ∀ moment, ∀ c ∈ u.validations moment,
    ∃ d ∈ forUpdate .validate (declaredRules u.entity u.written),
      moment ∈ d.rule.moments ∧ ruleCondition s u.entity d = .ok (some c)

/-- A request asks for the condition on the nodes of the entity or on the edges to them. -/
def AskedOf (s : Setup) (e : Entity) (c : Condition) : Prop :=
  ∃ keys members path, (keys = .node e ∨ ∃ properties, keys = .edge properties) ∧
    s.requested keys (some members) path = .ok (some c)

/-- The filter of the update demands what the request asks and what the filter rules of the entity
ask, and nothing else: no rule of an attribute counts. -/
def FilteredByEntity (s : Setup) (u : Updating) : Prop :=
  ∃ asked : List Condition, (∀ c ∈ asked, AskedOf s u.entity c) ∧
    ∀ c, c ∈ demands u.filter ↔ c ∈ asked.flatMap Condition.flat ∨
      ∃ d ∈ forUpdate .filter (declaredAt u.entity.name u.entity.rules),
        ∃ rule, ruleCondition s u.entity d = .ok rule ∧ c ∈ demands rule

end Updates

section Rules

variable {s : Setup} {e : Entity}

theorem mem_forUpdate {kind : RuleKind} {rules : List Declared} {d : Declared} :
    d ∈ forUpdate kind rules ↔
      d ∈ rules ∧ d.rule.kind = kind ∧ d.rule.appliesTo .update = true := by
  simp [forUpdate]

/-- A filter of rules demands exactly what the rules ask. -/
theorem mem_demands_guardFilter {attributes : List Attribute} {rules : Option Condition}
    (h : guardFilter s e attributes .update = .ok rules) (c : Condition) :
    c ∈ demands rules ↔ ∃ d ∈ forUpdate .filter (declaredRules e attributes),
      ∃ rule, ruleCondition s e d = .ok rule ∧ c ∈ demands rule := by
  simp only [guardFilter, except_bind_ok, except_pure_ok] at h
  obtain ⟨parts, hparts, rfl⟩ := h
  rw [demands_allOf]
  constructor
  · intro hc
    obtain ⟨whole, hwhole, hc⟩ := List.mem_flatMap.mp hc
    obtain ⟨d, hd, htest, hread⟩ := ruleConditions_origin hparts hwhole
    refine ⟨d, mem_forUpdate.mpr ⟨hd, by simpa using htest⟩, some whole, hread, ?_⟩
    rwa [demands_some]
  · rintro ⟨d, hd, rule, hread, hc⟩
    obtain ⟨hdeclared, hkind, happlies⟩ := mem_forUpdate.mp hd
    obtain ⟨asked, hasked, hmem⟩ :=
      ruleConditions_mem hparts hdeclared (by simp [hkind, happlies])
    rw [hread] at hasked
    cases hasked
    obtain ⟨whole, hwhole, hc⟩ := List.mem_flatMap.mp hc
    exact List.mem_flatMap.mpr ⟨whole, hmem whole (Option.mem_toList.mp hwhole), hc⟩

theorem checked_of_guards {u : Updating}
    (hbefore : guardValidations s u.entity u.written .update .before = .ok u.before)
    (hafter : guardValidations s u.entity u.written .update .after = .ok u.after) :
    Checked s u := by
  have hmoment : ∀ moment,
      guardValidations s u.entity u.written .update moment = .ok (u.validations moment) := by
    intro moment
    cases moment with
    | before => exact hbefore
    | after => exact hafter
  constructor
  · intro d hd moment hwhen
    obtain ⟨hdeclared, hkind, happlies⟩ := mem_forUpdate.mp hd
    have htest : d.rule.appliesAt .update moment = true := by
      simp [Rule.appliesAt, hkind, happlies, Action.isReading, hwhen]
    exact ruleConditions_mem (hmoment moment) hdeclared htest
  · intro moment c hc
    obtain ⟨d, hd, htest, hread⟩ := ruleConditions_origin (hmoment moment) hc
    simp only [Rule.appliesAt, Bool.and_eq_true, beq_iff_eq, Action.isReading, Bool.false_or,
      List.contains_iff_mem] at htest
    obtain ⟨⟨hkind, happlies⟩, hwhen⟩ := htest
    exact ⟨d, mem_forUpdate.mpr ⟨hd, hkind, happlies⟩, hwhen, hread⟩

/-- What a rule asks at every moment is validated before the change and after it. -/
theorem Checked.both {u : Updating} (h : Checked s u) {d : Declared}
    (hd : d ∈ forUpdate .validate (declaredRules u.entity u.written))
    (hmoments : d.rule.moments = Moment.all) {c : Condition}
    (hread : ruleCondition s u.entity d = .ok (some c)) : c ∈ u.before ∧ c ∈ u.after := by
  have hmem : ∀ moment ∈ Moment.all, c ∈ u.validations moment := by
    intro moment hmoment
    obtain ⟨asked, hasked, hmem⟩ := h.all d hd moment (hmoments ▸ hmoment)
    rw [hread] at hasked
    cases hasked
    exact hmem c rfl
  exact ⟨hmem .before (by decide), hmem .after (by decide)⟩

end Rules

section Filters

variable {s : Setup}

theorem narrows_rule {u : Updating} {attributes : List Attribute} {edges : Bool}
    (h : Narrowed s u.entity attributes .update edges u.filter) :
    ∀ d ∈ forUpdate .filter (declaredRules u.entity attributes), Narrows s u d := by
  intro d hd
  obtain ⟨hdeclared, hkind, happlies⟩ := mem_forUpdate.mp hd
  exact h.demands_rule hdeclared hkind happlies

/-- An update across a relationship is a change, guarded by the rules for updates. -/
theorem across_guards {part : Part} {u : Updating} (hu : across part = some u)
    (h : s.Guards part) :
    (∃ m, part = .change m) ∧ Narrowed s u.entity [] .update true u.filter ∧
      guardValidations s u.entity u.written .update .before = .ok u.before ∧
      guardValidations s u.entity u.written .update .after = .ok u.after := by
  unfold across at hu
  split at hu
  · cases hu
    exact ⟨⟨_, rfl⟩, h.2⟩
  · cases hu

theorem linkPart_asked {l : Link} {properties : Option PropertySet} {path : String}
    {entry : String × Doc} {cs : List Condition}
    (h : s.linkPart l properties path entry = .ok cs) : ∀ c ∈ cs, AskedOf s l.target c := by
  obtain ⟨key, value⟩ := entry
  unfold Setup.linkPart at h
  simp only at h
  split at h
  · cases h
    simp
  · simp only [except_bind_ok, except_pure_ok] at h
    obtain ⟨keys, hkeys, members, _, found, hfound, rfl⟩ := h
    have hplace : keys = .node l.target ∨ ∃ properties, keys = .edge properties := by
      split at hkeys
      · cases hkeys
        exact .inl rfl
      · cases hkeys
        exact .inr ⟨_, rfl⟩
      · cases hkeys
      · cases hkeys
    intro c hc
    exact ⟨keys, members, _, hplace, by rw [hfound, Option.mem_toList.mp hc]⟩

/-- The filter of a nested change asks the filter rules of the entity alone. -/
theorem linkFilter_byEntity {l : Link} {properties : Option PropertySet} {item : Placed}
    {u : Updating} (hentity : u.entity = l.target)
    (h : s.linkFilter l properties item .update = .ok u.filter) : FilteredByEntity s u := by
  simp only [Setup.linkFilter, except_bind_ok, except_pure_ok] at h
  obtain ⟨members, _, parts, hparts, rules, hrules, hall⟩ := h
  have hdeclared : declaredRules l.target [] = declaredAt l.target.name l.target.rules := by
    simp [declaredRules]
  have hmem := mem_demands_guardFilter hrules
  rw [hdeclared] at hmem
  refine ⟨parts.flatten, ?_, ?_⟩
  · intro c hc
    obtain ⟨part, hpart, hc⟩ := List.mem_flatten.mp hc
    obtain ⟨entry, _, hentry⟩ := mem_of_mapM_ok hparts part hpart
    exact hentity ▸ linkPart_asked hentry c hc
  · intro c
    rw [hentity, ← hmem, ← hall, demands_allOf, List.flatMap_append, List.mem_append]
    rfl

theorem nestedUpdate_byEntity {owner : Entity} {r : Relationship} {item : Placed} {m : Mutation}
    {u : Updating} (hu : across (.change m) = some u)
    (h : s.nestedUpdate owner r item = .ok m) : FilteredByEntity s u := by
  simp only [Setup.nestedUpdate, except_bind_ok, except_pure_ok] at h
  obtain ⟨l, _, filter, hfilter, _, _, _, _, node, _, _, _, edge, _, before, _, after, _, rfl⟩ := h
  cases hu
  exact linkFilter_byEntity rfl hfilter

/-- No other maker makes updates. -/
theorem makes_byEntity {m : Mutation} {u : Updating} (hu : across (.change m) = some u)
    (h : s.Makes m) : FilteredByEntity s u := by
  cases h with
  | create h =>
    simp only [Setup.nestedCreate, except_bind_ok, except_pure_ok] at h
    obtain ⟨_, _, _, _, _, _, _, _, _, _, _, _, rfl⟩ := h
    cases hu
  | connect h =>
    simp only [Setup.nestedConnect, except_bind_ok, except_pure_ok] at h
    obtain ⟨_, _, _, _, _, _, _, _, _, _, rfl⟩ := h
    cases hu
  | disconnect h =>
    simp only [Setup.nestedDisconnect, except_bind_ok, except_pure_ok] at h
    obtain ⟨_, _, _, _, _, _, rfl⟩ := h
    cases hu
  | update h => exact nestedUpdate_byEntity hu h
  | delete h =>
    simp only [Setup.nestedDelete, except_bind_ok, except_pure_ok] at h
    obtain ⟨_, _, _, _, _, _, _, _, rfl⟩ := h
    cases hu

end Filters

end GraphSelection.Resolve

namespace GraphSelection.Stage

/-- Only the signed in may write. -/
def signedWriters : Rule :=
  { kind := .filter
    actions := [.update]
    moments := Moment.all
    needsAuthentication := true
    node := none
    claims := none }

/-- A member whose name is guarded by a filter rule. -/
def guardedMember : Entity :=
  { member with
    attributes := [("name", { name := "name", kind := .string, rules := [signedWriters] })] }

def guardedMembers : Resolve.Setup :=
  ⟨{ entities := [("Member", guardedMember)], composites := [], propertySets := [] }, {}, {}⟩

/-- A member is renamed, and so is whom it knows. -/
def bothRenamed : Request :=
  { operation := .update
    entity := "Member"
    args :=
      [("update", .record
        [("name", .text "Jane"),
         ("knows", .record [("update", .record [("node", .record [("name", .text "Anne")])])])])]
    selection := [.leaf "name"] }

end GraphSelection.Stage

namespace GraphSelection.Resolve

open GraphSelection Plan

/-- Updates of the nodes of an entity, at the root and across relationships at every depth. Their
validations are those that the rules of the entity and of the written attributes ask, at the moments
these rules name. At the root the filter rules of the entity and of the written attributes narrow
the filter; across a relationship those of the entity do, and those of attributes never count. -/
theorem updates_guarded (s : Setup) (r : Request) (o : Operation) (ho : s.operation r = .ok o)
    (part : Part) (hpart : part ∈ o.parts) :
    (∀ u, part = .update u → Checked s (atRoot u) ∧
      ∀ d ∈ forUpdate .filter (declaredRules u.entity (writtenBy u.assignments)),
        Narrows s (atRoot u) d) ∧
    ∀ u, across part = some u → Checked s u ∧ FilteredByEntity s u ∧
      ∀ d ∈ forUpdate .filter (declaredAt u.entity.name u.entity.rules), Narrows s u d := by
  have hguards := Setup.operation_guards ho part hpart
  constructor
  · rintro u rfl
    obtain ⟨_, hfilter, hbefore, hafter⟩ := hguards
    exact ⟨checked_of_guards hbefore hafter, narrows_rule (u := atRoot u) hfilter⟩
  · intro u hu
    obtain ⟨⟨m, rfl⟩, hfilter, hbefore, hafter⟩ := across_guards hu hguards
    refine ⟨checked_of_guards hbefore hafter, ?_, ?_⟩
    · exact makes_byEntity hu (Setup.operation_made ho m hpart)
    · intro d hd
      refine narrows_rule hfilter d ?_
      simpa [declaredRules] using hd

theorem bothRenamed_operation :
    ∃ u inner, Stage.guardedMembers.operation Stage.bothRenamed = .ok (.update u) ∧
      u.entity = Stage.guardedMember ∧
      writtenBy u.assignments = Stage.guardedMember.attributes.values ∧
      (∃ part ∈ (Operation.update u).parts, across part = some inner) ∧
      inner.entity = Stage.guardedMember ∧
      inner.written = Stage.guardedMember.attributes.values ∧ (demands inner.filter).length = 0 :=
  ⟨_, _, rfl, rfl, rfl, ⟨_, List.mem_cons_of_mem _ List.mem_cons_self, rfl⟩, rfl, rfl, rfl⟩

/-- At the root nobody is renamed by a principal that is not signed in. Both updates are validated,
before the change and after it, by what the rule of the entity asks. -/
theorem bothRenamed_guarded :
    ∃ u inner c, Stage.guardedMembers.operation Stage.bothRenamed = .ok (.update u) ∧
      (∃ part ∈ (Operation.update u).parts, across part = some inner) ∧
      Condition.authenticated ∈ demands u.filter ∧
      ruleCondition Stage.guardedMembers Stage.guardedMember
        ⟨"Member.authorization[0]", Stage.selfOnly⟩ = .ok (some c) ∧
      (c ∈ u.before ∧ c ∈ u.after) ∧ c ∈ inner.before ∧ c ∈ inner.after := by
  obtain ⟨u, inner, ho, hentity, hwritten, ⟨part, hpart, hinner⟩, hmember, hinto, _⟩ :=
    bothRenamed_operation
  obtain ⟨hroot, _⟩ :=
    updates_guarded Stage.guardedMembers Stage.bothRenamed _ ho (.update u) List.mem_cons_self
  obtain ⟨_, hnested⟩ := updates_guarded Stage.guardedMembers Stage.bothRenamed _ ho part hpart
  obtain ⟨hchecked, hnarrows⟩ := hroot u rfl
  obtain ⟨hchecked', _, _⟩ := hnested inner hinner
  obtain ⟨c, hread⟩ : ∃ c, ruleCondition Stage.guardedMembers Stage.guardedMember
      ⟨"Member.authorization[0]", Stage.selfOnly⟩ = .ok (some c) := ⟨_, rfl⟩
  have hvalidates : ∀ x : Updating, x.entity = Stage.guardedMember →
      x.written = Stage.guardedMember.attributes.values → Checked Stage.guardedMembers x →
      c ∈ x.before ∧ c ∈ x.after := by
    intro x hx hwritten hall
    refine hall.both (d := ⟨"Member.authorization[0]", Stage.selfOnly⟩) ?_ rfl (hx ▸ hread)
    rw [hx, hwritten]
    exact List.mem_singleton.mpr rfl
  refine ⟨u, inner, c, ho, ⟨part, hpart, hinner⟩, ?_, hread,
    hvalidates (atRoot u) hentity hwritten hchecked, hvalidates inner hmember hinto hchecked'⟩
  have hd : ⟨"Member.name.authorization[0]", Stage.signedWriters⟩ ∈
      forUpdate .filter (declaredRules u.entity (writtenBy u.assignments)) := by
    rw [hentity, hwritten]
    exact List.mem_singleton.mpr rfl
  obtain ⟨asked, hasked, hdemands⟩ := hnarrows _ hd
  rw [show (atRoot u).entity = Stage.guardedMember from hentity] at hasked
  cases hasked
  exact hdemands _ List.mem_cons_self

/-- The same rule does not narrow the update across the relationship, though it writes the name. -/
theorem bothRenamed_unnarrowed :
    ∃ u inner, Stage.guardedMembers.operation Stage.bothRenamed = .ok (.update u) ∧
      (∃ part ∈ (Operation.update u).parts, across part = some inner) ∧
      ∃ d ∈ forUpdate .filter (declaredRules inner.entity inner.written),
        ¬ Narrows Stage.guardedMembers inner d := by
  obtain ⟨u, inner, ho, _, _, hacross, hmember, hwritten, hnone⟩ := bothRenamed_operation
  refine ⟨u, inner, ho, hacross, ⟨"Member.name.authorization[0]", Stage.signedWriters⟩, ?_, ?_⟩
  · rw [hmember, hwritten]
    exact List.mem_singleton.mpr rfl
  · rintro ⟨asked, hread, hdemands⟩
    rw [hmember] at hread
    cases hread
    have hin := hdemands .authenticated List.mem_cons_self
    rw [List.length_eq_zero_iff.mp hnone] at hin
    exact absurd hin List.not_mem_nil

end GraphSelection.Resolve
