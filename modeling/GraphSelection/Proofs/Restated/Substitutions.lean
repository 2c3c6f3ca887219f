import GraphSelection.Proofs.Akin.Plans
import GraphSelection.Proofs.Restated.Conditions
import GraphSelection.Proofs.Written
import GraphSelection.Resolve.Guard

/-!
Replacements of values that no program shows. They keep the kind of a value, and replace values
that are written differently by values that are written differently. The values with which filter
rules compare aggregations stay: such a comparison may share a call with one of the request.
-/
namespace GraphSelection.Resolve

open GraphSelection Plan

/-- A filter rule of the schema compares an aggregation of its scope with the value. -/
def RuleValue (s : Setup) (v : Doc) : Prop :=
  ∃ e ∈ s.schema.entities.values, ∃ d ∈ declaredRules e e.attributes.values,
    d.rule.kind = .filter ∧ ∃ c, ruleCondition s e d = .ok (some c) ∧ v ∈ c.compared

/-- A map of values other than objects. It keeps their kinds, is one-to-one on what is written for
them, and leaves alone what the filter rules compare aggregations with. -/
structure Substitution (s : Setup) (g : Doc → Doc) : Prop where
  kind : ∀ v, v.kind ≠ .record → (g v).kind = v.kind
  written : ∀ v w, v.kind ≠ .record → w.kind ≠ .record →
    (Json.compact (g v) = Json.compact (g w) ↔ Json.compact v = Json.compact w)
  rules : ∀ v, v.kind ≠ .record → RuleValue s v → g v = v

namespace Substitution

variable {s : Setup} {g : Doc → Doc}

theorem replacedBy_eq {v : Doc} (h : v.kind ≠ .record) : v.replacedBy g = g v := by
  cases v with
  | record members => exact absurd rfl h
  | _ => rfl

theorem compact_ne {v w : Doc} (hv : v.kind = .record) (hw : w.kind ≠ .record) :
    Json.compact v ≠ Json.compact w := by
  intro heq
  cases v with
  | record members =>
    have hne : ∀ members, w ≠ .record members := by
      rintro members rfl
      exact hw rfl
    exact Json.head_compact_ne hne (heq ▸ Json.head_compact_record members)
  | _ => cases hv

theorem replacedBy_record {v : Doc} (h : v.kind = .record) : v.replacedBy g = v := by
  cases v with
  | record members => rfl
  | _ => cases h

theorem faithful (hg : Substitution s g) : Faithful (Doc.Replaced g) := by
  rintro v _ w _ rfl rfl
  by_cases hv : v.kind = .record
  · rw [replacedBy_record hv]
    by_cases hw : w.kind = .record
    · rw [replacedBy_record hw]
    · rw [replacedBy_eq hw]
      exact iff_of_false (compact_ne hv hw) (compact_ne hv (hg.kind w hw ▸ hw))
  · rw [replacedBy_eq hv]
    by_cases hw : w.kind = .record
    · rw [replacedBy_record hw]
      exact iff_of_false (compact_ne hw hv).symm (compact_ne hw (hg.kind v hv ▸ hv)).symm
    · rw [replacedBy_eq hw]
      exact (hg.written v w hv hw).symm

theorem replaced_rule (hg : Substitution s g) {v : Doc} (h : RuleValue s v) :
    Doc.Replaced g v v := by
  by_cases hv : v.kind = .record
  · exact (replacedBy_record hv).symm
  · exact ((replacedBy_eq hv).trans (hg.rules v hv h)).symm

end Substitution

section Rules

variable {s : Setup}

theorem declaredRules_mono {e : Entity} {attributes all : List Attribute} (h : attributes ⊆ all) :
    declaredRules e attributes ⊆ declaredRules e all := by
  intro d hd
  rcases List.mem_append.mp hd with hd | hd
  · exact List.mem_append_left _ hd
  · obtain ⟨a, ha, hd⟩ := List.mem_flatMap.mp hd
    exact List.mem_append_right _ (List.mem_flatMap.mpr ⟨a, h ha, hd⟩)

theorem ruleValue_of_guardFilter {e : Entity} (he : e ∈ s.schema.entities.values)
    {attributes : List Attribute} (hattributes : attributes ⊆ e.attributes.values) {action : Action}
    {c : Condition} (h : guardFilter s e attributes action = .ok (some c)) {v : Doc}
    (hv : v ∈ c.compared) : RuleValue s v := by
  simp only [guardFilter, ruleConditions, except_bind_ok, except_pure_ok] at h
  obtain ⟨parts, ⟨found, hfound, rfl⟩, hc⟩ := h
  obtain ⟨part, hpart, hv⟩ := Condition.compared_allOf hc hv
  obtain ⟨own, hown, hsome⟩ := List.mem_filterMap.mp hpart
  obtain ⟨d, hd, hrule⟩ := mem_of_mapM_ok hfound own hown
  obtain ⟨hd, htest⟩ := List.mem_filter.mp hd
  simp only [id_eq] at hsome
  subst hsome
  have hkind : d.rule.kind = .filter := by
    simp only [Bool.and_eq_true, beq_iff_eq] at htest
    exact htest.1
  exact ⟨e, he, d, declaredRules_mono hattributes hd, hkind, part, hrule, hv⟩

end Rules

section Guards

/-- Kindred scopes, in which the values are replaced. -/
def ScopesAkin (g : Doc → Doc) (scope scope' : Scope) : Prop :=
  scope.Akin scope' ∧ Condition.OptionAkin (Doc.Replaced g) scope.filter scope'.filter

variable {s : Setup} {g : Doc → Doc} {d d' : Nat} (hg : Substitution s g)

include hg

/-- What is asked for, in conjunction with what the rules ask for. -/
theorem joined_agree {e : Entity} (he : e ∈ s.schema.entities.values)
    {attributes : List Attribute} (hattributes : attributes ⊆ e.attributes.values) (action : Action)
    {β γ : Type} {S : β → γ → Prop} {f : Option Condition → Result β}
    {f' : Option Condition → Result γ}
    (h : ∀ rules, List.Forall₂ (Condition.Akin (Doc.Replaced g)) rules.toList rules.toList →
      Agree S (f rules) (f' rules)) :
    Agree S (guardFilter s e attributes action >>= f)
      (guardFilter s e attributes action >>= f') := by
  refine .given _ fun rules hrules => h rules ?_
  cases rules with
  | none => exact .nil
  | some c =>
    refine .cons (Condition.akin_refl _ c fun v hv => ?_) .nil
    exact hg.replaced_rule (ruleValue_of_guardFilter he hattributes hrules hv)

theorem guardedScope_agree {e : Entity} (he : e ∈ s.schema.entities.values)
    {attributes : List Attribute} (hattributes : attributes ⊆ e.attributes.values)
    (relationship : Option Relationship) {asked asked' : List Condition}
    (h : List.Forall₂ (Condition.Akin (Doc.Replaced g)) asked asked') (action : Action) :
    Agree (ScopesAkin g) (guardedScope s e relationship asked attributes action)
      (guardedScope s e relationship asked' attributes action) := by
  refine joined_agree hg he hattributes action fun rules hrules => ?_
  have hfilter := Condition.allOf_akin (List.rel_append h hrules)
  exact .skip _ fun validations =>
    .ok ⟨.intro e relationship validations ⟨_, hg.faithful, hfilter⟩, hfilter⟩

theorem asked_agree {keys : Keys} {members members' : Option Doc.Members}
    (h : OptionStands s.schema g d d' (.object keys) members members') (path : String) :
    Agree (Condition.OptionAkin (Doc.Replaced g)) (s.requested keys members path)
      (s.requested keys members' path) :=
  requested_agree hg.kind hg.faithful h path

end Guards

section Arguments

variable {schema : Schema} {g : Doc → Doc} {d d' : Nat} {p q : Place}
  {args args' : Doc.Members} {name : String}

/-- A record argument, or none, on both sides. -/
theorem recordArg_agree (h : Stands schema g d d' p (.record args) (.record args'))
    (hopens : p.opens = true) (hq : q ∈ p.under schema args name)
    (hown : q.opens = true) (path : String) :
    Agree (OptionStands schema g d d' q) (recordArg args name path)
      (recordArg args' name path) := by
  have hget := get?_of_entries hq (h.succ.entries hopens)
  unfold recordArg
  generalize args.get? name = found at hget
  generalize args'.get? name = found' at hget
  cases hget with
  | none => exact .ok .none
  | @some v v' hv =>
    cases Doc.paired_of_kind (Place.kind_of_opens hown hv.permits) with
    | null => exact .ok .none
    | list items items' => exact .fault _
    | record members members' => exact .ok (.some hv)
    | other hother hother' =>
      cases v <;> cases hother <;> cases v' <;> cases hother' <;> exact .fault _

/-- An argument that stays as it is. -/
theorem get?_fixed (h : Stands schema g d d' p (.record args) (.record args'))
    (hopens : p.opens = true) (hq : Place.fixed ∈ p.under schema args name) :
    args'.get? name = args.get? name := by
  have hget := get?_of_entries hq (h.succ.entries hopens)
  generalize args.get? name = found at hget
  generalize args'.get? name = found' at hget
  cases hget with
  | none => rfl
  | some hv => exact congrArg some hv.permits

end Arguments

end GraphSelection.Resolve
