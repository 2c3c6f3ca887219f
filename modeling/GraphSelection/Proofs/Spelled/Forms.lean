import GraphSelection.Proofs.Outcomes
import GraphSelection.Resolve.Condition
import Mathlib.Data.List.Infix

/-!
Forms of keys. No ending of a table is the end of another, and no quantifier is the end of a
comparison, so a name with an ending is taken apart in one way only, whatever the name is. A key of
an object of conditions has one of few forms: the name of an attribute, a claim or a relationship,
such a name with an ending, or none of these. The form says which field the key is about and which
spelling of the field is noted for it. Apart from this note an entry is read without regard to the
other entries of its object.
-/
namespace GraphSelection.Resolve

open GraphSelection Plan

/-- The text ends in another. -/
def EndsIn (s ending : String) : Prop := ending.toList <:+ s.toList

instance (s ending : String) : Decidable (EndsIn s ending) :=
  inferInstanceAs (Decidable (ending.toList <:+ s.toList))

/-- Neither text is the end of the other. -/
def Apart (x y : String) : Prop := ¬ EndsIn x y ∧ ¬ EndsIn y x

instance (x y : String) : Decidable (Apart x y) := inferInstanceAs (Decidable (_ ∧ _))

theorem endsIn_append (base ending : String) : EndsIn (base ++ ending) ending := by
  rw [EndsIn, String.toList_append]
  exact List.suffix_append _ _

/-- A text ends in one of two texts that are apart. -/
theorem Apart.not_endsIn {x y : String} (h : Apart x y) (base : String) :
    ¬ EndsIn (base ++ x) y := by
  intro hends
  rcases List.suffix_or_suffix_of_suffix (endsIn_append base x) hends with hxy | hyx
  · exact h.2 hxy
  · exact h.1 hyx

section Dropping

variable {s base ending : String}

theorem dropEnd?_append (base ending : String) :
    Text.dropEnd? (base ++ ending) ending = some base := by
  simp [Text.dropEnd?]

theorem dropEnd?_eq_none : Text.dropEnd? s ending = none ↔ ¬ EndsIn s ending := by
  simp [Text.dropEnd?, EndsIn]

theorem dropEnd?_eq_some (h : Text.dropEnd? s ending = some base) : s = base ++ ending := by
  have hends : EndsIn s ending := by
    by_contra hnot
    rw [dropEnd?_eq_none.mpr hnot] at h
    cases h
  obtain ⟨stem, hstem⟩ := hends
  have hs : s = String.ofList stem ++ ending :=
    String.toList_injective (by rw [String.toList_append, String.toList_ofList, hstem])
  rw [hs, dropEnd?_append] at h
  cases h
  exact hs

variable {α : Type} {table : List (String × α)} {key : String}

theorem dropAny_eq_none :
    dropAny key table = none ↔ ∀ ending ∈ table.map Prod.fst, ¬ EndsIn key ending := by
  induction table with
  | nil => simp [dropAny]
  | cons entry rest ih =>
    obtain ⟨ending, value⟩ := entry
    rw [dropAny, List.map_cons, List.forall_mem_cons, ← dropEnd?_eq_none, ← ih]
    cases Text.dropEnd? key ending <;> simp

theorem dropAny_eq_some {x : α} (h : dropAny key table = some (base, x)) :
    ∃ ending, (ending, x) ∈ table ∧ key = base ++ ending := by
  induction table with
  | nil => cases h
  | cons entry rest ih =>
    obtain ⟨ending, value⟩ := entry
    rw [dropAny] at h
    split at h
    · rename_i found hfound
      cases h
      exact ⟨ending, List.mem_cons_self, dropEnd?_eq_some hfound⟩
    · obtain ⟨ending', hmem, hkey⟩ := ih h
      exact ⟨ending', List.mem_cons_of_mem _ hmem, hkey⟩

/-- The endings of a table are apart. -/
def Distinct (table : List (String × α)) : Prop :=
  (table.map Prod.fst).Pairwise Apart

instance (table : List (String × α)) : Decidable (Distinct table) :=
  inferInstanceAs (Decidable (List.Pairwise _ _))

/-- A name with an ending is taken apart into both. -/
theorem dropAny_append (hdistinct : Distinct table) {ending : String} {x : α}
    (h : (ending, x) ∈ table) (base : String) :
    dropAny (base ++ ending) table = some (base, x) := by
  induction table with
  | nil => cases h
  | cons entry rest ih =>
    obtain ⟨first, value⟩ := entry
    obtain ⟨hfirst, hrest⟩ := List.pairwise_cons.mp hdistinct
    rw [dropAny]
    rcases List.mem_cons.mp h with heq | h
    · cases heq
      rw [dropEnd?_append]
    · have hapart : Apart first ending :=
        hfirst ending (List.mem_map_of_mem (f := Prod.fst) h)
      have hnone : Text.dropEnd? (base ++ ending) first = none :=
        dropEnd?_eq_none.mpr (Apart.not_endsIn ⟨hapart.2, hapart.1⟩ base)
      rw [hnone]
      exact ih hrest h

/-- An ending that is apart from those of a table hides them. -/
theorem dropAny_other {ending : String} (h : ∀ other ∈ table.map Prod.fst, Apart ending other)
    (base : String) : dropAny (base ++ ending) table = none :=
  dropAny_eq_none.mpr fun other hother => (h other hother).not_endsIn base

end Dropping

section Tables

theorem distinct_comparisons : Distinct Comparison.endings := by decide

theorem distinct_quantifiers : Distinct Quantifier.endings := by decide

theorem distinct_aggregates : Distinct Comparison.aggregateEndings := by decide

theorem distinct_reductions : Distinct Reduction.endings := by decide

/-- Endings of keys that are made of the name of a relationship are no comparisons. -/
theorem apart_comparisons :
    ∀ ending ∈ "Connection" :: "Aggregate" :: Quantifier.endings.map Prod.fst,
      ∀ other ∈ Comparison.endings.map Prod.fst, Apart ending other := by
  decide

end Tables

section Noting

variable {α β γ : Type}

/-- A field is noted in a spelling, or none is, and then there is an outcome. -/
def noting (spelled : Option (String × Spelling)) (path : String) (outcome : Result α) :
    Keyed α :=
  match spelled with
  | none => liftM outcome
  | some (field, spelling) => do
      note field spelling path
      liftM outcome

theorem lift_bind_pure (x : Result α) (f : α → β) :
    ((liftM x : Keyed α) >>= fun a => pure (f a)) = liftM (x.map f) := by
  funext seen
  cases x <;> rfl

theorem lift_bind_lift (x : Result α) (f : α → Result β) :
    ((liftM x : Keyed α) >>= fun a => liftM (f a)) = liftM (x >>= f) := by
  funext seen
  cases x <;> rfl

theorem lift_map_bind (x : Result α) (f : α → β) (g : β → Keyed γ) :
    ((liftM (x.map f) : Keyed β) >>= g) = (liftM x : Keyed α) >>= fun a => g (f a) := by
  funext seen
  cases x <;> rfl

theorem noting_bind (spelled : Option (String × Spelling)) (path : String) (outcome : Result α)
    (f : α → Result β) :
    (noting spelled path outcome >>= fun a => liftM (f a)) =
      noting spelled path (outcome >>= f) := by
  cases spelled with
  | none => exact lift_bind_lift outcome f
  | some pair => simp only [noting, bind_assoc, lift_bind_lift]

theorem noting_map (spelled : Option (String × Spelling)) (path : String) (outcome : Result α)
    (f : α → β) :
    (noting spelled path outcome >>= fun a => pure (f a)) =
      noting spelled path (outcome.map f) := by
  cases spelled with
  | none => exact lift_bind_pure outcome f
  | some pair => simp only [noting, bind_assoc, lift_bind_pure]

end Noting

/-- The keys that join conditions. -/
def connectives : List String := ["AND", "OR", "NOT"]

/-- What a key of an object of conditions is. -/
inductive KeyForm where
  /-- The name of an attribute, or the path of a claim. -/
  | own (subject : Subject) (a : Option Attribute)
  | compared (field : String) (op : Comparison) (subject : Subject) (a : Option Attribute)
  | related (r : Relationship)
  | quantified (field : String) (q : Quantifier) (r : Relationship)
  | connection (r : Relationship)
  | connected (field : String) (q : Quantifier) (r : Relationship)
  | aggregate (r : Relationship)
  | unknown

/-- A key that ends in a comparison. -/
def Keys.comparedForm (keys : Keys) (key : String) : KeyForm :=
  match (dropAny key Comparison.endings).bind fun (base, op) =>
      (keys.attribute? base).map fun (subject, a) => (base, op, subject, a) with
  | some (base, op, subject, a) => .compared base op subject (some a)
  | none => .unknown

/-- A key that is made of the name of a relationship. -/
def variantForm? (e : Entity) (key : String) : Option KeyForm :=
  let quantified := dropAny key Quantifier.endings
  let base := (quantified.map Prod.fst).getD key
  let quantifier := quantified.map Prod.snd
  match quantifier, e.relationship? base with
  | some q, some r => some (.quantified base q r)
  | _, _ =>
      match (Text.dropEnd? base "Connection").bind e.relationship?, quantifier with
      | some r, some q => some (.connected base q r)
      | some r, none => some (.connection r)
      | none, some _ => none
      | none, none => ((Text.dropEnd? key "Aggregate").bind e.relationship?).map .aggregate

def Reader.form (r : Reader) (keys : Keys) (key : String) : KeyForm :=
  match keys with
  | .claims =>
      match dropAny key Comparison.endings with
      | some (base, op) => .compared base op (r.claimSubject base) none
      | none => .own (r.claimSubject key) none
  | .edge p =>
      match (Keys.edge p).attribute? key with
      | some (subject, a) => .own subject (some a)
      | none => (Keys.edge p).comparedForm key
  | .node e =>
      match (Keys.node e).attribute? key with
      | some (subject, a) => .own subject (some a)
      | none =>
          match e.relationship? key with
          | some relationship => .related relationship
          | none => (variantForm? e key).getD ((Keys.node e).comparedForm key)

/-- The spelling of a value under an attribute or a claim; objects that mean nothing have none. -/
def valueSpelling (a : Option Attribute) (value : Doc) : Option Spelling :=
  match value with
  | .record members =>
      if isOperatorRecord members then some .nested
      else if a.any fun a => a.kind.isSpatial then some .suffixed
      else none
  | _ => some .suffixed

/-- The spelling of a value that is nothing, or an object that is taken apart or not. -/
def recordSpelling (isParted : Doc.Members → Bool) (value : Doc) : Option Spelling :=
  match value with
  | .null => some .suffixed
  | .record members => some (if isParted members then .nested else .suffixed)
  | _ => none

/-- An object of a connection whose keys are quantifiers or `aggregate`. -/
def isConnectionRecord (members : Doc.Members) : Bool :=
  members.any fun (key, _) => key == "aggregate" || (Quantifier.ofGeneric? key).isSome

namespace KeyForm

/-- The field that is noted for an entry, and its spelling. -/
def spelled (key : String) (value : Doc) : KeyForm → Option (String × Spelling)
  | .own _ a => (valueSpelling a value).map fun spelling => (key, spelling)
  | .related _ =>
      (recordSpelling Reader.isQuantifierRecord value).map fun spelling => (key, spelling)
  | .connection _ => (recordSpelling isConnectionRecord value).map fun spelling => (key, spelling)
  | .compared field _ _ _ => some (field, .suffixed)
  | .quantified field _ _ => some (field, .suffixed)
  | .connected field _ _ => some (field, .suffixed)
  | .aggregate _ => none
  | .unknown => none

end KeyForm

namespace Reader

variable (r : Reader) (below : Level)

/-- What a value under an attribute or a claim is read to. -/
def valueOutcome (subject : Subject) (a : Option Attribute) (value : Doc) (path : String) :
    Result (Option Condition) :=
  match value with
  | .record members =>
      if isOperatorRecord members then
        (operatorParts r.mode subject a path members).map Condition.allOf
      else if a.any fun a => a.kind.isSpatial then
        (compared r.mode subject a .eq value false path).map some
      else .error (.filter path (.unknownOperator (firstKey members)))
  | _ => (compared r.mode subject a .eq value false path).map some

def relatedOutcome (relationship : Relationship) (value : Doc) (path : String) :
    Result (Option Condition) :=
  match value with
  | .null => (r.related below relationship .noneAtAll none none path).map some
  | .record members =>
      if isQuantifierRecord members then
        (members.mapM fun (key, inner) => do
          let q ← quantifierOf key path
          r.related below relationship q (some inner) none (childPath path key)).map Condition.allOf
      else (r.related below relationship .atLeastOne (some value) none path).map some
  | _ => .error (.argument path .expectedObject)

def connectionOutcome (relationship : Relationship) (value : Doc) (path : String) :
    Result (Option Condition) :=
  match value with
  | .null => (r.related below relationship .noneAtAll none none path).map some
  | .record members =>
      if isConnectionRecord members then
        (members.mapM fun (key, inner) => r.connectionPart below relationship path key inner).map
          (Condition.allOf ∘ List.flatten)
      else (r.connected below relationship .atLeastOne value path).map some
  | _ => .error (.argument path .expectedObject)

/-- What constrains nothing counts as an unknown key. -/
def orUnknown (owner key : String) : Option Condition → Result (Option Condition)
  | some c => .ok (some c)
  | none => .error (.unknownField owner key)

def formOutcome (owner key : String) (value : Doc) (path : String) :
    KeyForm → Result (Option Condition)
  | .own subject a => r.valueOutcome subject a value path
  | .compared _ op subject a => (compared r.mode subject a op value false path).map some
  | .related relationship => r.relatedOutcome below relationship value path
  | .quantified _ q relationship =>
      (r.related below relationship q (some value) none path).map some
  | .connection relationship =>
      r.connectionOutcome below relationship value path >>= orUnknown owner key
  | .connected _ q relationship => (r.connected below relationship q value path).map some
  | .aggregate relationship => do
      let members ← asRecord value path
      let c ← r.aggregation relationship members path
      orUnknown owner key c
  | .unknown => .error (.unknownField owner key)

/-- What one entry of an object is read to. -/
def outcome (keys : Keys) (path key : String) (value : Doc) : Result (List Condition) :=
  let here := childPath path key
  match key with
  | "AND" => (operands below keys value here).map fun cs => if cs.isEmpty then [] else [.all cs]
  | "OR" => (operands below keys value here).map fun cs => if cs.isEmpty then [] else [.any cs]
  | "NOT" => do
      let members ← asRecord value here
      let inner ← below keys members here
      return (inner.map Condition.not).toList
  | _ => (r.formOutcome below keys.owner key value here (r.form keys key)).map Option.toList

/-- The field that is noted for an entry; none for a connective. -/
def spelled (keys : Keys) (key : String) (value : Doc) : Option (String × Spelling) :=
  match key with
  | "AND" => none
  | "OR" => none
  | "NOT" => none
  | _ => (r.form keys key).spelled key value

section Readings

variable {r below} {path key : String} {value : Doc}

theorem attributeValue_eq (subject : Subject) (a : Option Attribute) :
    attributeValue r.mode subject a key value path =
      noting ((valueSpelling a value).map fun spelling => (key, spelling)) path
        (r.valueOutcome subject a value path) := by
  unfold attributeValue valueSpelling valueOutcome
  cases value with
  | record members =>
    simp only
    split
    · simp only [Option.map_some, noting, lift_bind_pure]
    · split
      · simp only [Option.map_some, noting, lift_bind_pure]
      · rfl
  | _ => simp only [Option.map_some, noting, lift_bind_pure]

theorem relationshipValue_eq (relationship : Relationship) :
    r.relationshipValue below relationship key value path =
      noting ((recordSpelling isQuantifierRecord value).map fun spelling => (key, spelling)) path
        (r.relatedOutcome below relationship value path) := by
  unfold relationshipValue recordSpelling relatedOutcome
  cases value with
  | record members =>
    change (if isQuantifierRecord members then _ else _) = _
    split
    · rename_i hparted
      simp only [hparted, if_true, Option.map_some, noting, lift_bind_pure]
    · rename_i hwhole
      simp only [hwhole, Bool.false_eq_true, if_false, Option.map_some, noting, lift_bind_pure]
  | null => simp only [Doc.isNull, if_true, Option.map_some, noting, lift_bind_pure]
  | _ => rfl

theorem connectionValue_eq (relationship : Relationship) :
    r.connectionValue below relationship key value path =
      noting ((recordSpelling isConnectionRecord value).map fun spelling => (key, spelling)) path
        (r.connectionOutcome below relationship value path) := by
  unfold connectionValue recordSpelling connectionOutcome
  cases value with
  | record members =>
    change (if isConnectionRecord members then _ else _) = _
    split
    · rename_i hparted
      simp only [hparted, if_true, Option.map_some, noting, lift_bind_pure, Function.comp_def]
    · rename_i hwhole
      simp only [hwhole, Bool.false_eq_true, if_false, Option.map_some, noting, lift_bind_pure]
  | null => simp only [Doc.isNull, if_true, Option.map_some, noting, lift_bind_pure]
  | _ => rfl

variable (below) in
theorem suffixedKey_eq (keys : Keys) :
    r.suffixedKey keys key value path =
      noting ((keys.comparedForm key).spelled key value) path
        (r.formOutcome below keys.owner key value path (keys.comparedForm key)) := by
  unfold suffixedKey Keys.comparedForm
  generalize (dropAny key Comparison.endings).bind _ = found
  cases found with
  | some _ => simp only [KeyForm.spelled, formOutcome, noting, lift_bind_pure]
  | none => rfl

theorem claimKey_eq :
    r.claimKey key value path =
      noting ((r.form .claims key).spelled key value) path
        (r.formOutcome below (Keys.owner .claims) key value path (r.form .claims key)) := by
  unfold claimKey form
  cases dropAny key Comparison.endings with
  | some _ => simp only [KeyForm.spelled, formOutcome, noting, lift_bind_pure]
  | none => exact attributeValue_eq _ _

/-- A key that is made of the name of a relationship by the end that is no quantifier is no
comparison. -/
theorem comparedForm_unknown (keys : Keys) {ending base : String}
    (h : Text.dropEnd? key ending = some base) (hending : ending ∈ ["Connection", "Aggregate"]) :
    keys.comparedForm key = .unknown := by
  have hmem : ending ∈ "Connection" :: "Aggregate" :: Quantifier.endings.map Prod.fst :=
    List.mem_append_left (Quantifier.endings.map Prod.fst) hending
  have hnone := dropAny_other (apart_comparisons ending hmem) base
  rw [← dropEnd?_eq_some h] at hnone
  simp only [Keys.comparedForm, hnone, Option.bind_none]

/-- A key that constrains nothing and is no comparison is unknown. -/
theorem suffixedKey_unknown (below : Level) {e : Entity}
    (h : (Keys.node e).comparedForm key = .unknown) (c : Option Condition) :
    (match c with
      | some c => return some c
      | none => r.suffixedKey (.node e) key value path : Keyed (Option Condition)) =
      liftM (orUnknown e.name key c) := by
  cases c with
  | some c => rfl
  | none =>
    simp only [suffixedKey_eq below, h]
    rfl

/-- Keys that are made of the name of a relationship, and comparisons after them. -/
theorem relationshipVariant_eq (e : Entity) :
    (do
      match ← r.relationshipVariant below e key value path with
      | some c => return some c
      | none => r.suffixedKey (.node e) key value path) =
      noting (((variantForm? e key).getD ((Keys.node e).comparedForm key)).spelled key value) path
        (r.formOutcome below e.name key value path
          ((variantForm? e key).getD ((Keys.node e).comparedForm key))) := by
  have hcompared : r.suffixedKey (.node e) key value path =
      noting (((Keys.node e).comparedForm key).spelled key value) path
        (r.formOutcome below e.name key value path ((Keys.node e).comparedForm key)) :=
    suffixedKey_eq below (.node e)
  unfold relationshipVariant variantForm?
  cases hquantified : dropAny key Quantifier.endings with
  | some found =>
    obtain ⟨base, q⟩ := found
    simp only [Option.map_some, Option.getD_some]
    cases e.relationship? base with
    | some relationship =>
      simp only [bind_assoc, lift_bind_pure, lift_map_bind, Option.getD_some, KeyForm.spelled,
        formOutcome, noting]
    | none =>
      cases (Text.dropEnd? base "Connection").bind e.relationship? with
      | some relationship =>
        simp only [bind_assoc, lift_bind_pure, lift_map_bind, Option.getD_some, KeyForm.spelled,
          formOutcome, noting]
      | none =>
        simp only [pure_bind, Option.getD_none]
        exact hcompared
  | none =>
    simp only [Option.map_none, Option.getD_none]
    cases hconnection : (Text.dropEnd? key "Connection").bind e.relationship? with
    | some relationship =>
      obtain ⟨base, hbase, _⟩ := Option.bind_eq_some_iff.mp hconnection
      have hunknown := comparedForm_unknown (.node e) hbase (by simp)
      simp only [connectionValue_eq, Option.getD_some, KeyForm.spelled, formOutcome]
      rw [← noting_bind]
      exact bind_congr fun c => suffixedKey_unknown below hunknown c
    | none =>
      simp only
      cases haggregate : (Text.dropEnd? key "Aggregate").bind e.relationship? with
      | some relationship =>
        obtain ⟨base, hbase, _⟩ := Option.bind_eq_some_iff.mp haggregate
        have hunknown := comparedForm_unknown (.node e) hbase (by simp)
        simp only [bind_assoc, Option.map_some, Option.getD_some, KeyForm.spelled, formOutcome,
          noting, ← lift_bind_lift]
        refine bind_congr fun members => bind_congr fun c => ?_
        exact suffixedKey_unknown below hunknown c
      | none =>
        simp only [pure_bind, Option.map_none, Option.getD_none]
        exact hcompared

theorem fieldKey_eq (keys : Keys) :
    r.fieldKey below keys key value path =
      noting ((r.form keys key).spelled key value) path
        (r.formOutcome below keys.owner key value path (r.form keys key)) := by
  unfold fieldKey form
  cases keys with
  | claims => exact claimKey_eq
  | edge p =>
    simp only
    cases (Keys.edge p).attribute? key with
    | some found => exact attributeValue_eq _ _
    | none => exact suffixedKey_eq below _
  | node e =>
    simp only
    cases (Keys.node e).attribute? key with
    | some found => exact attributeValue_eq _ _
    | none =>
      simp only
      cases e.relationship? key with
      | some relationship => exact relationshipValue_eq _
      | none => exact relationshipVariant_eq e

/-- An entry notes its field, if it has one, and is read on its own. -/
theorem entry_eq (keys : Keys) :
    r.entry below keys path key value =
      noting (r.spelled keys key value) (childPath path key) (r.outcome below keys path key value)
      := by
  unfold entry spelled outcome
  split
  · simp only [noting, lift_bind_pure]
  · simp only [noting, lift_bind_pure]
  · simp only [noting, lift_bind_pure, lift_bind_lift]
    rfl
  · simp only [fieldKey_eq, noting_map]

end Readings

section Fields

variable {r : Reader} {keys : Keys} {key : String}

theorem spelled_of_field (h : key ∉ connectives) (value : Doc) :
    r.spelled keys key value = (r.form keys key).spelled key value := by
  unfold spelled
  split
  · exact absurd (by decide) h
  · exact absurd (by decide) h
  · exact absurd (by decide) h
  · rfl

theorem outcome_of_field (below : Level) (path : String) (h : key ∉ connectives) (value : Doc) :
    r.outcome below keys path key value =
      (r.formOutcome below keys.owner key value (childPath path key) (r.form keys key)).map
        Option.toList := by
  unfold outcome
  split
  · exact absurd (by decide) h
  · exact absurd (by decide) h
  · exact absurd (by decide) h
  · rfl

end Fields

end Reader

end GraphSelection.Resolve
