import GraphSelection.Proofs.Recast

/-!
Conditions of one principal as conditions of another. A claim is kept with its path, so a condition
that was resolved for one principal tells what it would have been for another: every claim is
looked up anew. Resolving for another principal gives just that, or the same failure.
-/
namespace GraphSelection.Plan

variable (p : Principal)

def Subject.askedBy : Subject → Subject
  | .claim path _ => .claim path (p.claim? path)
  | subject => subject

def Operand.askedBy : Operand → Operand
  | .claim path _ => .claim path (p.claim? path)
  | operand => operand

mutual
def Condition.askedBy : Condition → Condition
  | .all items => .all (Condition.eachAskedBy items)
  | .any items => .any (Condition.eachAskedBy items)
  | .not inner => .not (Condition.askedBy inner)
  | .compare subject op operand caseInsensitive =>
      .compare (subject.askedBy p) op (operand.askedBy p) caseInsensitive
  | .nullness subject isNull => .nullness (subject.askedBy p) isNull
  | .labels names => .labels names
  | .related r q targets isComposite edge =>
      .related r q (Condition.targetsAskedBy targets) isComposite (Condition.optionAskedBy edge)
  | .aggregation a => .aggregation a
  | .authenticated => .authenticated
def Condition.eachAskedBy : List Condition → List Condition
  | [] => []
  | c :: rest => Condition.askedBy c :: Condition.eachAskedBy rest
def Condition.targetsAskedBy : List (Entity × Option Condition) → List (Entity × Option Condition)
  | [] => []
  | (e, filter) :: rest =>
      (e, Condition.optionAskedBy filter) :: Condition.targetsAskedBy rest
def Condition.optionAskedBy : Option Condition → Option Condition
  | none => none
  | some c => some (Condition.askedBy c)
end

theorem Condition.optionAskedBy_eq (c : Option Condition) :
    Condition.optionAskedBy p c = c.map (Condition.askedBy p) := by
  cases c <;> rfl

/-- Every claim is looked up anew. -/
def Recast.claimsOf : Recast := ⟨Subject.askedBy p, Operand.askedBy p⟩

mutual
theorem Condition.askedBy_recast : (c : Condition) → c.askedBy p = c.recast (.claimsOf p)
  | .all items => by rw [Condition.askedBy, Condition.recast, Condition.eachAskedBy_recast items]
  | .any items => by rw [Condition.askedBy, Condition.recast, Condition.eachAskedBy_recast items]
  | .not inner => by rw [Condition.askedBy, Condition.recast, Condition.askedBy_recast inner]
  | .compare _ _ _ _ => rfl
  | .nullness _ _ => rfl
  | .labels _ => rfl
  | .related _ _ targets _ edge => by
    rw [Condition.askedBy, Condition.recast, Condition.targetsAskedBy_recast targets,
      Condition.optionAskedBy_recast edge]
  | .aggregation _ => rfl
  | .authenticated => rfl
theorem Condition.eachAskedBy_recast : (cs : List Condition) →
    Condition.eachAskedBy p cs = Condition.eachRecast (.claimsOf p) cs
  | [] => rfl
  | c :: rest => by
    rw [Condition.eachAskedBy, Condition.eachRecast, Condition.askedBy_recast c,
      Condition.eachAskedBy_recast rest]
theorem Condition.targetsAskedBy_recast : (targets : List (Entity × Option Condition)) →
    Condition.targetsAskedBy p targets = Condition.targetsRecast (.claimsOf p) targets
  | [] => rfl
  | (_, filter) :: rest => by
    rw [Condition.targetsAskedBy, Condition.targetsRecast, Condition.optionAskedBy_recast filter,
      Condition.targetsAskedBy_recast rest]
theorem Condition.optionAskedBy_recast : (c : Option Condition) →
    Condition.optionAskedBy p c = Condition.optionRecast (.claimsOf p) c
  | none => rfl
  | some c => by rw [Condition.optionAskedBy, Condition.optionRecast, Condition.askedBy_recast c]
end

theorem Condition.askedBy_eq : Condition.askedBy p = Condition.recast (.claimsOf p) :=
  funext (Condition.askedBy_recast p)

theorem Condition.allOf_askedBy (cs : List Condition) :
    Condition.allOf (cs.map (Condition.askedBy p)) =
      (Condition.allOf cs).map (Condition.askedBy p) := by
  rw [Condition.askedBy_eq, Condition.allOf_recast]

/-- What is asked, in conjunction with what the rules ask. -/
theorem Condition.joined_askedBy (asked rules : Option Condition) :
    Condition.allOf ((asked.map (Condition.askedBy p)).toList ++
        (rules.map (Condition.askedBy p)).toList) =
      (Condition.allOf (asked.toList ++ rules.toList)).map (Condition.askedBy p) := by
  rw [Option.toList_map, Option.toList_map, ← List.map_append, Condition.allOf_askedBy]

end GraphSelection.Plan

namespace GraphSelection.Resolve

open GraphSelection Plan

variable (p : Principal)

def Setup.askedBy (s : Setup) : Setup := { s with principal := p }

def ClaimMode.askedBy : ClaimMode → ClaimMode
  | .ignore => .ignore
  | .use _ => .use p

def Reader.askedBy (r : Reader) : Reader := { r with setup := r.setup.askedBy p }

theorem operand_askedBy (mode : ClaimMode) (value : Doc) :
    operand (mode.askedBy p) value = (operand mode value).askedBy p := by
  cases mode with
  | ignore => rfl
  | use principal =>
    cases value with
    | text s =>
      simp only [operand, ClaimMode.askedBy]
      split <;> rfl
    | _ => rfl

/-- A reader for another principal looks every claim up anew. -/
theorem Reader.recasts_askedBy (r : Reader) : Reader.Recasts (.claimsOf p) (r.askedBy p) r where
  schema := rfl
  mode value := by
    have hmode : (r.askedBy p).mode = r.mode.askedBy p := by
      unfold Reader.mode Reader.askedBy
      split <;> rfl
    rw [hmode, operand_askedBy]
    rfl
  claim _ := rfl
  attributes keys name subject a h := by
    cases keys with
    | claims => simp [Keys.attribute?] at h
    | edge properties =>
      obtain ⟨a', _, heq⟩ := Option.map_eq_some_iff.mp h
      cases heq
      rfl
    | node e =>
      obtain ⟨a', _, heq⟩ := Option.map_eq_some_iff.mp h
      cases heq
      split <;> rfl

section Rules

variable {p} {s : Setup}

theorem requested_askedBy (keys : Keys) (members : Option Doc.Members) (path : String) :
    (s.askedBy p).requested keys members path =
      Option.map (Condition.askedBy p) <$> s.requested keys members path := by
  cases members with
  | none => rfl
  | some members =>
    rw [Condition.askedBy_eq]
    exact Reader.conditionAt_recast (Reader.recasts_askedBy p ⟨s, false⟩) _ keys members path

theorem ruled_askedBy (keys : Keys) (members : Doc.Members) (path : String) :
    (s.askedBy p).ruled keys members path =
      Option.map (Condition.askedBy p) <$> s.ruled keys members path := by
  rw [Condition.askedBy_eq]
  exact Reader.conditionAt_recast (Reader.recasts_askedBy p ⟨s, true⟩) _ keys members path

theorem templateParts_askedBy (keys : Keys) (template : Option Doc) (path : String) :
    templateParts (s.askedBy p) keys template path =
      List.map (Condition.askedBy p) <$> templateParts s keys template path := by
  cases template with
  | none => rfl
  | some doc =>
    refine bind_same fun members => bind_both (ruled_askedBy ..) fun found => ?_
    cases found <;> rfl

theorem ruleCondition_askedBy (e : Entity) (d : Declared) :
    ruleCondition (s.askedBy p) e d =
      Option.map (Condition.askedBy p) <$> ruleCondition s e d := by
  refine bind_both (templateParts_askedBy ..) fun node => ?_
  refine bind_both (templateParts_askedBy ..) fun claims => ?_
  have hsigned : ∀ cs : List Condition,
      (if d.rule.needsAuthentication then [Condition.authenticated] else []) ++
          cs.map (Condition.askedBy p) =
        ((if d.rule.needsAuthentication then [Condition.authenticated] else []) ++ cs).map
          (Condition.askedBy p) := by
    intro cs
    split <;> rfl
  rw [hsigned, ← List.map_append, Condition.allOf_askedBy]
  rfl

theorem ruleConditions_askedBy (e : Entity) (attributes : List Attribute) (test : Rule → Bool) :
    ruleConditions (s.askedBy p) e attributes test =
      List.map (Condition.askedBy p) <$> ruleConditions s e attributes test := by
  refine bind_both (mapM_both (fun d => ruleCondition_askedBy e d) _) fun found => ?_
  rw [filterMap_map_both]
  rfl

theorem guardFilter_askedBy (e : Entity) (attributes : List Attribute) (action : Action) :
    guardFilter (s.askedBy p) e attributes action =
      Option.map (Condition.askedBy p) <$> guardFilter s e attributes action := by
  refine bind_both (ruleConditions_askedBy ..) fun parts => ?_
  rw [Condition.allOf_askedBy]
  rfl

theorem guardValidations_askedBy (e : Entity) (attributes : List Attribute) (action : Action)
    (moment : Moment) :
    guardValidations (s.askedBy p) e attributes action moment =
      List.map (Condition.askedBy p) <$> guardValidations s e attributes action moment :=
  ruleConditions_askedBy ..

end Rules

end GraphSelection.Resolve
