import Mathlib
import GraphSelection.Proofs.Akin.Programs
import GraphSelection.Proofs.Akin.Plans
import GraphSelection.Proofs.Independent
import GraphSelection.Proofs.Restated.Operations

/-!
Values of requests do not reach the text of programs. A request that differs from another only in
the values it compares and assigns gets the same failure, or the same clauses with parameters of
the same names. Comparisons of one aggregation share a call when they compare with one value; so
distinct values are replaced by distinct ones, and the values of filter rules stay.
-/
namespace GraphSelection

open Plan Program Resolve

theorem resultOf_akin {o o' : Operation} (h : o.Akin o') : resultOf o' = resultOf o := by
  cases h <;> rfl

/-- Requests that restate one another have kindred plans, or none for the same reason. -/
theorem plan_agree {s : Setup} {g : Doc → Doc} {r r' : Request} (hg : Substitution s g)
    (h : Restated s.schema g r r') : Agree Operation.Akin (s.plan r) (s.plan r') := by
  refine .bind (Setup.operation_agree hg h) fun o o' ho => ?_
  rw [Operation.depth_akin ho]
  split
  · exact .fault _
  · exact .ok ho

theorem alike_akin_programOf (terms : Terms) {o o' : Operation} (h : o.Akin o') :
    Alike (programOf terms o) (programOf terms o') :=
  .bind (.fresh "this") fun subject =>
    alike_akin_operationClauses (.root terms subject responseColumn) h

/-- What is compared and assigned does not reach the text of a program. -/
theorem compile_restated (s : Setup) (g : Doc → Doc) (r r' : Request) (hg : Substitution s g)
    (h : Restated s.schema g r r') :
    (∃ f, compile s r = .error f ∧ compile s r' = .error f) ∨
      ∃ c d, compile s r = .ok c ∧ compile s r' = .ok d ∧
        c.clauses = d.clauses ∧ c.result = d.result ∧ c.params.keys = d.params.keys := by
  have hagree : Agree (fun c d => c.clauses = d.clauses ∧ c.result = d.result ∧
      c.params.keys = d.params.keys) (compile s r) (compile s r') := by
    refine .bind (plan_agree hg h) fun o o' ho => ?_
    refine .bind ((alike_akin_programOf s.terms ho).runs {} {} rfl) fun run run' hrun => .ok ?_
    exact ⟨hrun.1, (resultOf_akin ho).symm, (Prod.mk.inj hrun.2).2⟩
  generalize compile s r = outcome at hagree
  generalize compile s r' = outcome' at hagree
  cases hagree with
  | fault f => exact .inl ⟨f, rfl, rfl⟩
  | ok hsame => exact .inr ⟨_, _, rfl, rfl, hsame⟩

end GraphSelection

namespace GraphSelection.Stage

open Plan Resolve

/-- Only members are seen who know more than three. -/
def acquainted : Rule :=
  { kind := .filter
    actions := Action.all
    moments := Moment.all
    needsAuthentication := false
    node := some (.record [("knowsAggregate", .record [("count_GT", .int 3)])])
    claims := none }

def acquaintance : Relationship :=
  { name := "knows"
    graphType := "KNOWS"
    direction := .outgoing
    target := "Member"
    isList := true
    properties := none
    nestedActions := NestedAction.all }

def companion : Entity :=
  { name := "Member"
    labels := ["Member"]
    attributes := [("name", { name := "name", kind := .string })]
    relationships := [("knows", acquaintance)]
    rules := [acquainted]
    pages := none }

def circle : Setup :=
  ⟨{ entities := [("Member", companion)], composites := [], propertySets := [] }, {}, {}⟩

/-- Members that know more than so many. -/
def knowing (n : Int) : Request :=
  { operation := .read
    entity := "Member"
    args := [("where", .record [("knowsAggregate", .record [("count_GT", .int n)])])]
    selection := [.leaf "name"] }

/-- Two whole numbers change places. -/
def exchanged (i j : Int) : Doc → Doc
  | .int n => .int (Equiv.swap i j n)
  | v => v

variable {i j : Int}

theorem exchanged_of_ne {v : Doc} (h : ∀ n, v ≠ .int n) : exchanged i j v = v := by
  cases v with
  | int n => exact absurd rfl (h n)
  | _ => rfl

theorem exchanged_kind (v : Doc) : (exchanged i j v).kind = v.kind := by
  cases v <;> rfl

theorem exchanged_injective : Function.Injective (exchanged i j) := by
  have hself : ∀ v, exchanged i j (exchanged i j v) = v := by
    intro v
    cases v with
    | int n => simp [exchanged]
    | _ => rfl
  exact Function.LeftInverse.injective hself

theorem exchanged_written (v w : Doc) :
    Json.compact (exchanged i j v) = Json.compact (exchanged i j w) ↔
      Json.compact v = Json.compact w := by
  have hint : ∀ m n, Json.compact (.int m) = Json.compact (.int n) ↔ m = n :=
    fun m n => Int.repr_inj
  have hother : ∀ {w}, (∀ n, w ≠ .int n) → ∀ n, Json.compact w ≠ Json.compact (.int n) := by
    intro w hw n heq
    obtain ⟨m, hm⟩ := Json.int_of_compact heq
    exact hw m hm
  by_cases hv : ∃ m, v = .int m
  · obtain ⟨m, rfl⟩ := hv
    by_cases hw : ∃ n, w = .int n
    · obtain ⟨n, rfl⟩ := hw
      simp only [exchanged, hint, EmbeddingLike.apply_eq_iff_eq]
    · replace hw : ∀ n, w ≠ .int n := fun n hn => hw ⟨n, hn⟩
      rw [exchanged_of_ne hw]
      exact iff_of_false (hother hw _).symm (hother hw _).symm
  · replace hv : ∀ n, v ≠ .int n := fun n hn => hv ⟨n, hn⟩
    rw [exchanged_of_ne hv]
    by_cases hw : ∃ n, w = .int n
    · obtain ⟨n, rfl⟩ := hw
      exact iff_of_false (hother hv _) (hother hv _)
    · rw [exchanged_of_ne fun n hn => hw ⟨n, hn⟩]

theorem companion_places (whole : Doc.Members) :
    (Place.target (.ok (.entity companion))).under circle.schema whole "knowsAggregate" =
      [.aggregation acquaintance] := by
  rfl

theorem acquaintance_places (whole : Doc.Members) :
    (Place.aggregation acquaintance).under circle.schema whole "count_GT" = [.measured] := by
  rfl

theorem knowing_restated (n : Int) :
    Restated circle.schema (exchanged i j) (knowing n) (knowing (Equiv.swap i j n)) := by
  refine ⟨rfl, rfl, ?_, ?_, ?_⟩
  · refine docRestated_member (q := .target (.ok (.entity companion))) rfl rfl ?_
    refine docRestated_member rfl (companion_places _) ?_
    refine docRestated_member rfl (acquaintance_places _) ?_
    simp [DocRestated, Place.permits, exchanged, Doc.replacedBy]
  · have hviews : rootViews circle.schema (circle.schema.target "Member") .read =
        [.fields companion] := rfl
    have harguments : View.arguments circle.schema "name" (.fields companion) = [] := rfl
    simp [SelectionsRestated, SelectionRestated, DocRestated, knowing, Selection.leaf,
      FragmentsRestated, hviews, harguments]
  · simp [FragmentsRestated, knowing]

def isInt (n : Int) : Doc → Bool
  | .int m => m == n
  | _ => false

theorem circle_rules {v : Doc} (h : RuleValue circle v) : v = .int 3 := by
  have hall : (circle.schema.entities.values.all fun e =>
      (declaredRules e e.attributes.values).all fun d =>
        (ruleCondition circle e d).toOption.all fun c =>
          c.toList.all fun c => c.compared.all (isInt 3)) = true := by
    decide +kernel
  simp only [List.all_eq_true] at hall
  obtain ⟨e, he, d, hd, _, c, hc, hv⟩ := h
  have hrule := hall e he d hd
  simp only [hc, Except.toOption, Option.all_some, Option.toList_some, List.all_cons, List.all_nil,
    Bool.and_true, List.all_eq_true] at hrule
  have hthree := hrule v hv
  cases v with
  | int n => exact congrArg Doc.int (beq_iff_eq.mp hthree)
  | _ => cases hthree

/-- The values of the request are exchanged, and that of the rule is another one. -/
theorem exchanged_substitution (hi : i ≠ 3) (hj : j ≠ 3) :
    Substitution circle (exchanged i j) where
  kind v _ := exchanged_kind v
  written v w _ _ := exchanged_written v w
  rules v _ hv := by
    rw [circle_rules hv]
    exact congrArg Doc.int (Equiv.swap_apply_of_ne_of_ne hi.symm hj.symm)

end GraphSelection.Stage

namespace GraphSelection

open Resolve

theorem knowing_compiles : ∃ c, compile Stage.circle (Stage.knowing 7) = .ok c :=
  exists_of_isOk (by decide +kernel)

theorem knowing_alike :
    ∃ c d, compile Stage.circle (Stage.knowing 7) = .ok c ∧
      compile Stage.circle (Stage.knowing 8) = .ok d ∧
      c.clauses = d.clauses ∧ c.result = d.result ∧ c.params.keys = d.params.keys := by
  have hrestated := compile_restated Stage.circle (Stage.exchanged 7 8) (Stage.knowing 7)
    (Stage.knowing 8) (Stage.exchanged_substitution (by decide) (by decide))
    (Stage.knowing_restated 7)
  rcases hrestated with ⟨f, hf, _⟩ | hsame
  · obtain ⟨c, hc⟩ := knowing_compiles
    rw [hc] at hf
    cases hf
  · exact hsame

/-- A comparison of the request shares the call of a rule, and does so no more when its value is
replaced. -/
theorem knowing_shared :
    Function.Injective (Stage.exchanged 3 4) ∧
      (∀ v, (Stage.exchanged 3 4 v).kind = v.kind) ∧
      (∀ v w, Json.compact (Stage.exchanged 3 4 v) = Json.compact (Stage.exchanged 3 4 w) ↔
        Json.compact v = Json.compact w) ∧
      Restated Stage.circle.schema (Stage.exchanged 3 4) (Stage.knowing 3) (Stage.knowing 4) ∧
      ∃ c d, compile Stage.circle (Stage.knowing 3) = .ok c ∧
        compile Stage.circle (Stage.knowing 4) = .ok d ∧ c.clauses ≠ d.clauses ∧
          c.params.keys ≠ d.params.keys := by
  refine ⟨Stage.exchanged_injective, Stage.exchanged_kind, Stage.exchanged_written,
    Stage.knowing_restated 3, ?_⟩
  have hdiffer : (compile Stage.circle (Stage.knowing 3)).toOption.any (fun c =>
      (compile Stage.circle (Stage.knowing 4)).toOption.any fun d =>
        c.clauses.length != d.clauses.length && c.params.keys != d.params.keys) = true := by
    decide +kernel
  cases hc : compile Stage.circle (Stage.knowing 3) with
  | error f =>
    rw [hc] at hdiffer
    cases hdiffer
  | ok c =>
    cases hd : compile Stage.circle (Stage.knowing 4) with
    | error f =>
      rw [hc, hd] at hdiffer
      cases hdiffer
    | ok d =>
      rw [hc, hd] at hdiffer
      simp only [Except.toOption, Option.any_some, Bool.and_eq_true, bne_iff_ne] at hdiffer
      exact ⟨c, d, rfl, rfl, fun h => hdiffer.1 (congrArg List.length h), hdiffer.2⟩

end GraphSelection
