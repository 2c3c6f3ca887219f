import GraphSelection.Compile
import GraphSelection.Proofs.Runs
import GraphSelection.Resolve.Comparison

/-!
Conversions of written and of compared values. A value reaches a program as a parameter, and the
constructor of its kind may stand around the parameter. A change decides about that by the kind and
by whether the attribute is a list, a test for equality by the kind alone. So the two treat a value
alike, and as its kind needs it, except where the attribute is a list of a kind with a constructor.
-/
namespace GraphSelection.Program

open Cypher Plan Resolve

/-- What is done to a parameter before its value is stored or compared. -/
inductive Conversion where
  | asGiven
  /-- The function is applied to the value. -/
  | whole (function : String)
  /-- The function is applied to each element of the value. -/
  | each (function : String)
  deriving DecidableEq

namespace Conversion

/-- The converted parameter. -/
def apply (name : String) : Conversion → Expr
  | .asGiven => .param name
  | .whole function => .apply function [.param name]
  | .each function =>
      .comprehension "value" (.param name) (.apply function [.var "value"])

/-- The constructor of the kind around a value as a whole. -/
def ofKind (kind : ScalarKind) : Conversion :=
  match kind.constructor? with
  | some function => .whole function
  | none => .asGiven

/-- What values of the attribute need: the constructor of the kind once, for a list once for each
element. -/
def needed (a : Attribute) : Conversion :=
  match a.kind.constructor? with
  | some function => if a.isList then .each function else .whole function
  | none => .asGiven

/-- What a change does to the values of the attribute. -/
def stored (a : Attribute) : Conversion := if a.isList then .asGiven else ofKind a.kind

/-- What a test for equality does to the values of the attribute. -/
def compared (a : Attribute) : Conversion := ofKind a.kind

/-- The attribute is a list of values that need a constructor. -/
def ListsConverted (a : Attribute) : Prop :=
  a.isList = true ∧ ∃ function, a.kind.constructor? = some function

theorem ofKind_eq_asGiven {kind : ScalarKind} :
    ofKind kind = .asGiven ↔ ∀ function, kind.constructor? ≠ some function := by
  unfold ofKind
  cases kind.constructor? <;> simp

/-- A change and a test for equality differ on lists of values that need a constructor only. -/
theorem stored_eq_compared (a : Attribute) : stored a = compared a ↔ ¬ ListsConverted a := by
  unfold stored compared ListsConverted
  cases hlist : a.isList with
  | false => simp
  | true =>
    rw [if_pos rfl, eq_comm, ofKind_eq_asGiven]
    simp

theorem stored_eq_needed (a : Attribute) : stored a = needed a ↔ ¬ ListsConverted a := by
  unfold stored needed ofKind ListsConverted
  cases a.isList <;> cases a.kind.constructor? <;> simp

theorem compared_eq_needed (a : Attribute) : compared a = needed a ↔ ¬ ListsConverted a := by
  unfold compared needed ofKind ListsConverted
  cases a.isList <;> cases a.kind.constructor? <;> simp

end Conversion

section Steps

variable {u v : Supply} {e : Expr}

/-- The step makes one parameter, for the value, and converts it. -/
def Converts (c : Conversion) (value : Doc) (x : Build Expr) : Prop :=
  ∀ u, ∃ name v, x u = .ok (c.apply name, v) ∧ v.params = u.params ++ [(name, value)]

theorem converts_typedParam (value : Doc) (kind : ScalarKind) :
    Converts (.ofKind kind) value (typedParam value (some kind)) := by
  intro u
  refine ⟨u.name "param", { next := u.next + 1, params := u.params ++ [(u.name "param", value)] },
    (bind_ok ..).mpr ⟨_, _, (param_ok ..).mpr ⟨rfl, rfl⟩, ?_⟩, rfl⟩
  refine (pure_ok ..).mpr ⟨?_, rfl⟩
  unfold construct Conversion.ofKind
  cases h : kind.constructor? <;> simp [h, Conversion.apply]

theorem converts_untyped (value : Doc) : Converts .asGiven value (typedParam value none) := by
  intro u
  exact ⟨u.name "param", { next := u.next + 1, params := u.params ++ [(u.name "param", value)] },
    (bind_ok ..).mpr ⟨_, _, (param_ok ..).mpr ⟨rfl, rfl⟩, rfl⟩, rfl⟩

/-- A change stores the converted value under the property of the attribute. -/
theorem assignment_converts (name : String) (a : Attribute) (value : Doc) (u : Supply) :
    ∃ x v, assignment name ⟨a, value⟩ u =
        .ok ((.propertyOf name a.stored, (Conversion.stored a).apply x), v) ∧
      v.params = u.params ++ [(x, value)] := by
  have hvalue : Converts (.stored a) value
      (typedParam value (if a.isList then none else some a.kind)) := by
    unfold Conversion.stored
    split
    · exact converts_untyped value
    · exact converts_typedParam value a.kind
  obtain ⟨x, v, hrun, hparams⟩ := hvalue u
  exact ⟨x, v, (bind_ok ..).mpr ⟨_, v, hrun, rfl⟩, hparams⟩

end Steps

/-- Where the stored attribute of a subject is read: at the node of the context, or at the
relationship that led there. -/
def Reads (ctx : Context) (a : Attribute) (name : String) : Subject → Prop
  | .node b => b = a ∧ name = ctx.subject
  | .edge b => b = a ∧ ctx.relationship = some name
  | _ => False

section Comparing

variable {ctx : Context} {a : Attribute} {name : String} {subject : Subject}

theorem Reads.kind (h : Reads ctx a name subject) : subject.kind? = some a.kind := by
  cases subject with
  | node b => exact h.1 ▸ rfl
  | edge b => exact h.1 ▸ rfl
  | computed b => exact h.elim
  | claim path value => exact h.elim

theorem Reads.expr (h : Reads ctx a name subject) (q : Subqueries) (u : Supply) :
    subjectExpr ctx subject q u = .ok ((([], .propertyOf name a.stored), q), u) := by
  cases subject with
  | node b =>
    obtain ⟨rfl, rfl⟩ := h
    rfl
  | edge b =>
    obtain ⟨rfl, hedge⟩ := h
    refine (predicate_bind_ok ..).mpr ⟨name, q, u, ?_, rfl⟩
    exact (predicate_fault_ok ..).mpr ⟨by simp [Context.edge, hedge], rfl, rfl⟩
  | computed b => exact h.elim
  | claim path value => exact h.elim

/-- A test for equality compares the property of the attribute with the converted value. -/
theorem equality_converts (h : Reads ctx a name subject) (value : Doc) (q : Subqueries)
    (u : Supply) :
    ∃ x v, Condition.predicate ctx (.compare subject .eq (.literal value) false) q u =
        .ok ((.equals (.propertyOf name a.stored) ((Conversion.compared a).apply x), q), v) ∧
      v.params = u.params ++ [(x, value)] := by
  obtain ⟨x, v, hrun, hparams⟩ := converts_typedParam value a.kind u
  have hoperand : operandExpr (some a.kind) .eq (.literal value) u =
      .ok (([], (Conversion.ofKind a.kind).apply x), v) := by
    refine (bind_ok ..).mpr ⟨_, v, ?_, rfl⟩
    simpa using hrun
  refine ⟨x, v, ?_, hparams⟩
  refine (predicate_bind_ok ..).mpr ⟨_, q, u, h.expr q u, ?_⟩
  refine (predicate_bind_ok ..).mpr ⟨([], (Conversion.ofKind a.kind).apply x), q, v,
    (predicate_lift_ok ..).mpr ⟨?_, rfl⟩, rfl⟩
  rw [h.kind]
  exact hoperand

/-- Any attribute can be tested for being equal to a value that is not null. -/
theorem compared_equality (subject : Subject) (a : Attribute) {value : Doc}
    (hvalue : value.isNull = false) (path : String) :
    Resolve.compared .ignore subject (some a) .eq value false path =
      .ok (.compare subject .eq (.literal value) false) := by
  have hsuits : unsuited? a .eq value false = none := by
    simp [unsuited?, Comparison.isTextual, Comparison.isOrdering]
  simp only [Resolve.compared, hvalue, checkComparison, hsuits]
  rfl

end Comparing

/-- A change stores a value and a test for equality on the same attribute compares with it, each as
a parameter with this very value. The two convert the parameter alike, and each as the attribute
needs it, exactly where the attribute is no list of values that need a constructor. -/
theorem written_compared (ctx : Context) (a : Attribute) (name : String) (subject : Subject)
    (value : Doc) (path : String) (hsubject : Reads ctx a name subject)
    (hvalue : value.isNull = false) :
    (∀ u, ∃ x v,
      assignment name ⟨a, value⟩ u =
        .ok ((.propertyOf name a.stored, (Conversion.stored a).apply x), v) ∧
      v.params = u.params ++ [(x, value)]) ∧
    (∃ c, Resolve.compared .ignore subject (some a) .eq value false path = .ok c ∧
      ∀ q u, ∃ x v,
        Condition.predicate ctx c q u =
          .ok ((.equals (.propertyOf name a.stored) ((Conversion.compared a).apply x), q), v) ∧
        v.params = u.params ++ [(x, value)]) ∧
    (Conversion.stored a = Conversion.compared a ↔ ¬ Conversion.ListsConverted a) ∧
    (Conversion.stored a = Conversion.needed a ↔ ¬ Conversion.ListsConverted a) ∧
    (Conversion.compared a = Conversion.needed a ↔ ¬ Conversion.ListsConverted a) := by
  refine ⟨assignment_converts name a value, ?_, Conversion.stored_eq_compared a,
    Conversion.stored_eq_needed a, Conversion.compared_eq_needed a⟩
  exact ⟨_, compared_equality subject a hvalue path, equality_converts hsubject value⟩

end GraphSelection.Program

namespace GraphSelection.Stage

def birthday : Attribute := { name := "birthday", kind := .date }

def holidays : Attribute := { name := "holidays", kind := .date, isList := true }

def celebrant : Entity :=
  { name := "Celebrant"
    labels := ["Celebrant"]
    attributes := [("birthday", birthday), ("holidays", holidays)]
    relationships := []
    rules := []
    pages := none }

def celebrants : Resolve.Setup :=
  ⟨{ entities := [("Celebrant", celebrant)], composites := [], propertySets := [] }, {}, {}⟩

/-- Who celebrates on one day is given that same day as the only one. -/
def restated : Request :=
  { operation := .update
    entity := "Celebrant"
    args :=
      [("where", .record [("holidays", .list [.text "2020-01-01"])]),
       ("update", .record [("holidays", .list [.text "2020-01-01"])])]
    selection := [.leaf "birthday"] }

end GraphSelection.Stage

namespace GraphSelection.Program

open Plan Resolve

/-- The function of a date stands around a single date on both sides. -/
theorem birthday_converted :
    Stage.birthday.isComputed = false ∧
    (∃ x v, assignment "this0" ⟨Stage.birthday, .text "2020-01-01"⟩ {} =
      .ok ((.propertyOf "this0" "birthday", .apply "date" [.param x]), v)) ∧
    Conversion.stored Stage.birthday = Conversion.compared Stage.birthday := by
  obtain ⟨hstored, _, hsame, _, _⟩ := written_compared
    (.root ⟨false, "Forbidden"⟩ "this0" "this") Stage.birthday "this0"
    (.node Stage.birthday) (.text "2020-01-01") "where" ⟨rfl, rfl⟩ rfl
  obtain ⟨x, v, hrun, _⟩ := hstored {}
  exact ⟨rfl, ⟨x, v, hrun⟩, hsame.mpr fun h => by cases h.1⟩

/-- A list of dates is stored without any function, and is compared with the function of one date
around the whole list; neither is what the list needs. -/
theorem holidays_differ :
    (compile Stage.celebrants Stage.restated).toOption.map Compiled.text = some
      ("MATCH (this0:Celebrant)\n" ++
        "WHERE this0.holidays = date($param1)\n" ++
        "SET this0.holidays = $param2\n" ++
        "RETURN collect(DISTINCT this0 \x7b birthday: toString(this0.birthday) \x7d) AS this") ∧
    Stage.holidays.isComputed = false ∧
    Conversion.stored Stage.holidays = .asGiven ∧
    Conversion.compared Stage.holidays = .whole "date" ∧
    Conversion.needed Stage.holidays = .each "date" := by
  refine ⟨?_, rfl, rfl, rfl, rfl⟩
  decide +kernel

end GraphSelection.Program
