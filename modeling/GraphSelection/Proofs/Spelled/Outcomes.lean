import GraphSelection.Proofs.Outcomes
import GraphSelection.Proofs.Spelled.Forms
import Mathlib.Data.List.Forall2

/-!
Outcomes up to the kind of failures. A failure tells where it has come up and what was found there,
and both depend on how a request is spelled; the kind of the failure does not. What is read from one
value at two places of a request concurs: it is the same result, or a failure of the same kind.
-/
namespace GraphSelection

/-- What a failure is, without what it is about. -/
inductive Failure.Kind where
  | unknownEntity
  | unknownField
  | filter
  | columns
  | aggregation
  | argument
  | notPermitted
  | mutation
  | tooDeep
  | missingBinding
  | schema
  deriving DecidableEq, Repr

def Failure.kind : Failure → Failure.Kind
  | .unknownEntity _ => .unknownEntity
  | .unknownField _ _ => .unknownField
  | .filter _ _ => .filter
  | .columns _ _ _ => .columns
  | .aggregation _ _ => .aggregation
  | .argument _ _ => .argument
  | .notPermitted _ _ _ => .notPermitted
  | .mutation _ _ => .mutation
  | .tooDeep _ _ => .tooDeep
  | .missingBinding _ => .missingBinding
  | .schema _ => .schema

namespace Resolve

open Plan

section Concurring

variable {α β γ δ : Type} {R : α → β → Prop} {S : γ → δ → Prop}

/-- Failures of one kind, or related results. -/
inductive Concur (R : α → β → Prop) : Result α → Result β → Prop
  | fault {f f' : Failure} (h : f.kind = f'.kind) : Concur R (.error f) (.error f')
  | ok {a : α} {b : β} (h : R a b) : Concur R (.ok a) (.ok b)

namespace Concur

theorem same (x : Result α) : Concur Eq x x := by
  cases x with
  | error f => exact .fault rfl
  | ok a => exact .ok rfl

theorem mono {R' : α → β → Prop} {x : Result α} {y : Result β} (h : Concur R x y)
    (himp : ∀ a b, R a b → R' a b) : Concur R' x y := by
  cases h with
  | fault hkind => exact .fault hkind
  | ok hr => exact .ok (himp _ _ hr)

theorem bind {x : Result α} {y : Result β} {f : α → Result γ} {g : β → Result δ}
    (hx : Concur R x y) (hf : ∀ a b, R a b → Concur S (f a) (g b)) :
    Concur S (x >>= f) (y >>= g) := by
  cases hx with
  | fault hkind => exact .fault hkind
  | ok hr => exact hf _ _ hr

theorem known {a : α} {b : β} {f : α → Result γ} {g : β → Result δ} (h : Concur S (f a) (g b)) :
    Concur S (Except.ok a >>= f) (Except.ok b >>= g) :=
  h

/-- Results that are the same go on in two ways. -/
theorem andThen {x y : Result α} {f : α → Result γ} {g : α → Result δ} (hx : Concur Eq x y)
    (hf : ∀ a, Concur S (f a) (g a)) : Concur S (x >>= f) (y >>= g) :=
  hx.bind fun a _ h => h ▸ hf a

theorem map {x : Result α} {y : Result β} {f : α → γ} {g : β → δ} (hx : Concur R x y)
    (hf : ∀ a b, R a b → S (f a) (g b)) : Concur S (x.map f) (y.map g) := by
  cases hx with
  | fault hkind => exact .fault hkind
  | ok hr => exact .ok (hf _ _ hr)

theorem mapSame {x y : Result α} (hx : Concur Eq x y) (f : α → γ) :
    Concur Eq (x.map f) (y.map f) :=
  hx.map fun _ _ h => congrArg f h

theorem mapM {f : α → Result γ} {g : β → Result δ} {xs : List α} {ys : List β}
    (h : List.Forall₂ R xs ys) (hf : ∀ a b, R a b → Concur S (f a) (g b)) :
    Concur (List.Forall₂ S) (xs.mapM f) (ys.mapM g) := by
  induction h with
  | nil => exact .ok .nil
  | cons hr _ ih =>
    rw [List.mapM_cons, List.mapM_cons]
    exact bind (hf _ _ hr) fun c d hcd => bind ih fun cs ds hall => .ok (.cons hcd hall)

/-- Lists that are read to the same results. -/
theorem mapMSame {f : α → Result γ} {g : β → Result γ} {xs : List α} {ys : List β}
    (h : List.Forall₂ R xs ys) (hf : ∀ a b, R a b → Concur Eq (f a) (g b)) :
    Concur Eq (xs.mapM f) (ys.mapM g) :=
  (mapM h hf).mono fun _ _ hall => List.forall₂_eq_eq_eq ▸ hall

/-- One list, read in two ways. -/
theorem mapMOne {f g : α → Result γ} (xs : List α) (hf : ∀ a, Concur Eq (f a) (g a)) :
    Concur Eq (xs.mapM f) (xs.mapM g) :=
  mapMSame (List.forall₂_same.mpr fun _ _ => rfl) fun a _ h => h ▸ hf a

theorem trans {x y z : Result α} (h : Concur Eq x y) (h' : Concur Eq y z) : Concur Eq x z := by
  cases h with
  | fault hkind =>
    cases h' with
    | fault hkind' => exact .fault (hkind.trans hkind')
  | ok hr =>
    cases h' with
    | ok hr' => exact .ok (hr.trans hr')

theorem symm {x y : Result α} (h : Concur Eq x y) : Concur Eq y x := by
  cases h with
  | fault hkind => exact .fault hkind.symm
  | ok hr => exact .ok hr.symm

/-- Concurring outcomes are equal once failures are told by their kind only. -/
theorem mapError_eq {x y : Result α} (h : Concur Eq x y) :
    x.mapError Failure.kind = y.mapError Failure.kind := by
  cases h with
  | fault hkind => exact congrArg Except.error hkind
  | ok hr => exact congrArg Except.ok hr

end Concur

end Concurring

section Places

variable {mode : ClaimMode} {subject : Subject} {a : Option Attribute} {path path' : String}

theorem asRecord_concur (v : Doc) : Concur Eq (asRecord v path) (asRecord v path') := by
  cases v with
  | record members => exact .ok rfl
  | _ => exact .fault rfl

theorem genericComparison_concur (name : String) :
    Concur Eq (genericComparison name path) (genericComparison name path') := by
  unfold genericComparison
  split
  · exact .ok rfl
  · exact .fault rfl

theorem checkComparison_concur (op : Comparison) (value : Doc) (caseInsensitive : Bool) :
    Concur Eq (checkComparison a op value caseInsensitive path)
      (checkComparison a op value caseInsensitive path') := by
  unfold checkComparison
  split
  · split
    · exact .fault rfl
    · exact .ok rfl
  · split
    · exact .fault rfl
    · exact .ok rfl

theorem compared_concur (op : Comparison) (value : Doc) (caseInsensitive : Bool) :
    Concur Eq (compared mode subject a op value caseInsensitive path)
      (compared mode subject a op value caseInsensitive path') := by
  unfold compared
  split
  · split
    · exact .fault rfl
    · exact .ok rfl
  · exact (checkComparison_concur op value caseInsensitive).andThen fun _ => .ok rfl

theorem operatorParts_concur (members : Doc.Members) :
    Concur Eq (operatorParts mode subject a path members)
      (operatorParts mode subject a path' members) := by
  induction members with
  | nil => exact .ok rfl
  | cons e rest ih =>
    obtain ⟨name, value⟩ := e
    have hmore : ∀ parts : List Condition, Concur Eq
        (do let more ← operatorParts mode subject a path rest; return parts ++ more)
        (do let more ← operatorParts mode subject a path' rest; return parts ++ more) :=
      fun parts => ih.andThen fun more => .ok rfl
    simp only [operatorParts]
    split
    · refine (asRecord_concur value).andThen fun inner => ?_
      refine (Concur.mapMOne _ fun entry => ?_).andThen hmore
      exact (genericComparison_concur entry.1).andThen fun op => compared_concur ..
    · refine (genericComparison_concur name).andThen fun op => ?_
      exact (compared_concur ..).andThen fun c => hmore [c]

theorem valueOutcome_concur (r : Reader) (value : Doc) :
    Concur Eq (r.valueOutcome subject a value path) (r.valueOutcome subject a value path') := by
  cases value with
  | record members =>
    simp only [Reader.valueOutcome]
    split
    · exact (operatorParts_concur members).mapSame _
    · split
      · exact (compared_concur ..).mapSame _
      · exact .fault rfl
  | _ =>
    simp only [Reader.valueOutcome]
    exact (compared_concur ..).mapSame some

namespace AggregationKeys

variable (k : AggregationKeys) {m : Measure}

theorem leaf_concur (op : Comparison) (value : Doc) :
    Concur Eq (k.leaf m op value path) (k.leaf m op value path') := by
  unfold leaf
  split
  · exact .fault rfl
  · split
    · exact .fault rfl
    · exact .ok rfl

theorem operators_concur (members : Doc.Members) :
    Concur Eq (k.operators m members path) (k.operators m members path') :=
  .mapMOne _ fun e => (genericComparison_concur e.1).andThen fun op => leaf_concur k op e.2

theorem countMeasure_concur (name : String) :
    Concur Eq (countMeasure name path) (countMeasure name path') := by
  unfold countMeasure
  split
  · exact .ok rfl
  · exact .ok rfl
  · exact .fault rfl

theorem count_concur (value : Doc) :
    Concur Eq (k.count value path) (k.count value path') := by
  cases value with
  | record members =>
    simp only [count]
    split
    · exact operators_concur k members
    · refine (Concur.mapMOne _ fun e => ?_).andThen fun parts => .ok rfl
      refine (countMeasure_concur e.1).andThen fun m => ?_
      exact (asRecord_concur e.2).andThen fun operators => operators_concur k operators
  | _ => exact (leaf_concur k _ _).andThen fun c => .ok rfl

theorem reduced_concur (a : Attribute) (f : Reduction) (make : Attribute → Reduction → Measure) :
    Concur Eq (reduced a f make path) (reduced a f make path') := by
  unfold reduced
  split
  · exact .fault rfl
  · refine Concur.andThen ?_ fun _ => .ok rfl
    unfold Reduction.check
    split
    · exact .ok rfl
    · exact .fault rfl

theorem attributePart_concur (find : String → Option Attribute)
    (make : Attribute → Reduction → Measure) (key : String) (value : Doc) :
    Concur Eq (k.attributePart find make path key value)
      (k.attributePart find make path' key value) := by
  unfold attributePart
  split
  · rename_i a _
    refine (asRecord_concur value).andThen fun reductions => ?_
    refine (Concur.mapMOne _ fun e => ?_).andThen fun parts => .ok rfl
    obtain ⟨name, operators⟩ := e
    simp only
    split
    · exact .fault rfl
    · refine (reduced_concur ..).andThen fun m => ?_
      exact (asRecord_concur operators).andThen fun members => operators_concur k members
  · split
    · exact .fault rfl
    · refine (reduced_concur ..).andThen fun m => ?_
      exact (leaf_concur k _ _).andThen fun c => .ok rfl

end AggregationKeys

end Places

end Resolve

end GraphSelection
