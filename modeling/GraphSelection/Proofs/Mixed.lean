import GraphSelection.Proofs.Closed
import GraphSelection.Proofs.Spelled.Forms
import GraphSelection.Proofs.WellScoped

/-!
Mixed spellings. While an object of conditions is read, the spelling of each field is noted once and
never changed, so a field that is written with an ending and as a nested object is refused, in
whatever order. Aggregation objects note nothing: each of their entries is read as if it stood
alone, so there a mixture is not seen.
-/
namespace GraphSelection.Resolve

open GraphSelection Plan

section Notes

variable {α : Type} {seen seen' : Entries Spelling}

theorem get?_single (field : String) (spelling : Spelling) :
    Entries.get? [(field, spelling)] field = some spelling := by
  simp [Entries.get?]

/-- What has been noted stays so, and the field has the spelling afterwards. -/
theorem note_known {field : String} {spelling : Spelling} {path : String} {u : Unit}
    (h : note field spelling path seen = .ok (u, seen')) :
    (∀ name x, seen.get? name = some x → seen'.get? name = some x) ∧
      seen'.get? field = some spelling := by
  unfold note at h
  split at h
  · rename_i previous hknown
    split at h
    · rename_i hsame
      cases h
      exact ⟨fun _ _ hx => hx, hsame ▸ hknown⟩
    · cases h
  · rename_i hnew
    cases h
    refine ⟨fun name x hx => ?_, ?_⟩
    · rw [Entries.get?_append, hx, Option.some_or]
    · rw [Entries.get?_append, hnew, Option.none_or, get?_single]

theorem noting_known {spelled : Option (String × Spelling)} {path : String} {outcome : Result α}
    {a : α} (h : noting spelled path outcome seen = .ok (a, seen')) :
    (∀ name x, seen.get? name = some x → seen'.get? name = some x) ∧
      ∀ field spelling, spelled = some (field, spelling) → seen'.get? field = some spelling := by
  cases spelled with
  | none =>
    obtain ⟨_, rfl⟩ := (lift_ok ..).mp h
    exact ⟨fun _ _ hx => hx, fun _ _ hnone => by cases hnone⟩
  | some pair =>
    obtain ⟨field, spelling⟩ := pair
    obtain ⟨u, between, hnote, hlift⟩ := (bind_ok ..).mp h
    obtain ⟨_, rfl⟩ := (lift_ok ..).mp hlift
    obtain ⟨hkept, hfield⟩ := note_known hnote
    refine ⟨hkept, fun name x heq => ?_⟩
    cases heq
    exact hfield

end Notes

/-- An object for which the test holds. -/
def isRecordOf (test : Doc.Members → Bool) : Doc → Bool
  | .record members => test members
  | _ => false

namespace KeyForm

/-- The field of a key that has an ending. -/
def suffixed? : KeyForm → Option String
  | .compared field _ _ _ => some field
  | .quantified field _ _ => some field
  | .connected field _ _ => some field
  | _ => none

/-- The value is an object of operators, of quantifiers, or of parts of a connection. -/
def isNested (value : Doc) : KeyForm → Bool
  | .own _ _ => isRecordOf isOperatorRecord value
  | .related _ => isRecordOf Reader.isQuantifierRecord value
  | .connection _ => isRecordOf isConnectionRecord value
  | _ => false

theorem spelled_of_suffixed {form : KeyForm} {field : String} (h : form.suffixed? = some field)
    (key : String) (value : Doc) : form.spelled key value = some (field, .suffixed) := by
  cases form with
  | compared name op subject a => cases h; rfl
  | quantified name q r => cases h; rfl
  | connected name q r => cases h; rfl
  | _ => cases h

theorem spelled_of_nested {form : KeyForm} {value : Doc} (h : form.isNested value = true)
    (key : String) : form.spelled key value = some (key, .nested) := by
  cases form with
  | own subject a =>
    cases value with
    | record members =>
      have hoperators : isOperatorRecord members = true := h
      simp [spelled, valueSpelling, hoperators]
    | _ => cases h
  | related r =>
    cases value with
    | record members =>
      have hparted : Reader.isQuantifierRecord members = true := h
      simp [spelled, recordSpelling, hparted]
    | _ => cases h
  | connection r =>
    cases value with
    | record members =>
      have hparted : isConnectionRecord members = true := h
      simp [spelled, recordSpelling, hparted]
    | _ => cases h
  | _ => cases h

end KeyForm

namespace Reader

variable {r : Reader} {keys : Keys} {path : String} {members : Doc.Members}

/-- When an object has been read, each of its entries has the spelling that is noted for its
field. -/
theorem entries_known {below : Level} {seen seen' : Entries Spelling} {cs : List Condition}
    (h : r.entries below keys path members seen = .ok (cs, seen')) :
    (∀ name x, seen.get? name = some x → seen'.get? name = some x) ∧
      ∀ e ∈ members, ∀ field spelling, r.spelled keys e.1 e.2 = some (field, spelling) →
        seen'.get? field = some spelling := by
  induction members generalizing seen cs with
  | nil =>
    obtain ⟨_, rfl⟩ := (pure_ok ..).mp h
    exact ⟨fun _ _ hx => hx, fun e he => absurd he List.not_mem_nil⟩
  | cons first rest ih =>
    obtain ⟨key, value⟩ := first
    simp only [entries, bind_ok, pure_ok] at h
    obtain ⟨own, between, hentry, more, _, hmore, _, rfl⟩ := h
    rw [entry_eq] at hentry
    obtain ⟨hkept, hfield⟩ := noting_known hentry
    obtain ⟨hkept', hrest⟩ := ih hmore
    refine ⟨fun name x hx => hkept' name x (hkept name x hx), ?_⟩
    intro e he field spelling hspelled
    rcases List.mem_cons.mp he with rfl | he
    · exact hkept' field spelling (hfield field spelling hspelled)
    · exact hrest e he field spelling hspelled

/-- A field that is written in two ways: under a key with an ending, and as a nested object under
its own name. -/
structure Mixes (r : Reader) (keys : Keys) (members : Doc.Members) (field : String) : Prop where
  suffixed : ∃ e ∈ members, e.1 ∉ connectives ∧ (r.form keys e.1).suffixed? = some field
  nested : ∃ value, (field, value) ∈ members ∧ field ∉ connectives ∧
    (r.form keys field).isNested value = true

theorem entries_mixed {field : String} (h : Mixes r keys members field) (below : Level)
    (path : String) (seen : Entries Spelling) :
    ∃ f, r.entries below keys path members seen = .error f := by
  cases hrun : r.entries below keys path members seen with
  | error f => exact ⟨f, rfl⟩
  | ok pair =>
    obtain ⟨cs, seen'⟩ := pair
    obtain ⟨_, hknown⟩ := entries_known hrun
    obtain ⟨e, he, hkey, hsuffixed⟩ := h.suffixed
    obtain ⟨value, hvalue, hfield, hnested⟩ := h.nested
    have hfirst := hknown e he field .suffixed
      ((spelled_of_field hkey e.2).trans (KeyForm.spelled_of_suffixed hsuffixed e.1 e.2))
    have hsecond := hknown _ hvalue field .nested
      ((spelled_of_field hfield value).trans (KeyForm.spelled_of_nested hnested field))
    rw [hfirst] at hsecond
    cases hsecond

theorem conditionAt_mixed {field : String} (h : Mixes r keys members field) (depth : Nat) :
    ∃ f, r.conditionAt (depth + 1) keys members path = .error f := by
  obtain ⟨f, hf⟩ := entries_mixed h (r.conditionAt depth) path []
  refine ⟨f, ?_⟩
  simp only [conditionAt, StateT.run, hf]
  rfl

end Reader

/-- A list of steps succeeds when each of them does. -/
theorem mapM_succeeds {α β : Type} {f : α → Result β} {xs : List α} :
    (∃ ys, xs.mapM f = .ok ys) ↔ ∀ x ∈ xs, ∃ y, f x = .ok y := by
  constructor
  · rintro ⟨ys, h⟩ x hx
    obtain ⟨y, _, hy⟩ := ok_of_mapM_ok h x hx
    exact ⟨y, hy⟩
  · exact mapM_ok_of_forall

/-- Entries that are read one by one and then put together succeed when each does alone. -/
theorem mapM_bind_succeeds {α β γ : Type} {f : α → Result β} {g : List β → γ}
    {xs : List α} :
    (∃ c, (do let ys ← xs.mapM f; return g ys) = .ok c) ↔
      ∀ x ∈ xs, ∃ c, (do let ys ← [x].mapM f; return g ys) = .ok c := by
  have hsome : ∀ xs : List α, (∃ c, (do let ys ← xs.mapM f; return g ys) = .ok c) ↔
      ∃ ys, xs.mapM f = .ok ys := by
    intro xs
    simp only [except_bind_ok, except_pure_ok]
    constructor
    · rintro ⟨_, ys, h, _⟩
      exact ⟨ys, h⟩
    · rintro ⟨ys, h⟩
      exact ⟨_, ys, h, rfl⟩
  simp only [hsome, mapM_succeeds, List.forall_mem_singleton]

namespace AggregationKeys

variable (k : AggregationKeys)

/-- An aggregation object is accepted when each of its entries is accepted alone. -/
theorem conditionAt_entries (depth : Nat) (members : Doc.Members) (path : String) :
    (∃ c, k.conditionAt (depth + 1) members path = .ok c) ↔
      ∀ e ∈ members, ∃ c, k.conditionAt (depth + 1) [e] path = .ok c :=
  mapM_bind_succeeds

/-- So are the reductions of attributes. -/
theorem attributes_entries (find : String → Option Attribute)
    (make : Attribute → Reduction → Measure) (members : Doc.Members) (path : String) :
    (∃ cs, k.attributes find make members path = .ok cs) ↔
      ∀ e ∈ members, ∃ cs, k.attributes find make [e] path = .ok cs :=
  mapM_bind_succeeds

end AggregationKeys

end GraphSelection.Resolve

namespace GraphSelection.Stage

open Plan Resolve

def films : Relationship :=
  { name := "films"
    graphType := "DIRECTED"
    direction := .outgoing
    target := "Film"
    isList := true
    properties := none
    nestedActions := [] }

/-- A person with films of their own. -/
def director : Entity :=
  { person with name := "Director", labels := ["Director"], relationships := [("films", films)] }

def studio : Setup :=
  ⟨{ schema with entities := ("Director", director) :: schema.entities }, {}, {}⟩

/-- A name that is asked for in two spellings. -/
def namedTwice : Doc.Members :=
  [("name_CONTAINS", .text "a"), ("born", .int 1931),
   ("name", .record [("startsWith", .text "A")])]

/-- A count that is asked for in two spellings. -/
def countedTwice : Doc.Members :=
  [("filmsAggregate", .record [("count_GT", .int 1), ("count", .record [("lt", .int 5)])])]

end GraphSelection.Stage

namespace GraphSelection.Resolve

open GraphSelection Plan

/-- A field is not written in two ways. An object of conditions in which one is written both under
a key with an ending and as a nested object is refused at every depth, whatever else it holds and
in whatever order; an aggregation object, and each of its parts, is refused only for an entry that
is refused by itself. -/
theorem mixed_refused (r : Reader) (keys : Keys) (members : Doc.Members) (field path : String)
    (h : Reader.Mixes r keys members field) :
    ((∃ f, r.condition keys members path = .error f) ∧
      ∀ depth, ∃ f, r.conditionAt (depth + 1) keys members path = .error f) ∧
    ∀ k : AggregationKeys,
      (∀ depth counted there, (∃ c, k.conditionAt (depth + 1) counted there = .ok c) ↔
        ∀ e ∈ counted, ∃ c, k.conditionAt (depth + 1) [e] there = .ok c) ∧
      ∀ find make reduced there, (∃ cs, k.attributes find make reduced there = .ok cs) ↔
        ∀ e ∈ reduced, ∃ cs, k.attributes find make [e] there = .ok cs := by
  refine ⟨⟨?_, Reader.conditionAt_mixed h⟩, fun k =>
    ⟨k.conditionAt_entries, k.attributes_entries⟩⟩
  obtain ⟨e, he, _⟩ := h.suffixed
  have hheight : ∃ depth, Doc.membersHeight members = depth + 1 := by
    cases members with
    | nil => exact absurd he List.not_mem_nil
    | cons first rest =>
      refine Nat.exists_eq_succ_of_ne_zero ?_
      have hmax : Doc.membersHeight (first :: rest) =
          max (first.2.height + 1) (Doc.membersHeight rest) := rfl
      omega
  obtain ⟨depth, hdepth⟩ := hheight
  rw [Reader.condition, hdepth]
  exact Reader.conditionAt_mixed h depth

theorem namedTwice_mixes :
    Reader.Mixes ⟨Stage.studio, false⟩ (.node Stage.director) Stage.namedTwice "name" where
  suffixed := ⟨("name_CONTAINS", .text "a"), by simp [Stage.namedTwice], by decide,
    by decide +kernel⟩
  nested := ⟨.record [("startsWith", .text "A")], by simp [Stage.namedTwice], by decide,
    by decide +kernel⟩

theorem namedTwice_refused :
    ∃ f, Reader.condition ⟨Stage.studio, false⟩ (.node Stage.director)
    Stage.namedTwice "Director.where" = .error f :=
  (mixed_refused _ _ _ _ _ namedTwice_mixes).1.1

/-- A count in two spellings under one relationship: both comparisons are taken over. -/
theorem countedTwice_accepted :
    ∃ c, Reader.condition ⟨Stage.studio, false⟩ (.node Stage.director) Stage.countedTwice
      "Director.where" = .ok (some c) ∧ c.conjuncts.length = 2 := by
  have hboth : (Reader.condition ⟨Stage.studio, false⟩ (.node Stage.director) Stage.countedTwice
      "Director.where").toOption.any (fun c => c.any fun c => c.conjuncts.length == 2) = true := by
    decide +kernel
  obtain ⟨c, h, hlength⟩ := exists_of_any hboth
  cases c with
  | none => cases hlength
  | some c => exact ⟨c, h, beq_iff_eq.mp hlength⟩

end GraphSelection.Resolve
