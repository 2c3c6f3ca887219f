import GraphSelection.Proofs.Restated.Documents
import GraphSelection.Proofs.Spelled.Names
import Mathlib.Data.List.Perm.Subperm

/-!
Documents in two spellings. The second document is as the first, except that keys with endings may
be unfolded wherever an object of conditions or of aggregations is read. What stands under a key
keeps its place when the key is unfolded, one or two objects deeper.
-/
namespace GraphSelection

/-- A value under keys, one inside the other. -/
def Doc.nested (inner : List String) (v : Doc) : Doc :=
  inner.foldr (fun key v => .record [(key, v)]) v

theorem Doc.height_le_nested (inner : List String) (v : Doc) :
    v.height ≤ (v.nested inner).height := by
  induction inner with
  | nil => exact Nat.le_refl _
  | cons key rest ih =>
    have hheight : (v.nested (key :: rest)).height = max ((v.nested rest).height + 1) 0 := rfl
    omega

namespace Resolve

open Plan

section Respelled

variable (schema : Schema)

/-- A union is asked for by its members; what is asked of an interface is asked of its
constituents. -/
def targetVocabulary : Except SchemaFault Target → Vocabulary
  | .ok (.composite c) => if c.isUnion then .members c.constituents else .fields
  | _ => .fields

/-- What the keys of an object are made of that stands in a place. -/
def Place.vocabulary : Place → Vocabulary
  | .object .claims => .claims
  | .object _ => .fields
  | .edge _ => .fields
  | .target found => targetVocabulary found
  | .related r => targetVocabulary (schema.targetOf r)
  | .aggregation _ => .counts
  | .reduced _ => .reductions
  | _ => .other

/-- Objects in which keys are unfolded, at some depth. -/
def Place.respells : Place → Bool
  | .object _ | .edge _ | .target _ | .related _ | .connected _ | .connection _ | .aggregation _
  | .reduced _ => true
  | _ => false

/-- Lists of such objects. -/
def Place.respellsItems : Place → Bool
  | .objects _ | .aggregations _ => true
  | _ => false

/-- The key is about the field, as it stands or unfolded. -/
def About (vocabulary : Vocabulary) (key field : String) : Prop :=
  field = key ∨ ∃ inner, Unfolds schema vocabulary key field inner

/-- No two keys are about one field. -/
def FieldsApart (vocabulary : Vocabulary) (members : Doc.Members) : Prop :=
  members.Pairwise fun e e' =>
    ∀ field, About schema vocabulary e.1 field → ¬ About schema vocabulary e'.1 field

mutual
/-- The second document is as the first in this place, with some of the keys unfolded. Fields occur
under one key of each object only. -/
def Respelled (p : Place) : Doc → Doc → Prop
  | .record members, v' =>
      if p.respells then
        ∃ members', v' = .record members' ∧ FieldsApart schema (p.vocabulary schema) members ∧
          MembersRespelled p members members members'
      else v' = .record members
  | .list items, v' =>
      if p.respellsItems then ∃ items', v' = .list items' ∧ ItemsRespelled p items items'
      else v' = .list items
  | v, v' => v' = v
termination_by structural v => v
def MembersRespelled (p : Place) (whole : Doc.Members) :
    List (String × Doc) → List (String × Doc) → Prop
  | [], [] => True
  | (key, v) :: rest, (key', v') :: rest' =>
      ((key' = key ∧ ∀ q ∈ p.under schema whole key, Respelled q v v') ∨
        ∃ inner v'', Unfolds schema (p.vocabulary schema) key key' inner ∧
          (p.vocabulary schema = .claims → CleanName key') ∧ v' = v''.nested inner ∧
          ∀ q ∈ p.under schema whole key, Respelled q v v'') ∧
      MembersRespelled p whole rest rest'
  | _, _ => False
termination_by structural members => members
def ItemsRespelled (p : Place) : List Doc → List Doc → Prop
  | [], [] => True
  | v :: rest, v' :: rest' => (∀ q ∈ p.items, Respelled q v v') ∧ ItemsRespelled p rest rest'
  | _, _ => False
termination_by structural items => items
end

end Respelled

variable {schema : Schema} {d d' : Nat} {p q : Place} {v v' : Doc}
  {whole members members' : Doc.Members}

variable (schema) in
/-- Entries of two objects: one key, or a key that is unfolded. -/
inductive EntryRespelled (p : Place) (whole : Doc.Members) :
    String × Doc → String × Doc → Prop
  | kept {key : String} {v v' : Doc} (h : ∀ q ∈ p.under schema whole key, Respelled schema q v v') :
      EntryRespelled p whole (key, v) (key, v')
  | unfolded {key base : String} {inner : List String} {v v' : Doc}
      (hunfolds : Unfolds schema (p.vocabulary schema) key base inner)
      (hclean : p.vocabulary schema = .claims → CleanName base)
      (h : ∀ q ∈ p.under schema whole key, Respelled schema q v v') :
      EntryRespelled p whole (key, v) (base, v'.nested inner)

theorem membersRespelled_iff :
    MembersRespelled schema p whole members members' ↔
      List.Forall₂ (EntryRespelled schema p whole) members members' := by
  induction members generalizing members' with
  | nil => cases members' <;> simp [MembersRespelled]
  | cons e rest ih =>
    obtain ⟨key, v⟩ := e
    cases members' with
    | nil => simp [MembersRespelled]
    | cons e' rest' =>
      obtain ⟨key', v'⟩ := e'
      rw [MembersRespelled, List.forall₂_cons, ih]
      refine and_congr_left fun _ => ⟨?_, fun h => ?_⟩
      · rintro (⟨rfl, h⟩ | ⟨inner, v'', hunfolds, hclean, rfl, h⟩)
        · exact .kept h
        · exact .unfolded hunfolds hclean h
      · cases h with
        | kept h => exact .inl ⟨rfl, h⟩
        | unfolded hunfolds hclean h => exact .inr ⟨_, _, hunfolds, hclean, rfl, h⟩

theorem itemsRespelled_iff {items items' : List Doc} :
    ItemsRespelled schema p items items' ↔
      List.Forall₂ (fun v v' => ∀ q ∈ p.items, Respelled schema q v v') items items' := by
  induction items generalizing items' with
  | nil => cases items' <;> simp [ItemsRespelled]
  | cons v rest ih => cases items' <;> simp [ItemsRespelled, ih]

theorem respelled_record (hp : p.respells = true)
    (hapart : FieldsApart schema (p.vocabulary schema) members)
    (h : List.Forall₂ (EntryRespelled schema p members) members members') :
    Respelled schema p (.record members) (.record members') := by
  simp only [Respelled, hp, ↓reduceIte]
  exact ⟨members', rfl, hapart, membersRespelled_iff.mpr h⟩

variable (schema) in
/-- The second value is another spelling of the first in its place, and neither is higher than its
bound. -/
structure Alternate (d d' : Nat) (p : Place) (v v' : Doc) : Prop where
  respelled : Respelled schema p v v'
  height : v.height ≤ d
  height' : v'.height ≤ d'

variable (schema) in
/-- Entries of two objects that are not higher than the bounds. -/
inductive EntryAlternate (d d' : Nat) (p : Place) (whole : Doc.Members) :
    String × Doc → String × Doc → Prop
  | kept {key : String} {v v' : Doc}
      (h : ∀ q ∈ p.under schema whole key, Alternate schema d d' q v v') :
      EntryAlternate d d' p whole (key, v) (key, v')
  | unfolded {key base : String} {inner : List String} {v v' : Doc}
      (hunfolds : Unfolds schema (p.vocabulary schema) key base inner)
      (hclean : p.vocabulary schema = .claims → CleanName base)
      (h : ∀ q ∈ p.under schema whole key, Alternate schema d d' q v v') :
      EntryAlternate d d' p whole (key, v) (base, v'.nested inner)

namespace Alternate

theorem succ (h : Alternate schema d d' p v v') : Alternate schema (d + 1) (d' + 1) p v v' :=
  ⟨h.respelled, Nat.le_succ_of_le h.height, Nat.le_succ_of_le h.height'⟩

/-- What holds no keys to unfold stays. -/
theorem same (h : Alternate schema d d' p v v') (hp : p.respells = false)
    (hitems : p.respellsItems = false) : v' = v := by
  have hrespelled := h.respelled
  cases v <;> simpa only [Respelled, hp, hitems, Bool.false_eq_true, ↓reduceIte] using hrespelled

/-- Two objects, or a value that is no object and stays. -/
theorem record_or_same (h : Alternate schema d d' p v v') (hp : p.respells = true) :
    (∃ members members', v = .record members ∧ v' = .record members') ∨
      (v' = v ∧ ∀ members, v ≠ .record members) := by
  have hrespelled := h.respelled
  have hitems : p.respellsItems = false := by
    cases p <;> first | rfl | cases hp
  cases v with
  | record members =>
    simp only [Respelled, hp, ↓reduceIte] at hrespelled
    obtain ⟨members', rfl, _⟩ := hrespelled
    exact .inl ⟨members, members', rfl, rfl⟩
  | list items =>
    simp only [Respelled, hitems, Bool.false_eq_true, ↓reduceIte] at hrespelled
    exact .inr ⟨hrespelled, by simp⟩
  | _ => exact .inr ⟨hrespelled, by simp⟩

theorem byKey (h : Alternate schema d d' p (.record members) (.record members'))
    (hp : p.respells = true) :
    FieldsApart schema (p.vocabulary schema) members ∧
      List.Forall₂ (EntryRespelled schema p members) members members' := by
  have hrespelled := h.respelled
  simp only [Respelled, hp, ↓reduceIte] at hrespelled
  obtain ⟨own', hown', hapart, hmembers⟩ := hrespelled
  cases hown'
  exact ⟨hapart, membersRespelled_iff.mp hmembers⟩

/-- What stands in two objects is a little lower than they are. -/
theorem entries (h : Alternate schema (d + 1) (d' + 1) p (.record members) (.record members'))
    (hp : p.respells = true) :
    List.Forall₂ (EntryAlternate schema d d' p members) members members' := by
  refine (forall₂_mem (h.byKey hp).2).imp fun e e' he => ?_
  obtain ⟨hentry, hmem, hmem'⟩ := he
  have hlt := height_lt_of_mem hmem
  have hlt' := height_lt_of_mem hmem'
  have hle : Doc.membersHeight members ≤ d + 1 := h.height
  have hle' : Doc.membersHeight members' ≤ d' + 1 := h.height'
  cases hentry with
  | kept hkept =>
    simp only at hlt hlt'
    exact .kept fun q hq => ⟨hkept q hq, by omega, by omega⟩
  | @unfolded key base inner v v' hunfolds hclean hunder =>
    have hnested := v'.height_le_nested inner
    simp only at hlt hlt'
    exact .unfolded hunfolds hclean fun q hq => ⟨hunder q hq, by omega, by omega⟩

/-- At height zero there is nothing on either side. -/
theorem empty (h : Alternate schema d d' p (.record members) (.record members'))
    (hp : p.respells = true) (hzero : d = 0 ∨ d' = 0) : members = [] ∧ members' = [] := by
  have hheight : Doc.membersHeight members ≤ d := h.height
  have hheight' : Doc.membersHeight members' ≤ d' := h.height'
  cases (h.byKey hp).2 with
  | nil => exact ⟨rfl, rfl⟩
  | @cons e e' rest rest' _ _ =>
    have hlt : e.2.height < Doc.membersHeight (e :: rest) := height_lt_of_mem List.mem_cons_self
    have hlt' : e'.2.height < Doc.membersHeight (e' :: rest') :=
      height_lt_of_mem List.mem_cons_self
    omega

/-- Two lists item by item, or a value that is no list and stays. -/
theorem list_or_same (h : Alternate schema d d' p v v') (hitems : p.respellsItems = true)
    (hq : q ∈ p.items) :
    (∃ items items', v = .list items ∧ v' = .list items' ∧
      List.Forall₂ (Alternate schema d d' q) items items') ∨
      (v' = v ∧ ∀ items, v ≠ .list items) := by
  have hrespelled := h.respelled
  have hp : p.respells = false := by
    cases p <;> first | rfl | cases hitems
  cases v with
  | list items =>
    simp only [Respelled, hitems, ↓reduceIte] at hrespelled
    obtain ⟨items', rfl, hall⟩ := hrespelled
    refine .inl ⟨items, items', rfl, rfl, ?_⟩
    refine (forall₂_mem (itemsRespelled_iff.mp hall)).imp fun item item' hitem => ?_
    obtain ⟨hrespelled, hmem, hmem'⟩ := hitem
    exact ⟨hrespelled q hq, Nat.le_trans (height_le_of_mem hmem) h.height,
      Nat.le_trans (height_le_of_mem hmem') h.height'⟩
  | record members =>
    simp only [Respelled, hp, Bool.false_eq_true, ↓reduceIte] at hrespelled
    exact .inr ⟨hrespelled, by simp⟩
  | _ => exact .inr ⟨hrespelled, by simp⟩

/-- An object that is read as in another place of one vocabulary. -/
theorem recast (h : Alternate schema d d' p (.record members) (.record members'))
    (hp : p.respells = true) (hq : q.respells = true)
    (hvocabulary : q.vocabulary schema = p.vocabulary schema)
    (hunder : ∀ key, q.under schema members key ⊆ p.under schema members key) :
    Alternate schema d d' q (.record members) (.record members') := by
  obtain ⟨hapart, hentries⟩ := h.byKey hp
  refine ⟨respelled_record hq (hvocabulary ▸ hapart) (hentries.imp fun e e' he => ?_), h.height,
    h.height'⟩
  cases he with
  | kept hkept => exact .kept fun place hplace => hkept place (hunder _ hplace)
  | unfolded hunfolds hclean hkept =>
    exact .unfolded (hvocabulary ▸ hunfolds) (hvocabulary ▸ hclean) fun place hplace =>
      hkept place (hunder _ hplace)

end Alternate

section Entries

/-- Keys of no vocabulary stay. -/
theorem entries_kept (hvocabulary : p.vocabulary schema = .other)
    (h : List.Forall₂ (EntryAlternate schema d d' p whole) members members') :
    List.Forall₂ (fun e e' => e'.1 = e.1 ∧
      ∀ q ∈ p.under schema whole e.1, Alternate schema d d' q e.2 e'.2) members members' := by
  refine h.imp fun e e' he => ?_
  cases he with
  | kept hkept => exact ⟨rfl, hkept⟩
  | unfolded hunfolds _ _ =>
    rw [hvocabulary] at hunfolds
    cases hunfolds

theorem isEmpty_of_alternates
    (h : List.Forall₂ (EntryAlternate schema d d' p whole) members members') :
    members'.isEmpty = members.isEmpty := by
  cases h <;> rfl

/-- A question about keys has one answer where unfolding does not change it. -/
theorem any_of_alternates (test : String → Bool)
    (htest : ∀ key base inner, Unfolds schema (p.vocabulary schema) key base inner →
      test base = test key)
    (h : List.Forall₂ (EntryAlternate schema d d' p whole) members members') :
    (members'.any fun e => test e.1) = members.any fun e => test e.1 := by
  induction h with
  | nil => rfl
  | cons he _ ih =>
    rw [List.any_cons, List.any_cons, ih]
    cases he with
    | kept => rfl
    | unfolded hunfolds _ _ => rw [htest _ _ _ hunfolds]

theorem find?_of_alternates (test : String → Bool)
    (htest : ∀ key base inner, Unfolds schema (p.vocabulary schema) key base inner →
      test base = test key)
    (h : List.Forall₂ (EntryAlternate schema d d' p whole) members members') :
    Option.Rel (fun _ _ => True) (members.find? fun e => test e.1)
      (members'.find? fun e => test e.1) := by
  induction h with
  | nil => exact .none
  | @cons e e' rest rest' he _ ih =>
    have hsame : test e'.1 = test e.1 := by
      cases he with
      | kept => rfl
      | unfolded hunfolds _ _ => exact htest _ _ _ hunfolds
    rw [List.find?_cons, List.find?_cons, hsame]
    split
    · exact .some trivial
    · exact ih

variable (schema) in
/-- Unfolding neither takes the key nor leads to it. -/
def Untouched (vocabulary : Vocabulary) (name : String) : Prop :=
  ∀ key base inner, Unfolds schema vocabulary key base inner → key ≠ name ∧ base ≠ name

theorem get?_of_alternates {name : String} {q : Place} (hq : q ∈ p.under schema whole name)
    (hname : ∀ e ∈ members, ∀ base inner, Unfolds schema (p.vocabulary schema) e.1 base inner →
      e.1 ≠ name ∧ base ≠ name)
    (h : List.Forall₂ (EntryAlternate schema d d' p whole) members members') :
    Option.Rel (Alternate schema d d' q) (members.get? name) (members'.get? name) := by
  induction h with
  | nil => exact .none
  | cons he _ ih =>
    have hrest := ih fun e hmem => hname e (List.mem_cons_of_mem _ hmem)
    cases he with
    | @kept key v v' hkept =>
      by_cases hkey : name = key
      · subst hkey
        simp only [Entries.get?, List.lookup_cons, beq_self_eq_true]
        exact .some (hkept q hq)
      · have hfalse : (name == key) = false := beq_false_of_ne hkey
        simp only [Entries.get?, List.lookup_cons, hfalse]
        exact hrest
    | @unfolded key base inner v v' hunfolds _ _ =>
      obtain ⟨hkey, hbase⟩ := hname _ List.mem_cons_self _ _ hunfolds
      have hfalse : (name == key) = false := beq_false_of_ne hkey.symm
      have hfalse' : (name == base) = false := beq_false_of_ne hbase.symm
      simp only [Entries.get?, List.lookup_cons, hfalse, hfalse']
      exact hrest

end Entries

section Erased

/-- What is left without a key are some of the members, in some order. -/
theorem swapErase_subperm (key : String) (members : Doc.Members) :
    List.Subperm (members.swapErase key) members := by
  induction members with
  | nil => exact List.Subperm.refl _
  | cons e rest ih =>
    obtain ⟨k, v⟩ := e
    rw [Entries.swapErase]
    split
    · split
      · exact List.nil_subperm
      · rename_i last hlast
        have hrest : rest.dropLast ++ [last] = rest := List.dropLast_append_getLast? last hlast
        have hperm : List.Perm (last :: rest.dropLast) rest := by
          conv_rhs => rw [← hrest]
          exact (List.perm_append_singleton last rest.dropLast).symm
        exact hperm.subperm.cons_right _
    · exact (List.subperm_cons (k, v)).mpr ih

theorem FieldsApart.erase {vocabulary : Vocabulary} (h : FieldsApart schema vocabulary members)
    (key : String) : FieldsApart schema vocabulary (members.swapErase key) := by
  obtain ⟨some, hperm, hsub⟩ := swapErase_subperm key members
  refine (List.Pairwise.sublist hsub h).perm hperm ?_
  intro e e' hapart field hfield' hfield
  exact hapart field hfield hfield'

/-- An object of conditions from which an untouched key is taken. -/
theorem Alternate.erase {keys : Keys} {name : String}
    (h : Alternate schema d d' (.object keys) (.record members) (.record members'))
    (hname : Untouched schema ((Place.object keys).vocabulary schema) name) :
    Alternate schema d d' (.object keys) (.record (members.swapErase name))
      (.record (members'.swapErase name)) := by
  obtain ⟨hapart, hentries⟩ := h.byKey rfl
  have hwhole : List.Forall₂ (EntryRespelled schema (.object keys) (members.swapErase name))
      members members' := by
    refine hentries.imp fun e e' he => ?_
    cases he with
    | kept hkept => exact .kept hkept
    | unfolded hunfolds hclean hkept => exact .unfolded hunfolds hclean hkept
  refine ⟨respelled_record rfl (hapart.erase name)
      (forall₂_swapErase name (fun e e' he => ?_) hwhole),
    Nat.le_trans (membersHeight_swapErase name) h.height,
    Nat.le_trans (membersHeight_swapErase name) h.height'⟩
  cases he with
  | kept => exact Iff.rfl
  | unfolded hunfolds _ _ =>
    obtain ⟨hkey, hbase⟩ := hname _ _ _ hunfolds
    exact iff_of_false hkey hbase

end Erased

end Resolve

end GraphSelection
