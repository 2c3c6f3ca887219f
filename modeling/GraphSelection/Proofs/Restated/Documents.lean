import GraphSelection.Proofs.Agreement
import GraphSelection.Proofs.Restated.Places

/-!
Documents that restate one another, taken apart. Two such documents are of one kind, unless their
place is free; two objects have the same keys, and what stands under a key restates what stood
there. Documents are read to their height, so heights come along.
-/
namespace GraphSelection

section Kinds

variable {v v' : Doc}

/-- Two values of one kind. -/
inductive Doc.Paired : Doc → Doc → Prop
  | null : Doc.Paired .null .null
  | list (items items' : List Doc) : Doc.Paired (.list items) (.list items')
  | record (members members' : Doc.Members) : Doc.Paired (.record members) (.record members')
  | other {v v' : Doc} (h : v.kind = .other) (h' : v'.kind = .other) : Doc.Paired v v'

theorem Doc.paired_of_kind (h : v'.kind = v.kind) : Doc.Paired v v' := by
  cases v with
  | null =>
    cases v' with
    | null => exact .null
    | _ => cases h
  | list items =>
    cases v' with
    | list items' => exact .list items items'
    | _ => cases h
  | record members =>
    cases v' with
    | record members' => exact .record members members'
    | _ => cases h
  | _ => exact .other rfl h

theorem Doc.isNull_of_kind (h : v'.kind = v.kind) : v'.isNull = v.isNull := by
  cases v <;> cases v' <;> first | rfl | cases h

theorem Doc.isList_of_kind (h : v'.kind = v.kind) : v'.isList = v.isList := by
  cases v <;> cases v' <;> first | rfl | cases h

end Kinds

/-- Related lists are related member by member. -/
theorem forall₂_mem {α β : Type} {R : α → β → Prop} {xs : List α} {ys : List β}
    (h : List.Forall₂ R xs ys) : List.Forall₂ (fun x y => R x y ∧ x ∈ xs ∧ y ∈ ys) xs ys := by
  induction h with
  | nil => exact .nil
  | cons hr _ ih =>
    refine .cons ⟨hr, List.mem_cons_self, List.mem_cons_self⟩ (ih.imp fun x y hxy => ?_)
    exact ⟨hxy.1, List.mem_cons_of_mem _ hxy.2.1, List.mem_cons_of_mem _ hxy.2.2⟩

/-- Lists of related values are related position by position. -/
theorem forall₂_indexed {α β : Type} {R : α → β → Prop} {xs : List α} {ys : List β}
    (h : List.Forall₂ R xs ys) :
    List.Forall₂ (fun x y => x.1 = y.1 ∧ R x.2 y.2) (Resolve.indexed xs) (Resolve.indexed ys) := by
  unfold Resolve.indexed
  rw [h.length_eq]
  generalize List.range ys.length = positions
  induction h generalizing positions with
  | nil => simp
  | cons hr _ ih =>
    cases positions with
    | nil => exact .nil
    | cons n more => exact .cons ⟨rfl, hr⟩ (ih more)

namespace Resolve

variable {schema : Schema} {g : Doc → Doc}

/-- Where members are read one by one, a value is replaced by one of its kind. -/
theorem Place.kind_of_opens {p : Place} (hp : p.opens = true) {v v' : Doc}
    (h : p.permits g v v') : v'.kind = v.kind := by
  cases p with
  | fixed | free | like | measured | aggregations | objects => cases hp
  | counted => exact h.1
  | _ => exact h

theorem Place.permits_records {p : Place} (hp : p.opens = true) (members members' : Doc.Members) :
    p.permits g (.record members) (.record members') := by
  cases p with
  | fixed | free | like | measured | aggregations | objects => cases hp
  | counted => exact ⟨rfl, fun hkind => absurd rfl hkind⟩
  | _ => exact rfl

/-- What all places ask of the two values, and what they ask further of two objects and of two
lists. -/
theorem docRestated_iff {places : List Place} {v v' : Doc} :
    DocRestated schema g places v v' ↔
      (∀ p ∈ places, p.permits g v v') ∧
        (∀ members members', v = .record members → v' = .record members' →
          places.any Place.opens = true →
            MembersRestated schema g places members members members') ∧
        (∀ items items', v = .list items → v' = .list items' →
          places.flatMap Place.items ≠ [] →
            ItemsRestated schema g (places.flatMap Place.items) items items') := by
  cases v <;> cases v' <;> simp [DocRestated]

-- Fewer places ask for less.
mutual
theorem docRestated_mono {places fewer : List Place} (hsub : fewer ⊆ places) (v v' : Doc)
    (h : DocRestated schema g places v v') : DocRestated schema g fewer v v' := by
  obtain ⟨hpermits, hmembers, hitems⟩ := docRestated_iff.mp h
  refine docRestated_iff.mpr ⟨fun p hp => hpermits p (hsub hp), ?_, ?_⟩
  · intro members members' hv hv' hopens
    obtain ⟨p, hp, hopen⟩ := List.any_eq_true.mp hopens
    have hwhole := hmembers members members' hv hv' (List.any_eq_true.mpr ⟨p, hsub hp, hopen⟩)
    match v, hv with
    | .record own, rfl => exact membersRestated_mono hsub own own members' hwhole
  · intro items items' hv hv' hne
    have hfewer : fewer.flatMap Place.items ⊆ places.flatMap Place.items := by
      intro q hq
      obtain ⟨p, hp, hq⟩ := List.mem_flatMap.mp hq
      exact List.mem_flatMap.mpr ⟨p, hsub hp, hq⟩
    have hwhole := hitems items items' hv hv' fun hnil =>
      hne (List.subset_nil.mp (hnil ▸ hfewer))
    match v, hv with
    | .list own, rfl => exact itemsRestated_mono hfewer own items' hwhole
termination_by structural v
theorem membersRestated_mono {places fewer : List Place} (hsub : fewer ⊆ places)
    (whole members members' : List (String × Doc))
    (h : MembersRestated schema g places whole members members') :
    MembersRestated schema g fewer whole members members' := by
  match members, members' with
  | [], [] => trivial
  | (key, v) :: rest, (key', v') :: rest' =>
    rw [MembersRestated] at h ⊢
    obtain ⟨hkey, hv, hrest⟩ := h
    refine ⟨hkey, docRestated_mono ?_ v v' hv, membersRestated_mono hsub whole rest rest' hrest⟩
    intro q hq
    obtain ⟨p, hp, hq⟩ := List.mem_flatMap.mp hq
    exact List.mem_flatMap.mpr ⟨p, hsub hp, hq⟩
  | [], _ :: _ => exact h
  | _ :: _, [] => exact h
termination_by structural members
theorem itemsRestated_mono {places fewer : List Place} (hsub : fewer ⊆ places)
    (items items' : List Doc) (h : ItemsRestated schema g places items items') :
    ItemsRestated schema g fewer items items' := by
  match items, items' with
  | [], [] => trivial
  | v :: rest, v' :: rest' =>
    rw [ItemsRestated] at h ⊢
    exact ⟨docRestated_mono hsub v v' h.1, itemsRestated_mono hsub rest rest' h.2⟩
  | [], _ :: _ => exact h
  | _ :: _, [] => exact h
termination_by structural items
end

section Heights

theorem height_lt_of_mem {members : Doc.Members} {entry : String × Doc} (h : entry ∈ members) :
    entry.2.height < Doc.membersHeight members := by
  induction members with
  | nil => exact absurd h List.not_mem_nil
  | cons first rest ih =>
    obtain ⟨key, value⟩ := first
    have hheight : Doc.membersHeight ((key, value) :: rest) =
        max (value.height + 1) (Doc.membersHeight rest) := rfl
    rcases List.mem_cons.mp h with rfl | h
    · simp only
      omega
    · have hrest := ih h
      omega

theorem height_le_of_mem {items : List Doc} {item : Doc} (h : item ∈ items) :
    item.height ≤ Doc.itemsHeight items := by
  induction items with
  | nil => exact absurd h List.not_mem_nil
  | cons first rest ih =>
    have hheight : Doc.itemsHeight (first :: rest) = max first.height (Doc.itemsHeight rest) := rfl
    rcases List.mem_cons.mp h with rfl | h
    · omega
    · have hrest := ih h
      omega

end Heights

/-- Two objects are read level by level, until one of the heights is reached. -/
theorem heights_induction {motive : Nat → Nat → Prop}
    (empty : ∀ d d', d = 0 ∨ d' = 0 → motive d d')
    (level : ∀ d d', motive d d' → motive (d + 1) (d' + 1)) (d d' : Nat) : motive d d' := by
  induction d generalizing d' with
  | zero => exact empty _ _ (.inl rfl)
  | succ d ih =>
    cases d' with
    | zero => exact empty _ _ (.inr rfl)
    | succ d' => exact level _ _ (ih d')

/-- Two objects, entry by entry. -/
theorem membersRestated_iff {places : List Place} {whole members members' : Doc.Members} :
    MembersRestated schema g places whole members members' ↔
      List.Forall₂ (fun e e' => e.1 = e'.1 ∧
        DocRestated schema g (places.flatMap (Place.under schema whole e.1)) e.2 e'.2)
        members members' := by
  induction members generalizing members' with
  | nil => cases members' <;> simp [MembersRestated]
  | cons e rest ih => cases members' <;> simp [MembersRestated, ih, and_assoc]

theorem itemsRestated_iff {places : List Place} {items items' : List Doc} :
    ItemsRestated schema g places items items' ↔
      List.Forall₂ (DocRestated schema g places) items items' := by
  induction items generalizing items' with
  | nil => cases items' <;> simp [ItemsRestated]
  | cons v rest ih => cases items' <;> simp [ItemsRestated, ih]

/-- Objects of one member. -/
theorem docRestated_member {p q : Place} {key : String} {v v' : Doc}
    (hp : p.permits g (.record [(key, v)]) (.record [(key, v')]))
    (hunder : p.under schema [(key, v)] key = [q]) (h : DocRestated schema g [q] v v') :
    DocRestated schema g [p] (.record [(key, v)]) (.record [(key, v')]) := by
  simp [DocRestated, MembersRestated, hp, hunder, h]

variable (schema g) in
/-- The second value restates the first in its place, and neither is higher than its bound. -/
structure Stands (d d' : Nat) (p : Place) (v v' : Doc) : Prop where
  restated : DocRestated schema g [p] v v'
  height : v.height ≤ d
  height' : v'.height ≤ d'

variable (schema g) in
/-- Entries of two objects: one key, and what stands under it restated in all its places. -/
structure EntryStands (d d' : Nat) (p : Place) (whole : Doc.Members) (e e' : String × Doc) :
    Prop where
  key : e.1 = e'.1
  restated : DocRestated schema g (p.under schema whole e.1) e.2 e'.2
  height : e.2.height ≤ d
  height' : e'.2.height ≤ d'

section Stands

variable {d d' : Nat} {p q : Place} {v v' : Doc} {members members' : Doc.Members}

theorem Stands.permits (h : Stands schema g d d' p v v') : p.permits g v v' :=
  (docRestated_iff.mp h.restated).1 p List.mem_cons_self

theorem Stands.succ (h : Stands schema g d d' p v v') : Stands schema g (d + 1) (d' + 1) p v v' :=
  ⟨h.restated, Nat.le_succ_of_le h.height, Nat.le_succ_of_le h.height'⟩

theorem stands_of_docRestated {places : List Place} (h : DocRestated schema g places v v')
    (hp : p ∈ places) (hd : v.height ≤ d) (hd' : v'.height ≤ d') :
    Stands schema g d d' p v v' :=
  ⟨docRestated_mono (by simpa using hp) v v' h, hd, hd'⟩

theorem EntryStands.spread {whole : Doc.Members} {e e' : String × Doc}
    (h : EntryStands schema g d d' p whole e e') :
    e.1 = e'.1 ∧ ∀ q ∈ p.under schema whole e.1, Stands schema g d d' q e.2 e'.2 :=
  ⟨h.key, fun _ hq => stands_of_docRestated h.restated hq h.height h.height'⟩

theorem Stands.byKey (h : Stands schema g d d' p (.record members) (.record members'))
    (hopens : p.opens = true) :
    List.Forall₂ (fun e e' => e.1 = e'.1 ∧
      DocRestated schema g (p.under schema members e.1) e.2 e'.2) members members' := by
  have hmembers := (docRestated_iff.mp h.restated).2.1 members members' rfl rfl
    (by simpa using hopens)
  simpa only [membersRestated_iff, List.flatMap_singleton] using hmembers

/-- What stands in two objects is a little lower than they are. -/
theorem Stands.entries (h : Stands schema g (d + 1) (d' + 1) p (.record members) (.record members'))
    (hopens : p.opens = true) :
    List.Forall₂ (EntryStands schema g d d' p members) members members' := by
  refine (forall₂_mem (h.byKey hopens)).imp fun e e' he => ?_
  obtain ⟨⟨hkey, hrestated⟩, hmem, hmem'⟩ := he
  have hlt := height_lt_of_mem hmem
  have hlt' := height_lt_of_mem hmem'
  have hle : Doc.membersHeight members ≤ d + 1 := h.height
  have hle' : Doc.membersHeight members' ≤ d' + 1 := h.height'
  exact ⟨hkey, hrestated, by omega, by omega⟩

/-- At height zero there is nothing on either side. -/
theorem Stands.empty (h : Stands schema g d d' p (.record members) (.record members'))
    (hopens : p.opens = true) (hzero : d = 0 ∨ d' = 0) : members = [] ∧ members' = [] := by
  have hheight : Doc.membersHeight members ≤ d := h.height
  have hheight' : Doc.membersHeight members' ≤ d' := h.height'
  cases h.byKey hopens with
  | nil => exact ⟨rfl, rfl⟩
  | @cons e e' rest rest' _ _ =>
    have hlt : e.2.height < Doc.membersHeight (e :: rest) := height_lt_of_mem List.mem_cons_self
    have hlt' : e'.2.height < Doc.membersHeight (e' :: rest') :=
      height_lt_of_mem List.mem_cons_self
    omega

theorem Stands.items {items items' : List Doc}
    (h : Stands schema g d d' p (.list items) (.list items')) (hq : q ∈ p.items) :
    List.Forall₂ (Stands schema g d d' q) items items' := by
  have hne : [p].flatMap Place.items ≠ [] := by
    rw [List.flatMap_singleton]
    exact List.ne_nil_of_mem hq
  have hitems := (docRestated_iff.mp h.restated).2.2 items items' rfl rfl hne
  rw [List.flatMap_singleton, itemsRestated_iff] at hitems
  refine (forall₂_mem hitems).imp fun item item' hitem => ?_
  obtain ⟨hrestated, hmem, hmem'⟩ := hitem
  exact stands_of_docRestated hrestated hq (Nat.le_trans (height_le_of_mem hmem) h.height)
    (Nat.le_trans (height_le_of_mem hmem') h.height')

theorem stands_of_members (hq : q.opens = true)
    (h : List.Forall₂ (fun e e' => e.1 = e'.1 ∧
      DocRestated schema g (q.under schema members e.1) e.2 e'.2) members members')
    (hd : Doc.membersHeight members ≤ d) (hd' : Doc.membersHeight members' ≤ d') :
    Stands schema g d d' q (.record members) (.record members') := by
  refine ⟨docRestated_iff.mpr ⟨?_, ?_, ?_⟩, hd, hd'⟩
  · intro p hp
    rw [List.mem_singleton] at hp
    exact hp ▸ Place.permits_records hq members members'
  · intro own own' hown hown' _
    cases hown
    cases hown'
    simpa only [membersRestated_iff, List.flatMap_singleton] using h
  · intro items items' hitems
    cases hitems

/-- An object that is read as in another place. -/
theorem Stands.recast (h : Stands schema g d d' p (.record members) (.record members'))
    (hopens : p.opens = true) (hq : q.opens = true)
    (hunder : ∀ key, q.under schema members key ⊆ p.under schema members key) :
    Stands schema g d d' q (.record members) (.record members') := by
  refine stands_of_members hq ((h.byKey hopens).imp fun e e' he => ?_) h.height h.height'
  exact ⟨he.1, docRestated_mono (hunder e.1) _ _ he.2⟩

end Stands

section Entries

variable {d d' : Nat} {p : Place} {whole members members' : Doc.Members}

theorem keys_of_entries
    (h : List.Forall₂ (EntryStands schema g d d' p whole) members members') :
    members'.map Prod.fst = members.map Prod.fst := by
  induction h with
  | nil => rfl
  | cons he _ ih => rw [List.map_cons, List.map_cons, ih, he.key]

/-- Questions about keys have one answer. -/
theorem any_of_entries (test : String → Bool)
    (h : List.Forall₂ (EntryStands schema g d d' p whole) members members') :
    (members'.any fun e => test e.1) = members.any fun e => test e.1 := by
  have hkeys := congrArg (List.any · test) (keys_of_entries h)
  simpa [List.any_map, Function.comp_def] using hkeys

theorem all_of_entries (test : String → Bool)
    (h : List.Forall₂ (EntryStands schema g d d' p whole) members members') :
    (members'.all fun e => test e.1) = members.all fun e => test e.1 := by
  have hkeys := congrArg (List.all · test) (keys_of_entries h)
  simpa [List.all_map, Function.comp_def] using hkeys

theorem isEmpty_of_entries
    (h : List.Forall₂ (EntryStands schema g d d' p whole) members members') :
    members'.isEmpty = members.isEmpty := by
  cases h <;> rfl

theorem find?_of_entries (test : String → Bool)
    (h : List.Forall₂ (EntryStands schema g d d' p whole) members members') :
    Option.Rel (fun e e' => e.1 = e'.1) (members.find? fun e => test e.1)
      (members'.find? fun e => test e.1) := by
  induction h with
  | nil => exact .none
  | cons he _ ih =>
    rw [List.find?_cons, List.find?_cons, ← he.key]
    split
    · exact .some he.key
    · exact ih

theorem get?_of_entries {key : String} {q : Place} (hq : q ∈ p.under schema whole key)
    (h : List.Forall₂ (EntryStands schema g d d' p whole) members members') :
    Option.Rel (Stands schema g d d' q) (members.get? key) (members'.get? key) := by
  induction h with
  | nil => exact .none
  | @cons e e' rest rest' he _ ih =>
    obtain ⟨k, v⟩ := e
    obtain ⟨k', v'⟩ := e'
    obtain ⟨rfl, hstands⟩ := he.spread
    by_cases hkey : key = k
    · subst hkey
      simp only [Entries.get?, List.lookup_cons, beq_self_eq_true]
      exact .some (hstands q hq)
    · have hfalse : (key == k) = false := beq_false_of_ne hkey
      simp only [Entries.get?, List.lookup_cons, hfalse]
      exact ih

end Entries

section Erased

variable {members members' : Doc.Members}

theorem mem_of_mem_swapErase {entry : String × Doc} {key : String}
    (h : entry ∈ Entries.swapErase members key) : entry ∈ members := by
  induction members with
  | nil => exact h
  | cons first rest ih =>
    obtain ⟨k, v⟩ := first
    rw [Entries.swapErase] at h
    split at h
    · split at h
      · exact absurd h List.not_mem_nil
      · rename_i last hlast
        rcases List.mem_cons.mp h with rfl | h
        · exact List.mem_cons_of_mem _ (List.mem_of_getLast? hlast)
        · exact List.mem_cons_of_mem _ (List.dropLast_subset _ h)
    · rcases List.mem_cons.mp h with rfl | h
      · exact List.mem_cons_self
      · exact List.mem_cons_of_mem _ (ih h)

theorem membersHeight_le {n : Nat} (h : ∀ e ∈ members, e.2.height < n) :
    Doc.membersHeight members ≤ n := by
  induction members with
  | nil => exact Nat.zero_le n
  | cons first rest ih =>
    obtain ⟨key, value⟩ := first
    have hfirst : value.height < n := h _ List.mem_cons_self
    have hrest := ih fun e he => h e (List.mem_cons_of_mem _ he)
    have hheight : Doc.membersHeight ((key, value) :: rest) =
        max (value.height + 1) (Doc.membersHeight rest) := rfl
    omega

theorem membersHeight_swapErase (key : String) :
    Doc.membersHeight (members.swapErase key) ≤ Doc.membersHeight members :=
  membersHeight_le fun _ he => height_lt_of_mem (mem_of_mem_swapErase he)

theorem forall₂_last {α β : Type} {R : α → β → Prop} {xs : List α} {ys : List β}
    (h : List.Forall₂ R xs ys) :
    Option.Rel R xs.getLast? ys.getLast? ∧ List.Forall₂ R xs.dropLast ys.dropLast := by
  induction h with
  | nil => exact ⟨.none, .nil⟩
  | cons hr hrest ih =>
    cases hrest with
    | nil => exact ⟨.some hr, .nil⟩
    | cons _ _ => exact ⟨by simpa only [List.getLast?_cons_cons] using ih.1, .cons hr ih.2⟩

/-- A key is taken out of two objects that have it in the same places. -/
theorem forall₂_swapErase {R : String × Doc → String × Doc → Prop} (key : String)
    (hkey : ∀ e e', R e e' → (e.1 = key ↔ e'.1 = key)) (h : List.Forall₂ R members members') :
    List.Forall₂ R (members.swapErase key) (members'.swapErase key) := by
  induction h with
  | nil => exact .nil
  | @cons e e' rest rest' he hrest ih =>
    obtain ⟨k, v⟩ := e
    obtain ⟨k', v'⟩ := e'
    have hk : k = key ↔ k' = key := hkey _ _ he
    rw [Entries.swapErase, Entries.swapErase]
    simp only [← hk]
    split
    · obtain ⟨hlast, hinit⟩ := forall₂_last hrest
      generalize rest.getLast? = last at hlast
      generalize rest'.getLast? = last' at hlast
      cases hlast with
      | none => exact .nil
      | some hr => exact .cons hr hinit
    · exact .cons he ih

/-- An object of conditions from which a key is taken. -/
theorem Stands.erase {d d' : Nat} {keys : Keys}
    (h : Stands schema g d d' (.object keys) (.record members) (.record members'))
    (key : String) :
    Stands schema g d d' (.object keys) (.record (members.swapErase key))
      (.record (members'.swapErase key)) :=
  stands_of_members rfl (forall₂_swapErase key (fun _ _ he => by rw [he.1]) (h.byKey rfl))
    (Nat.le_trans (membersHeight_swapErase key) h.height)
    (Nat.le_trans (membersHeight_swapErase key) h.height')

end Erased

end Resolve

end GraphSelection
