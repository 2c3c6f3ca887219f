import GraphSelection.Document.Decode

/-!
Free data that is read out of a JSON document and written again. Reading merges repeated names, so
that each keeps its first place and has its last value, and changes nothing else. What was read has
no repeated names left: it is read again as it is.
-/
namespace GraphSelection

namespace Entries

variable {α β : Type}

theorem put_of_not_mem {es : Entries α} {key : String} (value : α) (h : key ∉ es.keys) :
    es.put key value = es ++ [(key, value)] := by
  induction es with
  | nil => rfl
  | cons e rest ih =>
    obtain ⟨k, v⟩ := e
    rw [keys, List.map_cons, List.mem_cons, not_or] at h
    rw [put, if_neg fun hk => h.1 hk.symm, ih h.2, List.cons_append]

theorem nodup_put {es : Entries α} (h : es.keys.Nodup) (key : String) (value : α) :
    (es.put key value).keys.Nodup := by
  by_cases hmem : key ∈ es.keys
  · rwa [keys_put_of_mem es key value hmem]
  · rw [keys_put_of_not_mem es key value hmem]
    exact List.nodup_append.mpr ⟨h, List.pairwise_singleton _ key, fun k hk l hl hkl =>
      hmem (by rwa [← List.mem_singleton.mp hl, ← hkl])⟩

theorem mem_put {es : Entries α} {key : String} {value : α} {e : String × α}
    (h : e ∈ es.put key value) : e ∈ es ∨ e = (key, value) := by
  induction es with
  | nil => exact .inr (List.mem_singleton.mp h)
  | cons first rest ih =>
    obtain ⟨k, v⟩ := first
    rw [put] at h
    split at h
    next hk =>
      rcases List.mem_cons.mp h with rfl | h
      · exact .inr (by rw [hk])
      · exact .inl (List.mem_cons_of_mem _ h)
    next =>
      rcases List.mem_cons.mp h with rfl | h
      · exact .inl List.mem_cons_self
      · exact (ih h).imp_left (List.mem_cons_of_mem _)

theorem map_put (f : α → β) (es : Entries α) (key : String) (value : α) :
    (es.put key value).map (Prod.map id f) = put (es.map (Prod.map id f)) key (f value) := by
  induction es with
  | nil => rfl
  | cons e rest ih =>
    obtain ⟨k, v⟩ := e
    rw [put, List.map_cons, Prod.map_apply, id_eq, put]
    split
    next => rfl
    next => rw [List.map_cons, ih, Prod.map_apply, id_eq]

/-- Merging onto what has been merged before. -/
def mergeOnto (acc es : Entries α) : Entries α := es.foldl (fun acc e => acc.put e.1 e.2) acc

theorem nodup_mergeOnto {acc : Entries α} (h : acc.keys.Nodup) (es : Entries α) :
    (mergeOnto acc es).keys.Nodup := by
  induction es generalizing acc with
  | nil => exact h
  | cons e rest ih => exact ih (nodup_put h e.1 e.2)

/-- Merging leaves no name twice. -/
theorem nodup_merge (es : Entries α) : es.merge.keys.Nodup :=
  @nodup_mergeOnto α [] List.nodup_nil es

theorem mem_mergeOnto {acc es : Entries α} {e : String × α} (h : e ∈ mergeOnto acc es) :
    e ∈ acc ∨ e ∈ es := by
  induction es generalizing acc with
  | nil => exact .inl h
  | cons first rest ih =>
    rcases ih h with hput | hrest
    · rcases mem_put hput with hacc | rfl
      · exact .inl hacc
      · exact .inr List.mem_cons_self
    · exact .inr (List.mem_cons_of_mem _ hrest)

theorem mem_of_mem_merge {es : Entries α} {e : String × α} (h : e ∈ es.merge) : e ∈ es :=
  (mem_mergeOnto h).resolve_left List.not_mem_nil

theorem mergeOnto_of_nodup {acc es : Entries α} (h : (acc ++ es).keys.Nodup) :
    mergeOnto acc es = acc ++ es := by
  induction es generalizing acc with
  | nil => exact (List.append_nil acc).symm
  | cons e rest ih =>
    have hnew : e.1 ∉ acc.keys := fun hmem => by
      rw [keys, List.map_append] at h
      exact (List.nodup_append.mp h).2.2 e.1 hmem e.1 List.mem_cons_self rfl
    have hput : acc.put e.1 e.2 = acc ++ [e] := put_of_not_mem e.2 hnew
    have hnodup : ((acc ++ [e]) ++ rest).keys.Nodup := by rwa [List.append_assoc]
    calc mergeOnto acc (e :: rest) = mergeOnto (acc.put e.1 e.2) rest := rfl
      _ = acc ++ e :: rest := by rw [hput, ih hnodup, List.append_assoc, List.singleton_append]

/-- Where no name is given twice, merging changes nothing. -/
theorem merge_of_nodup {es : Entries α} (h : es.keys.Nodup) : es.merge = es :=
  mergeOnto_of_nodup h

theorem map_mergeOnto (f : α → β) (acc es : Entries α) :
    (mergeOnto acc es).map (Prod.map id f) =
      mergeOnto (acc.map (Prod.map id f)) (es.map (Prod.map id f)) := by
  induction es generalizing acc with
  | nil => rfl
  | cons e rest ih =>
    calc (mergeOnto (acc.put e.1 e.2) rest).map (Prod.map id f)
        = mergeOnto ((acc.put e.1 e.2).map (Prod.map id f)) (rest.map (Prod.map id f)) := ih _
      _ = _ := by rw [map_put]; rfl

/-- It is the same to merge first and change the values afterwards. -/
theorem map_merge (f : α → β) (es : Entries α) :
    es.merge.map (Prod.map id f) = merge (es.map (Prod.map id f)) :=
  map_mergeOnto f [] es

end Entries

namespace Doc

mutual
/-- A JSON document: every scalar has its kind. -/
def IsJson : Doc → Prop
  | .plain _ => False
  | .list items => ItemsJson items
  | .record members => MembersJson members
  | _ => True
def ItemsJson : List Doc → Prop
  | [] => True
  | item :: rest => item.IsJson ∧ ItemsJson rest
def MembersJson : List (String × Doc) → Prop
  | [] => True
  | (_, value) :: rest => value.IsJson ∧ MembersJson rest
end

mutual
/-- The document with the repeated names of each of its records merged. -/
def tidy : Doc → Doc
  | .list items => .list (tidyItems items)
  | .record members => .record (Entries.merge (tidyMembers members))
  | doc => doc
def tidyItems : List Doc → List Doc
  | [] => []
  | item :: rest => item.tidy :: tidyItems rest
def tidyMembers : List (String × Doc) → List (String × Doc)
  | [] => []
  | (key, value) :: rest => (key, value.tidy) :: tidyMembers rest
end

mutual
/-- No record of the document gives a name twice. -/
def IsTidy : Doc → Prop
  | .list items => ItemsTidy items
  | .record members => (Entries.keys members).Nodup ∧ MembersTidy members
  | _ => True
def ItemsTidy : List Doc → Prop
  | [] => True
  | item :: rest => item.IsTidy ∧ ItemsTidy rest
def MembersTidy : List (String × Doc) → Prop
  | [] => True
  | (_, value) :: rest => value.IsTidy ∧ MembersTidy rest
end

theorem membersJson_iff {members : Members} :
    MembersJson members ↔ ∀ m ∈ members, m.2.IsJson := by
  induction members with
  | nil => exact iff_of_true trivial (List.forall_mem_nil _)
  | cons m rest ih => rw [List.forall_mem_cons, MembersJson, ih]

theorem itemsJson_iff {items : List Doc} : ItemsJson items ↔ ∀ item ∈ items, item.IsJson := by
  induction items with
  | nil => exact iff_of_true trivial (List.forall_mem_nil _)
  | cons item rest ih => rw [List.forall_mem_cons, ItemsJson, ih]

theorem membersTidy_iff {members : Members} :
    MembersTidy members ↔ ∀ m ∈ members, m.2.IsTidy := by
  induction members with
  | nil => exact iff_of_true trivial (List.forall_mem_nil _)
  | cons m rest ih => rw [List.forall_mem_cons, MembersTidy, ih]

mutual
/-- A document without repeated names is tidy already, so the order of its names is kept. -/
theorem tidy_eq_self : ∀ {doc : Doc}, doc.IsTidy → doc.tidy = doc
  | .null, _ | .bool _, _ | .int _, _ | .float _, _ | .text _, _ | .plain _, _ => rfl
  | .list items, h => by rw [tidy, tidyItems_eq_self h]
  | .record members, ⟨hnodup, h⟩ => by
    rw [tidy, tidyMembers_eq_self h, Entries.merge_of_nodup hnodup]
theorem tidyItems_eq_self : ∀ {items : List Doc}, ItemsTidy items → tidyItems items = items
  | [], _ => rfl
  | _ :: _, ⟨hitem, hrest⟩ => by rw [tidyItems, tidy_eq_self hitem, tidyItems_eq_self hrest]
theorem tidyMembers_eq_self :
    ∀ {members : Members}, MembersTidy members → tidyMembers members = members
  | [], _ => rfl
  | (_, _) :: _, ⟨hvalue, hrest⟩ => by
    rw [tidyMembers, tidy_eq_self hvalue, tidyMembers_eq_self hrest]
end

theorem membersTidy_merge {members : Members} (h : MembersTidy members) :
    MembersTidy (Entries.merge members) :=
  membersTidy_iff.mpr fun m hm => membersTidy_iff.mp h m (Entries.mem_of_mem_merge hm)

mutual
theorem isTidy_tidy : ∀ doc : Doc, doc.tidy.IsTidy
  | .null | .bool _ | .int _ | .float _ | .text _ | .plain _ => trivial
  | .list items => itemsTidy_tidyItems items
  | .record members =>
    ⟨Entries.nodup_merge _, membersTidy_merge (membersTidy_tidyMembers members)⟩
theorem itemsTidy_tidyItems : ∀ items : List Doc, ItemsTidy (tidyItems items)
  | [] => trivial
  | item :: rest => ⟨isTidy_tidy item, itemsTidy_tidyItems rest⟩
theorem membersTidy_tidyMembers : ∀ members : Members, MembersTidy (tidyMembers members)
  | [] => trivial
  | (_, value) :: rest => ⟨isTidy_tidy value, membersTidy_tidyMembers rest⟩
end

theorem membersJson_merge {members : Members} (h : MembersJson members) :
    MembersJson (Entries.merge members) :=
  membersJson_iff.mpr fun m hm => membersJson_iff.mp h m (Entries.mem_of_mem_merge hm)

mutual
theorem isJson_tidy : ∀ {doc : Doc}, doc.IsJson → doc.tidy.IsJson
  | .null, _ | .bool _, _ | .int _, _ | .float _, _ | .text _, _ => trivial
  | .list _, h => itemsJson_tidyItems h
  | .record _, h => membersJson_merge (membersJson_tidyMembers h)
theorem itemsJson_tidyItems : ∀ {items : List Doc}, ItemsJson items → ItemsJson (tidyItems items)
  | [], _ => trivial
  | _ :: _, ⟨hitem, hrest⟩ => ⟨isJson_tidy hitem, itemsJson_tidyItems hrest⟩
theorem membersJson_tidyMembers :
    ∀ {members : Members}, MembersJson members → MembersJson (tidyMembers members)
  | [], _ => trivial
  | (_, _) :: _, ⟨hvalue, hrest⟩ => ⟨isJson_tidy hvalue, membersJson_tidyMembers hrest⟩
end

mutual
/-- Reading free data out of a JSON document merges repeated names. -/
theorem settle_json : ∀ {doc : Doc}, doc.IsJson → settle .json doc = some doc.tidy
  | .null, _ | .bool _, _ | .int _, _ | .float _, _ | .text _, _ => rfl
  | .list items, h => by
    rw [settle, Format.inner?, Option.bind_some, settleItems_json h, tidy]
    rfl
  | .record members, h => by
    rw [settle, Format.inner?, Option.bind_some, settleMembers_json h, tidy]
    rfl
theorem settleItems_json :
    ∀ {items : List Doc}, ItemsJson items → settleItems .json items = some (tidyItems items)
  | [], _ => rfl
  | _ :: _, ⟨hitem, hrest⟩ => by
    rw [settleItems, settle_json hitem, settleItems_json hrest, tidyItems]
theorem settleMembers_json :
    ∀ {members : Members}, MembersJson members →
      settleMembers .json members = some (tidyMembers members)
  | [], _ => rfl
  | (_, _) :: _, ⟨hvalue, hrest⟩ => by
    rw [settleMembers, settle_json hvalue, settleMembers_json hrest, tidyMembers]
end

/-- The value of a record's name, or of a list's place, when the names are expected in this order.
JSON may give the fields of a record either way. -/
def given (names : List String) : Doc → Members
  | .record members => members
  | .list items => names.zip items
  | _ => []

theorem isJson_of_given {names : List String} {doc value : Doc} {name : String}
    (hdoc : doc.IsJson) (h : (doc.given names).get? name = some value) : value.IsJson := by
  have hmem := Entries.mem_of_get? h
  cases doc with
  | record members => exact membersJson_iff.mp hdoc _ hmem
  | list items => exact itemsJson_iff.mp hdoc _ (List.of_mem_zip hmem).2
  | _ => cases hmem

theorem sizeOf_given {names : List String} {doc value : Doc} {name : String}
    (h : (doc.given names).get? name = some value) : sizeOf value < sizeOf doc := by
  have hmem := Entries.mem_of_get? h
  cases doc with
  | record members =>
    have hmember : sizeOf (name, value) < sizeOf members := List.sizeOf_lt_of_mem hmem
    simp only [Prod.mk.sizeOf_spec] at hmember
    simp only [record.sizeOf_spec]
    omega
  | list items =>
    have hitem := List.sizeOf_lt_of_mem (List.of_mem_zip hmem).2
    simp only [list.sizeOf_spec]
    omega
  | _ => cases hmem

end Doc

end GraphSelection
