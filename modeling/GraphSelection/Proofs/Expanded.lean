import GraphSelection.Proofs.Accepted
import GraphSelection.Proofs.MergedColumns
import GraphSelection.Proofs.Paged.Requests
import Mathlib.Data.List.Forall2

/-!
Composites as they are expanded. A composite read has one branch for each constituent that its
`where` argument keeps, in the order of their declaration, and each branch is what the request asks
of its constituent: its own filter, the fields under their response keys, and the sort keys by its
own attributes. All branches return the same columns.
-/
namespace GraphSelection.Entries

variable {α : Type}

/-- The entry of the name is taken out, and the last entry moves into the place that it leaves. -/
inductive Removed (key : String) : Entries α → Entries α → Prop
  | absent {es : Entries α} (h : key ∉ es.keys) : Removed key es es
  | last (before : Entries α) {value : α} (h : key ∉ before.keys) :
      Removed key (before ++ [(key, value)]) before
  | moved (before : Entries α) {between : Entries α} {value : α} {last : String × α}
      (h : key ∉ before.keys) :
      Removed key (before ++ (key, value) :: between ++ [last]) (before ++ last :: between)

theorem Removed.cons {key : String} {es rest : Entries α} (h : Removed key es rest) (e : String × α)
    (he : e.1 ≠ key) : Removed key (e :: es) (e :: rest) := by
  have hkeys : ∀ before : Entries α, key ∉ before.keys → key ∉ Entries.keys (e :: before) := by
    intro before hbefore hmem
    rcases List.mem_cons.mp hmem with heq | hmem
    · exact he heq.symm
    · exact hbefore hmem
  cases h with
  | absent h => exact .absent (hkeys es h)
  | last _ h => exact .last (e :: rest) (hkeys rest h)
  | moved before h => exact .moved (e :: before) (hkeys before h)

theorem removed_swapErase (key : String) (es : Entries α) : Removed key es (es.swapErase key) := by
  induction es with
  | nil => exact .absent List.not_mem_nil
  | cons e rest ih =>
    obtain ⟨k, v⟩ := e
    unfold swapErase
    by_cases hk : k = key
    · subst hk
      rw [if_pos rfl]
      rcases List.eq_nil_or_concat rest with rfl | ⟨between, last, rfl⟩
      · exact .last [] List.not_mem_nil
      · simp only [List.concat_eq_append, List.getLast?_append, List.getLast?_singleton,
          Option.some_or, List.dropLast_concat]
        exact .moved [] List.not_mem_nil
    · rw [if_neg hk]
      exact ih.cons (k, v) hk

end GraphSelection.Entries

namespace GraphSelection.Resolve

open GraphSelection Plan

/-- The members of a record. -/
def recordOf : Doc → Option Doc.Members
  | .record members => some members
  | _ => none

/-- The names in a text or in a list of texts. -/
def namesIn : Doc → List String
  | .text name => [name]
  | .list items => items.filterMap Doc.asText?
  | _ => []

/-- A type is named where the `where` argument has names at all. -/
def isNamed (members : Doc.Members) (name : String) : Bool :=
  [members.get? "typename", members.get? "typename_IN"].all fun value =>
    value.all fun names => (namesIn names).contains name

/-- The constituents that a `where` argument keeps, each with what is asked of it: all of them
without an argument, of a union those that the argument has a member for, of an interface those that
it names, with the rest of the argument. -/
inductive KeepsOf (c : Composite) (entities : List Entity) :
    Option Doc.Members → List Kept → Prop
  | whole {asked : Option Doc.Members} (h : asked.all List.isEmpty = true) :
      KeepsOf c entities asked (entities.map fun e => (e, none))
  | members {members : Doc.Members} (hne : members ≠ []) (hunion : c.isUnion = true)
      (hkeys : ∀ key ∈ members.keys, c.hasConstituent key = true)
      (hown : ∀ e ∈ entities, ∀ value, members.get? e.name = some value →
        value = .null ∨ ∃ own, value = .record own) :
      KeepsOf c entities (some members)
        (entities.filterMap fun e => (members.get? e.name).map fun value => (e, recordOf value))
  | named {members once rest : Doc.Members} (hne : members ≠ []) (hinterface : c.isUnion = false)
      (honce : members.get? "typename" = none ∨ members.get? "typename_IN" = none)
      (hfirst : Entries.Removed "typename" members once)
      (hsecond : Entries.Removed "typename_IN" once rest) :
      KeepsOf c entities (some members)
        ((entities.filter fun e => isNamed members e.name).map fun e =>
          (e, if rest.isEmpty then none else some rest))

namespace Asked

/-- The entries by which the request sorts, in order. -/
def sortEntries (q : Asked) : List (String × Doc) :=
  match (q.argument "sort").or (q.option "sort") with
  | none => []
  | some (.list items) => items.flatMap fun item => (recordOf item).getD []
  | some value => (recordOf value).getD []

/-- The response keys of a branch: of the common selection and the fragment of its type, each once,
and the name of the type. -/
def branchKeys (q : Asked) (e : Entity) : List String :=
  let keys := ((q.selection ++ (q.on.get? e.name).getD []).map Selection.key).eraseDups
  if "__typename" ∈ keys then keys else keys ++ ["__typename"]

end Asked

/-- The key sorts by the attribute of the name that the entry gives, in its direction. -/
def SortsAs (find : String → Option Attribute) (entry : String × Doc) (key : SortKey) : Prop :=
  ∃ a, find entry.1 = some a ∧ key.target = SortTarget.ofAttribute a ∧
    entry.2.asText? = some (if key.descending then "DESC" else "ASC")

/-- The branch is what the request asks of the constituent. -/
structure BranchFor (s : Setup) (q : Asked) (path : String) (kept : Kept) (b : Read Field) :
    Prop where
  entity : b.scope.entity = kept.1
  filter : ∃ asked rules, s.whereCondition kept.1 kept.2 path = .ok asked ∧
    guardFilter s kept.1 (Field.attributes b.fields) .read = .ok rules ∧
    b.scope.filter = Condition.allOf (asked.toList ++ rules.toList)
  keys : b.fields.map Field.key = q.branchKeys kept.1
  sort : List.Forall₂ (SortsAs kept.1.attribute?) q.sortEntries b.sort

/-- There is a branch for each constituent that is kept, and no other. -/
def Expands (s : Setup) (q : Asked) (c : CompositeRead Field) : Prop :=
  ∃ path entities kept, s.schema.constituents c.composite = .ok entities ∧
    entities.map Entity.name = c.composite.constituents ∧
    KeepsOf c.composite entities ((q.argument "where").bind recordOf) kept ∧
    List.Forall₂ (BranchFor s q path) kept c.branches

/-- The results of a list of steps are those of the steps, one by one. -/
theorem forall₂_of_mapM_ok {ε α β : Type} {f : α → Except ε β} {xs : List α} {ys : List β}
    (h : xs.mapM f = .ok ys) : List.Forall₂ (fun x y => f x = .ok y) xs ys := by
  induction xs generalizing ys with
  | nil =>
    simp only [List.mapM_nil, except_pure_ok] at h
    subst h
    exact .nil
  | cons x rest ih =>
    simp only [List.mapM_cons, except_bind_ok, except_pure_ok] at h
    obtain ⟨y, hy, ys', hrest, rfl⟩ := h
    exact .cons hy (ih hrest)

section Narrowing

variable {c : Composite} {entities : List Entity} {members : Doc.Members} {path : String}

theorem keptMember_ok {e : Entity} {kept : List Kept} (h : keptMember members path e = .ok kept) :
    kept = ((members.get? e.name).map fun value => (e, recordOf value)).toList ∧
      ∀ value, members.get? e.name = some value → value = .null ∨ ∃ own, value = .record own := by
  unfold keptMember at h
  split at h
  next hnone =>
    cases h
    simp [hnone]
  next hnull =>
    cases h
    simp [hnull, recordOf]
  next value _ hvalue =>
    simp only [except_bind_ok, except_pure_ok] at h
    obtain ⟨own, hown, rfl⟩ := h
    unfold asRecord at hown
    split at hown
    · cases hown
      simp [hvalue, recordOf]
    · cases hown

theorem narrowUnion_keeps {kept : List Kept} (hne : members ≠ []) (hunion : c.isUnion = true)
    (h : narrowUnion c entities members path = .ok kept) :
    KeepsOf c entities (some members) kept := by
  unfold narrowUnion at h
  split at h
  · cases h
  · rename_i hknown
    simp only [except_bind_ok, except_pure_ok] at h
    obtain ⟨found, hfound, rfl⟩ := h
    have hall : found.flatten = entities.filterMap fun e =>
        (members.get? e.name).map fun value => (e, recordOf value) := by
      clear hknown
      induction entities generalizing found with
      | nil =>
        simp only [List.mapM_nil, except_pure_ok] at hfound
        subst hfound
        rfl
      | cons e rest ih =>
        simp only [List.mapM_cons, except_bind_ok, except_pure_ok] at hfound
        obtain ⟨own, hown, more, hmore, rfl⟩ := hfound
        rw [List.flatten_cons, (keptMember_ok hown).1, ih more hmore, List.filterMap_cons]
        cases (members.get? e.name).map fun value => (e, recordOf value) <;> rfl
    rw [hall]
    refine .members hne hunion ?_ ?_
    · intro key hkey
      obtain ⟨entry, hentry, rfl⟩ := List.mem_map.mp hkey
      simpa using List.find?_eq_none.mp hknown entry hentry
    · intro e he
      obtain ⟨own, _, hown⟩ := ok_of_mapM_ok hfound e he
      exact (keptMember_ok hown).2

theorem texts_of_typeNames {items : List Doc} {names : List String}
    (h : items.mapM (typeName path) = .ok names) : names = items.filterMap Doc.asText? := by
  induction items generalizing names with
  | nil =>
    simp only [List.mapM_nil, except_pure_ok] at h
    exact h.symm
  | cons item rest ih =>
    simp only [List.mapM_cons, except_bind_ok, except_pure_ok] at h
    obtain ⟨name, hname, more, hmore, rfl⟩ := h
    unfold typeName at hname
    split at hname
    · cases hname
      rw [List.filterMap_cons, ih hmore]
      rfl
    · cases hname

theorem typeNames_ok {value : Doc} {names : List String}
    (h : typeNames c value path = .ok names) : names = namesIn value := by
  simp only [typeNames, except_bind_ok] at h
  obtain ⟨found, hfound, h⟩ := h
  split at h
  · cases h
  · simp only [except_pure_ok] at h
    subst h
    split at hfound
    · cases hfound
      rfl
    · exact texts_of_typeNames hfound
    · cases hfound

theorem allowedNames_ok {allowed : Option (List String)}
    (h : allowedNames c members path = .ok allowed) :
    (members.get? "typename" = none ∨ members.get? "typename_IN" = none) ∧
      ∀ name, (allowed.all fun names => names.contains name) = isNamed members name := by
  unfold allowedNames at h
  split at h
  · cases h
  next value hvalue hnone =>
    obtain ⟨names, hnames, rfl⟩ := (except_map_ok ..).mp h
    refine ⟨.inr hnone, fun name => ?_⟩
    simp [isNamed, hvalue, hnone, typeNames_ok hnames]
  next value hnone hvalue =>
    obtain ⟨names, hnames, rfl⟩ := (except_map_ok ..).mp h
    refine ⟨.inl hnone, fun name => ?_⟩
    simp [isNamed, hvalue, hnone, typeNames_ok hnames]
  next hnone hnone' =>
    cases h
    refine ⟨.inl hnone, fun name => ?_⟩
    simp [isNamed, hnone, hnone']

theorem narrowInterface_keeps {kept : List Kept} (hne : members ≠ [])
    (hinterface : c.isUnion = false) (h : narrowInterface c entities members path = .ok kept) :
    KeepsOf c entities (some members) kept := by
  simp only [narrowInterface, except_bind_ok, except_pure_ok] at h
  obtain ⟨allowed, hallowed, rfl⟩ := h
  obtain ⟨honce, hnamed⟩ := allowedNames_ok hallowed
  simp only [hnamed]
  exact .named hne hinterface honce (Entries.removed_swapErase _ _)
    (Entries.removed_swapErase _ _)

theorem narrow_keeps {schema : Schema} {asked : Option Doc.Members} {kept : List Kept}
    (h : narrow schema c asked path = .ok kept) :
    ∃ entities, schema.constituents c = .ok entities ∧ KeepsOf c entities asked kept := by
  simp only [narrow, except_bind_ok] at h
  obtain ⟨entities, hentities, h⟩ := h
  refine ⟨entities, ofSchema_ok hentities, ?_⟩
  split at h
  · simp only [except_pure_ok] at h
    subst h
    exact .whole rfl
  · split at h
    · rename_i members hempty
      simp only [except_pure_ok] at h
      subst h
      exact .whole hempty
    · rename_i members hne
      have hne : members ≠ [] := by simpa using hne
      split at h
      · rename_i hunion
        exact narrowUnion_keeps hne hunion h
      · rename_i hinterface
        exact narrowInterface_keeps hne (by simpa using hinterface) h

end Narrowing

section Keys

theorem field_key {s : Setup} {below : FieldReader} {e : Entity} {path : String} {f : Selection}
    {found : Field} (h : s.field below e path f = .ok found) : found.key = f.key := by
  unfold Setup.field at h
  split at h
  · cases h
    rfl
  · split at h
    · cases h
      split <;> rfl
    · unfold Setup.relationshipField at h
      simp only at h
      split at h
      · simp only [except_bind_ok, except_pure_ok] at h
        obtain ⟨_, _, _, _, rfl⟩ := h
        rfl
      · split at h
        · simp only [except_bind_ok, except_pure_ok] at h
          obtain ⟨_, _, _, _, rfl⟩ := h
          rfl
        · split at h
          · simp only [except_bind_ok, except_pure_ok] at h
            obtain ⟨_, _, rfl⟩ := h
            rfl
          · simp only [except_throw_ok] at h

theorem keys_of_forall₂ {φ : Type} {key : φ → String} {reads : Selection → φ → Prop}
    (hkey : ∀ f found, reads f found → key found = f.key) {selection : List Selection}
    {fields : List φ} (h : List.Forall₂ reads selection fields) :
    fields.map key = selection.map Selection.key := by
  induction h with
  | nil => rfl
  | cons hread _ ih => rw [List.map_cons, List.map_cons, ih, hkey _ _ hread]

/-- A reader that sees all that is selected reads one field for each selection. -/
theorem fieldsAt_fields {s : Setup} {depth : Nat} {e : Entity} {path : String}
    {selection : List Selection} {fields : List Field}
    (hheight : Selection.listHeight selection ≤ depth)
    (h : s.fieldsAt depth e selection path = .ok fields) :
    List.Forall₂ (fun f found => s.field (s.fieldsAt (depth - 1)) e path f = .ok found)
      selection fields := by
  cases depth with
  | zero =>
    cases h
    cases selection with
    | nil => exact .nil
    | cons f rest =>
      have hlow : f.height ≤ 0 := Selection.listHeight_le_iff.mp hheight f List.mem_cons_self
      rw [f.height_eq] at hlow
      omega
  | succ depth => exact forall₂_of_mapM_ok h

theorem keys_withTypename (e : Entity) (fields : List Field) :
    (withTypename e fields).map Field.key =
      if "__typename" ∈ fields.map Field.key then fields.map Field.key
      else fields.map Field.key ++ ["__typename"] := by
  have hany : fields.any (·.key == "__typename") = true ↔ "__typename" ∈ fields.map Field.key := by
    simp
  unfold withTypename
  by_cases hshown : "__typename" ∈ fields.map Field.key
  · rw [if_pos (hany.mpr hshown), if_pos hshown]
  · rw [if_neg (mt hany.mp hshown), if_neg hshown, List.map_append]
    rfl

end Keys

section Sorting

theorem direction_ok {value : Doc} {path : String} {isDescending : Bool}
    (h : descending value path = .ok isDescending) :
    value.asText? = some (if isDescending then "DESC" else "ASC") := by
  unfold descending at h
  split at h
  · cases h
    assumption
  · cases h
    assumption
  · cases h

theorem nodeSort_sortsAs {attributes : Entries Attribute} {members : Doc.Members} {path : String}
    {keys : List SortKey} (h : nodeSort attributes members path = .ok keys) :
    List.Forall₂ (SortsAs attributes.get?) members keys := by
  refine (forall₂_of_mapM_ok h).imp ?_
  rintro ⟨name, direction⟩ key hkey
  simp only at hkey
  split at hkey
  · simp only [except_throw_ok] at hkey
  · rename_i a hfound
    simp only [except_bind_ok, except_pure_ok] at hkey
    obtain ⟨isDescending, hdirection, rfl⟩ := hkey
    exact ⟨a, hfound, rfl, direction_ok hdirection⟩

/-- The entries of a list of records, one list after the other. -/
theorem forall₂_flatten {α β γ : Type} {R : β → γ → Prop} {f : α → List β} {xs : List α}
    {ys : List (List γ)} (h : List.Forall₂ (fun x y => List.Forall₂ R (f x) y) xs ys) :
    List.Forall₂ R (xs.flatMap f) ys.flatten := by
  induction h with
  | nil => exact .nil
  | cons hfirst _ ih =>
    rw [List.flatMap_cons, List.flatten_cons]
    exact List.rel_append hfirst ih

theorem listArrangement_sorts {s : Setup} {q : Asked} {attributes : Entries Attribute}
    {policy : Option PagePolicy} {isList : Bool} {path : String} {arrangement : Arrangement}
    (h : listArrangement s attributes q.args policy isList path = .ok arrangement) :
    List.Forall₂ (SortsAs attributes.get?) q.sortEntries arrangement.sort := by
  simp only [listArrangement, except_bind_ok, except_pure_ok] at h
  obtain ⟨options, hoptions, sort, ⟨picked, hpicked, hsort⟩, _, _, _, _, rfl⟩ := h
  have hvalue := Setup.pick_ok hoptions hpicked
  unfold Asked.sortEntries
  rw [← hvalue]
  cases picked with
  | none =>
    simp only [except_pure_ok] at hsort
    subst hsort
    exact .nil
  | some found =>
    obtain ⟨value, here⟩ := found
    simp only [except_bind_ok, except_pure_ok] at hsort
    obtain ⟨keys, hkeys, rfl⟩ := hsort
    have hitems : ∀ items : List Doc, (indexed items).mapM (fun entry => do
          let there := itemPath here entry.1
          let members ← asRecord entry.2 there
          nodeSort attributes members there) = .ok keys →
        List.Forall₂ (SortsAs attributes.get?)
          (items.flatMap fun item => (recordOf item).getD []) keys.flatten := by
      intro items hitems
      apply forall₂_flatten
      have hmap : (indexed items).map Prod.snd = items := by simp [indexed, List.map_snd_zip]
      rw [← hmap, List.forall₂_map_left_iff]
      refine (forall₂_of_mapM_ok hitems).imp ?_
      rintro ⟨index, item⟩ sorted hsorted
      simp only [except_bind_ok] at hsorted
      obtain ⟨members, hmembers, hsorted⟩ := hsorted
      unfold asRecord at hmembers
      split at hmembers
      · cases hmembers
        exact nodeSort_sortsAs hsorted
      · cases hmembers
    split at hkeys
    · rename_i items
      exact hitems items hkeys
    · rename_i hsingle
      split
      next hnone => cases hnone
      next items hlist =>
        cases hlist
        exact absurd rfl (hsingle items)
      next hfound =>
        cases hfound
        simpa using hitems [value] hkeys

end Sorting

section Branches

variable {s : Setup} {e : Entity} {via : Option Via} {q : Asked} {path : String}

theorem recordArg_ok {name : String} {members : Option Doc.Members}
    (h : recordArg q.args name path = .ok members) : members = (q.argument name).bind recordOf := by
  unfold recordArg at h
  unfold Asked.argument
  split at h
  next hnone =>
    cases h
    simp [hnone, nonNull?]
  next hnull =>
    cases h
    rw [hnull]
    rfl
  next members hrecord =>
    cases h
    rw [hrecord]
    rfl
  next => cases h

/-- Where attributes are found under their names, a constituent sorts by its own attribute of the
name that the request gives. -/
theorem forMember_sortsAs {find : String → Option Attribute}
    (hfind : ∀ name a, find name = some a → a.name = name) {entry : String × Doc}
    {key key' : SortKey} (hkey : SortsAs find entry key) (h : key.forMember e = .ok key') :
    SortsAs e.attribute? entry key' := by
  obtain ⟨a, hfound, htarget, hdirection⟩ := hkey
  have hname : key.target.attr.name = entry.1 := by
    rw [htarget, ← hfind _ _ hfound]
    unfold SortTarget.ofAttribute
    split <;> rfl
  unfold SortKey.forMember at h
  split at h
  · rename_i edge hedge
    rw [htarget] at hedge
    unfold SortTarget.ofAttribute at hedge
    split at hedge <;> cases hedge
  · split at h
    · rename_i own hown
      cases h
      exact ⟨own, hname ▸ hown, rfl, hdirection⟩
    · cases h

theorem forMembers_sortsAs {find : String → Option Attribute}
    (hfind : ∀ name a, find name = some a → a.name = name) {entries : List (String × Doc)}
    {sort own : List SortKey} (hsort : List.Forall₂ (SortsAs find) entries sort)
    (h : sort.mapM (·.forMember e) = .ok own) :
    List.Forall₂ (SortsAs e.attribute?) entries own := by
  induction hsort generalizing own with
  | nil =>
    simp only [List.mapM_nil, except_pure_ok] at h
    subst h
    exact .nil
  | cons hkey _ ih =>
    simp only [List.mapM_cons, except_bind_ok, except_pure_ok] at h
    obtain ⟨first, hfirst, more, hmore, rfl⟩ := h
    exact .cons (forMember_sortsAs hfind hkey hfirst) (ih hmore)

/-- The fields of a branch stand under the keys that are selected for its type. -/
theorem branchKeys_eq {depth : Nat} {fields : List Field} (hdepth : q.height ≤ depth)
    (h : s.fieldsAt depth e (q.fieldsFor e) path = .ok fields) :
    (withTypename e fields).map Field.key = q.branchKeys e := by
  have hheight : Selection.listHeight (q.fieldsFor e) ≤ depth :=
    Selection.listHeight_le_iff.mpr fun f hf => Nat.le_trans (height_of_mem_effective hf) hdepth
  have hkeys : fields.map Field.key = (q.fieldsFor e).map Selection.key :=
    keys_of_forall₂ (fun _ _ hfield => field_key hfield) (fieldsAt_fields hheight h)
  rw [keys_withTypename, hkeys, Asked.fieldsFor, effective]
  exact congrArg (fun keys => if "__typename" ∈ keys then keys else keys ++ ["__typename"])
    (keys_firstOf Selection.key _)

theorem branch_for {find : String → Option Attribute}
    (hfind : ∀ name a, find name = some a → a.name = name) {rest : Option Doc.Members}
    {fields : List Field} {sort : List SortKey} {b : Read Field}
    (hkeys : (withTypename e fields).map Field.key = q.branchKeys e)
    (hsort : List.Forall₂ (SortsAs find) q.sortEntries sort)
    (h : s.branch e via rest fields sort path = .ok b) : BranchFor s q path (e, rest) b := by
  simp only [Setup.branch, Setup.readScope, guardedScope, except_bind_ok, except_pure_ok] at h
  obtain ⟨own, hown, asked, hasked, _, ⟨rules, hrules, _, _, rfl⟩, rfl⟩ := h
  exact ⟨rfl, ⟨asked, rules, hasked, hrules, rfl⟩, hkeys, forMembers_sortsAs hfind hsort hown⟩

end Branches

/-- The attributes that a composite shares are found under their own names. -/
theorem sharedAttributes_name {d : Definition} {schema : Schema} (hd : d.build = .ok schema)
    {name : String} {c : Composite} (hc : schema.target name = .ok (.composite c))
    (key : String) (a : Attribute) (ha : c.sharedAttributes.get? key = some a) : a.name = key := by
  obtain ⟨_, rfl⟩ := Definition.build_ok.mp hd
  unfold Schema.target at hc
  split at hc
  · cases hc
  · split at hc
    next composite hfound =>
      cases hc
      simp only [Definition.model, Entries.get?_append, Entries.get?_mapValues,
        Option.or_eq_some_iff, Option.map_eq_some_iff] at hfound
      obtain ⟨i, _, rfl⟩ | ⟨_, members, _, rfl⟩ := hfound
      · simp only [Definition.buildInterface, Entries.get?_mapValues, Option.map_eq_some_iff] at ha
        obtain ⟨own, _, rfl⟩ := ha
        simp only [Definition.buildAttribute]
      · cases ha
    next => cases hc

theorem constituents_names {d : Definition} {schema : Schema} (hd : d.build = .ok schema)
    {c : Composite} {entities : List Entity} (h : schema.constituents c = .ok entities) :
    entities.map Entity.name = c.constituents := by
  obtain ⟨_, rfl⟩ := Definition.build_ok.mp hd
  have hfound := forall₂_of_mapM_ok h
  clear h
  generalize c.constituents = names at hfound
  induction hfound with
  | nil => rfl
  | cons hentity _ ih =>
    rw [List.map_cons, ih, Definition.entity_model_name hentity]

/-- Only a composite is read as one. -/
theorem compositeRead_of_lookup {s : Setup} {below : FieldReader} {target : Target}
    {via : Option Via} {q : Asked} {path : String} {c : CompositeRead Field}
    (h : s.readOf below target via q path = .ok (.composite c) ∨
      s.connectionOf below target via q path = .ok (.composite c)) :
    ∃ composite, target = .composite composite ∧
      s.compositeRead below composite via q path = .ok c := by
  cases target with
  | entity e =>
    rcases h with h | h
    · obtain ⟨_, _, heq⟩ := (except_map_ok ..).mp h
      cases heq
    · obtain ⟨_, _, heq⟩ := (except_map_ok ..).mp h
      cases heq
  | composite composite =>
    rcases h with h | h
    · obtain ⟨_, hread, heq⟩ := (except_map_ok ..).mp h
      cases heq
      exact ⟨composite, rfl, hread⟩
    · obtain ⟨_, _, heq⟩ := (except_map_ok ..).mp h
      cases heq

theorem compositeRead_expands {d : Definition} {s : Setup} (hd : d.build = .ok s.schema)
    {name : String} {composite : Composite}
    (hcomposite : s.schema.target name = .ok (.composite composite)) {depth : Nat}
    {via : Option Via} {q : Asked} {path : String} {c : CompositeRead Field}
    (hdepth : q.height ≤ depth)
    (h : s.compositeRead (s.fieldsAt depth) composite via q path = .ok c) :
    Expands s q c ∧ c.sort.length = q.sortEntries.length := by
  simp only [Setup.compositeRead, except_bind_ok, except_pure_ok] at h
  obtain ⟨members, hmembers, kept, hkept, arrangement, harrangement, branches, hbranches, rfl⟩ := h
  obtain ⟨entities, hentities, hkeeps⟩ := narrow_keeps hkept
  have hsort := listArrangement_sorts harrangement
  have hfind := sharedAttributes_name hd hcomposite
  refine ⟨⟨path, entities, kept, hentities, constituents_names hd hentities,
    recordArg_ok hmembers ▸ hkeeps, ?_⟩, hsort.length_eq.symm⟩
  refine (forall₂_of_mapM_ok hbranches).imp ?_
  rintro ⟨e, rest⟩ b hmade
  simp only [except_bind_ok] at hmade
  obtain ⟨fields, hfields, hbranch⟩ := hmade
  exact branch_for hfind (branchKeys_eq hdepth hfields) hsort hbranch

/-- Composites are expanded exactly, at every depth of a plan. A composite read is read for an entry
of the request, and has a branch for each constituent that the entry keeps: with the filter, the
response keys and the sort keys that the entry asks of that constituent. In the program each branch
returns the column of the result and one column for each sort entry. -/
theorem composites_expanded (d : Definition) (s : Setup) (hd : d.build = .ok s.schema)
    (r : Request) (o : Operation) (ho : s.plan r = .ok o) (c : CompositeRead Field)
    (hc : .lookup (.composite c) ∈ o.parts) :
    ∃ q, Asks r q ∧ s.ReadFor q (.lookup (.composite c)) ∧ Expands s q c ∧
      ∀ p, compile s r = .ok p → ∃ union after bodies column columns,
        Program.Holds (union :: after) p.clauses ∧
        Program.unionCall c.composite.name bodies column = .ok union ∧
        bodies.length = c.branches.length ∧
        (∀ body ∈ bodies, Program.branchColumns body = column :: columns) ∧
        columns.length = q.sortEntries.length ∧ (column :: columns).Nodup := by
  obtain ⟨q, hasks, hread⟩ := Setup.operation_reads (Scoping.plan_ok ho) hc trivial
  have ⟨depth, target, via, path, hdepth, ⟨name, htarget⟩, hlookup⟩ := hread
  obtain ⟨composite, rfl, hcomposite⟩ := compositeRead_of_lookup hlookup
  obtain ⟨hexpands, hlength⟩ := compositeRead_expands hd htarget hdepth hcomposite
  refine ⟨q, hasks, hread, hexpands, fun p hp => ?_⟩
  obtain ⟨union, after, column, columns, hholds, hmerges⟩ :=
    composite_merges (fun _ => []) hp ho hc
  obtain ⟨bodies, hunion, hbodies, hcolumns⟩ := hmerges.emitted
  exact ⟨union, after, bodies, column, columns, hholds, hunion, hbodies, hcolumns,
    hmerges.keyed.trans hlength, hmerges.distinct⟩

/-- Of the works only the films are read, under two keys and in the order of one title. -/
theorem sortedFilms_expanded :
    ∃ p o c q, Stage.setup.plan Stage.sortedFilms = .ok o ∧
      .lookup (.composite c) ∈ o.parts ∧ Asks Stage.sortedFilms q ∧ Expands Stage.setup q c ∧
      c.branches.map (fun b => (b.scope.entity.name, b.fields.map Field.key)) =
        [("Film", ["title", "__typename"])] ∧
      compile Stage.setup Stage.sortedFilms = .ok p ∧
      ∃ union after body column columns, Program.Holds (union :: after) p.clauses ∧
        Program.unionCall c.composite.name [body] column = .ok union ∧
        Program.branchColumns body = column :: columns ∧
        columns.length = q.sortEntries.length := by
  obtain ⟨p, h⟩ : ∃ p, compile Stage.setup Stage.sortedFilms = .ok p :=
    exists_of_isOk (by decide +kernel)
  have hany : (Stage.setup.plan Stage.sortedFilms).toOption.any (fun o =>
      (Stage.compositeReads o.parts).any fun c =>
        c.branches.map (fun b => (b.scope.entity.name, b.fields.map Field.key)) ==
          [("Film", ["title", "__typename"])]) = true := by
    decide +kernel
  obtain ⟨o, ho, hread⟩ := exists_of_any hany
  obtain ⟨c, hfound, hbranches⟩ := List.any_eq_true.mp hread
  rw [beq_iff_eq] at hbranches
  have hc : .lookup (.composite c) ∈ o.parts := Stage.mem_compositeReads hfound
  obtain ⟨q, hasks, _, hexpands, hprogram⟩ :=
    composites_expanded Stage.definition Stage.setup Stage.definition_build Stage.sortedFilms o
      ho c hc
  obtain ⟨union, after, bodies, column, columns, hholds, hunion, hlength, hcolumns, hsort, _⟩ :=
    hprogram p h
  have hsingle : bodies.length = 1 := by
    rw [hlength, ← List.length_map, hbranches]
    rfl
  obtain ⟨body, rfl⟩ := List.length_eq_one_iff.mp hsingle
  exact ⟨p, o, c, q, ho, hc, hasks, hexpands, hbranches, h, union, after, body, column, columns,
    hholds, hunion, hcolumns body List.mem_cons_self, hsort⟩

end GraphSelection.Resolve
