import GraphSelection.Proofs.Restored.Data
import GraphSelection.Request.Selection

/-!
Selections that are read out of a JSON document and written again.
-/
namespace GraphSelection

/-- What is given under a name that may be left out: null says as much as nothing. -/
def Doc.present? : Option Doc → Option Doc
  | some .null => none
  | other => other

namespace Selection

mutual
/-- A selection in a document and the document that is written for it. The fields stand in their
order, whether they were given by name or by place, and no other name is left. -/
inductive Rewritten : Doc → Doc → Prop
  | fields {doc : Doc} {name : String} {responseName : Option String} {args : Doc.Members}
      {items written : List Doc} {fragments found : Doc.Members}
      (hname : (doc.given fieldNames).get? "name" = some (.text name))
      (halias : Doc.present? ((doc.given fieldNames).get? "alias") = responseName.map .text)
      (hargs : ((doc.given fieldNames).get? "args").getD (.record []) = .record args)
      (hitems : ((doc.given fieldNames).get? "selection").getD (.list []) = .list items)
      (hwritten : RewrittenItems items written)
      (hfragments : ((doc.given fieldNames).get? "on").getD (.record []) = .record fragments)
      (hfound : RewrittenFragments fragments found) :
      Rewritten doc
        (.record
          (("name", .text name) :: (responseName.map fun a => ("alias", Doc.text a)).toList ++
            [("args", .record (Entries.merge (Doc.tidyMembers args))), ("selection", .list written),
             ("on", .record (Entries.merge found))]))
inductive RewrittenItems : List Doc → List Doc → Prop
  | nil : RewrittenItems [] []
  | cons {item written : Doc} {rest others : List Doc} (hitem : Rewritten item written)
      (hrest : RewrittenItems rest others) : RewrittenItems (item :: rest) (written :: others)
inductive RewrittenFragments : Doc.Members → Doc.Members → Prop
  | nil : RewrittenFragments [] []
  | cons {typeName : String} {items written : List Doc} {rest others : Doc.Members}
      (hitems : RewrittenItems items written) (hrest : RewrittenFragments rest others) :
      RewrittenFragments ((typeName, .list items) :: rest) ((typeName, .list written) :: others)
end

mutual
/-- Nothing is left to settle: arguments are plain data, and no record gives a name twice. -/
def IsSettled : Selection → Prop
  | ⟨_, _, args, selection, on⟩ =>
      ((Doc.record args).IsJson ∧ (Doc.record args).IsTidy) ∧ ListSettled selection ∧
        (Entries.keys on).Nodup ∧ FragmentsSettled on
def ListSettled : List Selection → Prop
  | [] => True
  | s :: rest => s.IsSettled ∧ ListSettled rest
def FragmentsSettled : List (String × List Selection) → Prop
  | [] => True
  | (_, fields) :: rest => ListSettled fields ∧ FragmentsSettled rest
end

/-- The selections are settled, and what is written for them is the items again. -/
def KeepsItems (items : List Doc) (ss : List Selection) : Prop :=
  ListSettled ss ∧ RewrittenItems items (encodeList ss)

/-- The fragments are settled, and what is written for them is the members again. -/
def KeepsFragments (members : Doc.Members) (on : Fragments) : Prop :=
  FragmentsSettled on ∧ RewrittenFragments members (encodeFragments on)

/-- What a field is before and after it may have been taken from a document. -/
def Takes {α : Type} (d : Doc → Option α) (given : Option Doc) (before after : Option α) : Prop :=
  match given with
  | none => after = before
  | some doc => before = none ∧ ∃ a, d doc = some a ∧ after = some a

/-- The fields before and after all that is given has been taken. -/
structure Parts.TakesAll (format : Format) (members : Doc.Members) (p q : Parts) : Prop where
  name : Takes (Decode.text format) (members.get? "name") p.name q.name
  responseName : Takes (Decode.optional Decode.text format) (members.get? "alias") p.responseName
    q.responseName
  args : Takes (Decode.freeRecord format) (members.get? "args") p.args q.args
  selection : Takes (decodeNested format) (members.get? "selection") p.selection q.selection
  on : Takes (decodeOn format) (members.get? "on") p.on q.on

theorem Takes.trans {α : Type} {d : Doc → Option α} {given more : Option Doc}
    {before between after : Option α} (h : Takes d given before between)
    (hmore : Takes d more between after) : Takes d (given.or more) before after := by
  cases given with
  | none =>
    obtain rfl : between = before := h
    exact hmore
  | some doc =>
    obtain ⟨hbefore, a, ha, rfl⟩ := h
    cases more with
    | none => exact ⟨hbefore, a, ha, hmore⟩
    | some other => cases hmore.1

theorem get?_cons (key : String) (value : Doc) (rest : Doc.Members) (name : String) :
    Entries.get? ((key, value) :: rest) name =
      (Entries.get? [(key, value)] name).or (rest.get? name) := by
  simp only [Entries.get?, List.lookup_cons, List.lookup_nil]
  split <;> rfl

theorem Parts.TakesAll.trans {format : Format} {key : String} {value : Doc} {rest : Doc.Members}
    {p q r : Parts} (h : p.TakesAll format [(key, value)] q) (hrest : q.TakesAll format rest r) :
    p.TakesAll format ((key, value) :: rest) r := by
  constructor <;> rw [get?_cons]
  · exact h.name.trans hrest.name
  · exact h.responseName.trans hrest.responseName
  · exact h.args.trans hrest.args
  · exact h.selection.trans hrest.selection
  · exact h.on.trans hrest.on

theorem get?_single (key : String) (value : Doc) (name : String) :
    Entries.get? [(key, value)] name = if name = key then some value else none := by
  by_cases hname : name = key
  · rw [Entries.get?, hname, List.lookup_cons_self, if_pos rfl]
  · rw [Entries.get?, List.lookup_cons, beq_eq_false_iff_ne.mpr hname, if_neg hname,
      List.lookup_nil]

theorem take_field {α : Type} {taken found : Option α} {put : α → Parts} {q : Parts}
    (h : (if taken.isSome then none else found.map put) = some q) :
    taken = none ∧ ∃ a, found = some a ∧ put a = q := by
  cases taken with
  | none => exact ⟨rfl, Option.map_eq_some_iff.mp h⟩
  | some _ => cases h

theorem take_takesAll {format : Format} {p q : Parts} {key : String} {value : Doc}
    (h : p.take format key value (fun _ => decodeNested format value)
      (fun _ => decodeOn format value) = some q) : p.TakesAll format [(key, value)] q := by
  unfold Parts.take at h
  split at h
  next =>
    obtain ⟨hnew, a, ha, rfl⟩ := take_field h
    constructor <;> simp only [get?_single, String.reduceEq, if_true, if_false]
    · exact ⟨hnew, a, ha, rfl⟩
    all_goals exact rfl
  next =>
    obtain ⟨hnew, a, ha, rfl⟩ := take_field h
    constructor <;> simp only [get?_single, String.reduceEq, if_true, if_false]
    case responseName => exact ⟨hnew, a, ha, rfl⟩
    all_goals exact rfl
  next =>
    obtain ⟨hnew, a, ha, rfl⟩ := take_field h
    constructor <;> simp only [get?_single, String.reduceEq, if_true, if_false]
    case args => exact ⟨hnew, a, ha, rfl⟩
    all_goals exact rfl
  next =>
    obtain ⟨hnew, a, ha, rfl⟩ := take_field h
    constructor <;> simp only [get?_single, String.reduceEq, if_true, if_false]
    case selection => exact ⟨hnew, a, ha, rfl⟩
    all_goals exact rfl
  next =>
    obtain ⟨hnew, a, ha, rfl⟩ := take_field h
    constructor <;> simp only [get?_single, String.reduceEq, if_true, if_false]
    case on => exact ⟨hnew, a, ha, rfl⟩
    all_goals exact rfl
  next hname halias hargs hselection hon =>
    obtain rfl : p = q := Option.some.inj h
    constructor <;> rw [get?_single, if_neg (Ne.symm ‹_›)]
    all_goals exact rfl

theorem gather_takesAll {format : Format} {p q : Parts} {members : Doc.Members}
    (h : gather format p members = some q) : p.TakesAll format members q := by
  induction members generalizing p with
  | nil =>
    rw [gather] at h
    obtain rfl : p = q := Option.some.inj h
    exact ⟨rfl, rfl, rfl, rfl, rfl⟩
  | cons m rest ih =>
    rw [gather] at h
    obtain ⟨between, hfirst, hrest⟩ := Option.bind_eq_some_iff.mp h
    exact (take_takesAll hfirst).trans (ih hrest)

theorem gatherInOrder_takesAll {format : Format} {p q : Parts} {names : List String}
    {items : List Doc} (h : gatherInOrder format p names items = some q) :
    p.TakesAll format (names.zip items) q := by
  induction items generalizing p names with
  | nil =>
    rw [gatherInOrder] at h
    obtain rfl : p = q := Option.some.inj h
    rw [List.zip_nil_right]
    exact ⟨rfl, rfl, rfl, rfl, rfl⟩
  | cons value rest ih =>
    cases names with
    | nil => rw [gatherInOrder] at h; cases h
    | cons key names =>
      rw [gatherInOrder] at h
      obtain ⟨between, hfirst, hrest⟩ := Option.bind_eq_some_iff.mp h
      exact (take_takesAll hfirst).trans (ih hrest)

/-- A selection is read from what a document gives for its fields. -/
theorem decode_takesAll {doc : Doc} {s : Selection} (h : decode .json doc = some s) :
    ∃ q : Parts, q.finish = some s ∧ Parts.TakesAll .json (doc.given fieldNames) {} q := by
  cases doc with
  | record members =>
    rw [decode, Format.inner?, Option.bind_some] at h
    obtain ⟨q, hq, hs⟩ := Option.bind_eq_some_iff.mp h
    exact ⟨q, hs, gather_takesAll hq⟩
  | list items =>
    rw [decode, if_pos rfl] at h
    obtain ⟨q, hq, hs⟩ := Option.bind_eq_some_iff.mp h
    exact ⟨q, hs, gatherInOrder_takesAll hq⟩
  | _ => rw [decode] at h <;> cases h

theorem encodeFragments_eq_map (on : Fragments) :
    encodeFragments on = on.map (Prod.map id fun fields => .list (encodeList fields)) := by
  induction on with
  | nil => rfl
  | cons fragment rest ih => rw [encodeFragments, ih]; rfl

theorem fragmentsSettled_iff {on : Fragments} :
    FragmentsSettled on ↔ ∀ fragment ∈ on, ListSettled fragment.2 := by
  induction on with
  | nil => exact iff_of_true trivial (List.forall_mem_nil _)
  | cons fragment rest ih => rw [List.forall_mem_cons, FragmentsSettled, ih]

theorem Takes.read {α : Type} {d : Doc → Option α} {given : Option Doc} {after : Option α}
    (h : Takes d given none after) (value : α) :
    given.elim (some value) d = some (after.getD value) := by
  cases given with
  | none =>
    obtain rfl : after = none := h
    rfl
  | some doc =>
    obtain ⟨_, a, ha, rfl⟩ := h
    exact ha

end Selection

namespace Doc

theorem text_read {format : Format} {doc : Doc} {s : String} (hjson : doc.IsJson)
    (h : Decode.text format doc = some s) : doc = .text s := by
  unfold Decode.text at h
  split at h
  next => rw [Option.some.inj h]
  next => cases hjson
  next => cases h

theorem optionalText_read {given : Option Doc} {found : Option String}
    (hjson : ∀ doc ∈ given, doc.IsJson)
    (h : given.elim (some none) (Decode.optional Decode.text .json) = some found) :
    present? given = found.map .text := by
  cases given with
  | none =>
    obtain rfl : none = found := Option.some.inj h
    rfl
  | some doc =>
    have hdoc : doc.IsJson := hjson doc rfl
    cases doc with
    | null =>
      obtain rfl : none = found := Option.some.inj h
      rfl
    | text s =>
      obtain rfl : some s = found := Option.some.inj h
      rfl
    | plain s => cases hdoc
    | _ => cases h

theorem freeRecord_json {members : Members} (h : MembersJson members) :
    Decode.freeRecord .json (.record members) = some (Entries.merge (tidyMembers members)) := by
  have hread : Decode.freeRecord .json (.record members) =
      (settleMembers .json members).map Entries.merge := rfl
  rw [hread, settleMembers_json h, Option.map_some]

theorem freeRecord_settled {members : Members} (hjson : (Doc.record members).IsJson)
    (htidy : (Doc.record members).IsTidy) :
    Decode.freeRecord .json (.record members) = some members := by
  rw [freeRecord_json hjson, tidyMembers_eq_self htidy.2, Entries.merge_of_nodup htidy.1]

theorem freeRecord_read {given : Option Doc} {found : Members} (hjson : ∀ doc ∈ given, doc.IsJson)
    (h : given.elim (some []) (Decode.freeRecord .json) = some found) :
    ∃ members, given.getD (.record []) = .record members ∧ MembersJson members ∧
      found = Entries.merge (tidyMembers members) := by
  cases given with
  | none =>
    obtain rfl : [] = found := Option.some.inj h
    exact ⟨[], rfl, trivial, rfl⟩
  | some doc =>
    have hdoc : doc.IsJson := hjson doc rfl
    cases doc with
    | record members =>
      have hmembers : MembersJson members := hdoc
      rw [Option.elim_some, freeRecord_json hmembers] at h
      exact ⟨members, rfl, hmembers, (Option.some.inj h).symm⟩
    | plain s => cases hdoc
    | _ => cases h

end Doc

namespace Selection

/-- Nested selections are read from a list. Where nothing is given, the list is empty. -/
theorem nested_read (related : List Doc → List Selection → Prop) {given : Option Doc}
    {found : List Selection} (hjson : ∀ doc ∈ given, doc.IsJson)
    (h : given.elim (some []) (decodeNested .json) = some found) (hempty : related [] [])
    (hlist : ∀ items, given = some (.list items) → Doc.ItemsJson items →
      decodeList .json items = some found → related items found) :
    ∃ items, given.getD (.list []) = .list items ∧ related items found := by
  cases given with
  | none =>
    obtain rfl : [] = found := Option.some.inj h
    exact ⟨[], rfl, hempty⟩
  | some doc =>
    have hdoc : doc.IsJson := hjson doc rfl
    cases doc with
    | list items =>
      rw [Option.elim_some, decodeNested, Format.inner?, Option.bind_some] at h
      exact ⟨items, rfl, hlist items rfl hdoc h⟩
    | plain s => cases hdoc
    | _ => rw [Option.elim_some, decodeNested] at h <;> cases h

/-- Fragments are read from a record. Where nothing is given, the record is empty. -/
theorem on_read (related : Doc.Members → Fragments → Prop) {given : Option Doc}
    {found : Fragments} (hjson : ∀ doc ∈ given, doc.IsJson)
    (h : given.elim (some []) (decodeOn .json) = some found) (hempty : related [] [])
    (hrecord : ∀ members fragments, given = some (.record members) → Doc.MembersJson members →
      decodeFragments .json members = some fragments → related members fragments) :
    ∃ members fragments, given.getD (.record []) = .record members ∧
      found = Entries.merge fragments ∧ related members fragments := by
  cases given with
  | none =>
    obtain rfl : [] = found := Option.some.inj h
    exact ⟨[], [], rfl, rfl, hempty⟩
  | some doc =>
    have hdoc : doc.IsJson := hjson doc rfl
    cases doc with
    | record members =>
      rw [Option.elim_some, decodeOn, Format.inner?, Option.bind_some] at h
      obtain ⟨fragments, hfragments, hmerge⟩ := Option.map_eq_some_iff.mp h
      exact ⟨members, fragments, rfl, hmerge.symm, hrecord members fragments rfl hdoc hfragments⟩
    | plain s => cases hdoc
    | _ => rw [Option.elim_some, decodeOn] at h <;> cases h

theorem fragmentsSettled_merge {fragments : Fragments} (h : FragmentsSettled fragments) :
    FragmentsSettled (Entries.merge fragments) :=
  fragmentsSettled_iff.mpr fun fragment hmem =>
    fragmentsSettled_iff.mp h fragment (Entries.mem_of_mem_merge hmem)

theorem encodeFragments_merge (fragments : Fragments) :
    encodeFragments (Entries.merge fragments) = Entries.merge (encodeFragments fragments) := by
  rw [encodeFragments_eq_map, encodeFragments_eq_map, Entries.map_merge]

/-- A selection is settled and rewritten as soon as what it nests is. -/
theorem rewritten_of_nested {doc : Doc} {s : Selection} (hjson : doc.IsJson)
    (h : decode .json doc = some s)
    (hlists : ∀ items ss, sizeOf (Doc.list items) < sizeOf doc → Doc.ItemsJson items →
      decodeList .json items = some ss → KeepsItems items ss)
    (hfragments : ∀ members on, sizeOf (Doc.record members) < sizeOf doc →
      Doc.MembersJson members → decodeFragments .json members = some on →
        KeepsFragments members on) :
    s.IsSettled ∧ Rewritten doc s.encode := by
  obtain ⟨q, hfinish, htakes⟩ := decode_takesAll h
  have hgiven : ∀ name, ∀ value ∈ (doc.given fieldNames).get? name, value.IsJson :=
    fun name value hvalue => Doc.isJson_of_given hjson hvalue
  obtain ⟨name, hname, rfl⟩ := Option.map_eq_some_iff.mp hfinish
  have hfound : (doc.given fieldNames).get? "name" = some (.text name) := by
    have htaken := htakes.name
    cases hvalue : (doc.given fieldNames).get? "name" with
    | none =>
      rw [hvalue, hname] at htaken
      cases htaken
    | some value =>
      rw [hvalue, hname] at htaken
      obtain ⟨_, a, ha, hsome⟩ := htaken
      obtain rfl := Option.some.inj hsome
      rw [Doc.text_read (hgiven "name" value hvalue) ha]
  have halias := Doc.optionalText_read (hgiven "alias") (htakes.responseName.read none)
  obtain ⟨args, hargs, hargsJson, hsettled⟩ :=
    Doc.freeRecord_read (hgiven "args") (htakes.args.read [])
  obtain ⟨items, hitems, hlist, hwritten⟩ :=
    nested_read KeepsItems (hgiven "selection") (htakes.selection.read []) ⟨trivial, .nil⟩
      fun items hsome hitems hdecode => hlists items _ (Doc.sizeOf_given hsome) hitems hdecode
  obtain ⟨members, found, hmembers, hon, hsettledOn, hrewritten⟩ :=
    on_read KeepsFragments (hgiven "on") (htakes.on.read []) ⟨trivial, .nil⟩
      fun members _ hsome hmembers hdecode =>
        hfragments members _ (Doc.sizeOf_given hsome) hmembers hdecode
  have hrecord : (Doc.record args).IsJson := hargsJson
  rw [hsettled, hon]
  constructor
  · exact ⟨⟨Doc.isJson_tidy hrecord, Doc.isTidy_tidy (.record args)⟩, hlist,
      Entries.nodup_merge found, fragmentsSettled_merge hsettledOn⟩
  · rw [encode, encodeFragments_merge]
    exact .fields hfound halias hargs hitems hwritten hmembers hrewritten

mutual
/-- Whatever JSON document a selection is read from, the selection is settled, and what is written
for it is the document again. -/
theorem decode_rewritten {doc : Doc} {s : Selection} (hjson : doc.IsJson)
    (h : decode .json doc = some s) : s.IsSettled ∧ Rewritten doc s.encode :=
  rewritten_of_nested hjson h
    (fun _ _ _ hitems hdecode => decodeList_rewritten hitems hdecode)
    (fun _ _ _ hmembers hdecode => decodeFragments_rewritten hmembers hdecode)
termination_by sizeOf doc
decreasing_by
  · have hsize : sizeOf (Doc.list _) < sizeOf doc := ‹_›
    rw [Doc.list.sizeOf_spec] at hsize
    omega
  · have hsize : sizeOf (Doc.record _) < sizeOf doc := ‹_›
    rw [Doc.record.sizeOf_spec] at hsize
    omega
theorem decodeList_rewritten {items : List Doc} {ss : List Selection} (hjson : Doc.ItemsJson items)
    (h : decodeList .json items = some ss) : KeepsItems items ss := by
  match items, hjson with
  | [], _ =>
    rw [decodeList] at h
    obtain rfl : [] = ss := Option.some.inj h
    exact ⟨trivial, .nil⟩
  | item :: rest, ⟨hitem, hrest⟩ =>
    rw [decodeList] at h
    split at h
    next s others hdecode hothers =>
      obtain rfl : s :: others = ss := Option.some.inj h
      obtain ⟨hsettled, hrewritten⟩ := decode_rewritten hitem hdecode
      obtain ⟨hsettledAll, hrewrittenAll⟩ := decodeList_rewritten hrest hothers
      exact ⟨⟨hsettled, hsettledAll⟩, .cons hrewritten hrewrittenAll⟩
    next => cases h
termination_by sizeOf items
theorem decodeFragments_rewritten {members : Doc.Members} {on : Fragments}
    (hjson : Doc.MembersJson members) (h : decodeFragments .json members = some on) :
    KeepsFragments members on := by
  match members, hjson with
  | [], _ =>
    rw [decodeFragments] at h
    obtain rfl : [] = on := Option.some.inj h
    exact ⟨trivial, .nil⟩
  | (typeName, .list items) :: rest, ⟨hitems, hrest⟩ =>
    rw [decodeFragments] at h
    split at h
    next fields others hfields hothers =>
      obtain rfl : (typeName, fields) :: others = on := Option.some.inj h
      rw [decodeNested, Format.inner?, Option.bind_some] at hfields
      obtain ⟨hsettled, hrewritten⟩ := decodeList_rewritten hitems hfields
      obtain ⟨hsettledAll, hrewrittenAll⟩ := decodeFragments_rewritten hrest hothers
      exact ⟨⟨hsettled, hsettledAll⟩, .cons hrewritten hrewrittenAll⟩
    next => cases h
  | (_, .plain _) :: _, ⟨hvalue, _⟩ => cases hvalue
  | (_, .null) :: _, _ | (_, .bool _) :: _, _ | (_, .int _) :: _, _ | (_, .float _) :: _, _
  | (_, .text _) :: _, _ | (_, .record _) :: _, _ => cases h
termination_by sizeOf members
end

theorem nested_rewritten {given : Option Doc} {found : List Selection}
    (hjson : ∀ doc ∈ given, doc.IsJson)
    (h : given.elim (some []) (decodeNested .json) = some found) :
    ∃ items, given.getD (.list []) = .list items ∧ KeepsItems items found :=
  nested_read KeepsItems hjson h ⟨trivial, .nil⟩ fun _ _ => decodeList_rewritten

theorem on_rewritten {given : Option Doc} {found : Fragments} (hjson : ∀ doc ∈ given, doc.IsJson)
    (h : given.elim (some []) (decodeOn .json) = some found) :
    ∃ members fragments, given.getD (.record []) = .record members ∧
      found = Entries.merge fragments ∧ KeepsFragments members fragments :=
  on_read KeepsFragments hjson h ⟨trivial, .nil⟩ fun _ _ _ => decodeFragments_rewritten

mutual
/-- A settled selection is read again from what is written for it. -/
theorem decode_encode : ∀ {s : Selection}, s.IsSettled → decode .json s.encode = some s
  | ⟨name, responseName, args, selection, on⟩, ⟨⟨hargsJson, hargs⟩, hselection, hnodup, hon⟩ => by
    have hread : Decode.freeRecord .json (.record args) = some args :=
      Doc.freeRecord_settled hargsJson hargs
    have hnested := decodeNested_encodeList hselection
    have hfragments := decodeOn_encodeFragments hnodup hon
    rw [encode, decode, Format.inner?, Option.bind_some]
    cases responseName with
    | none =>
      simp only [Option.map_none, Option.toList_none, List.cons_append, List.nil_append, gather,
        Parts.take, Decode.text, hread, hnested, hfragments, Option.map_some]
      rfl
    | some a =>
      have halias : Decode.optional Decode.text .json (.text a) = some (some a) := rfl
      simp only [Option.map_some, Option.toList_some, List.cons_append, List.nil_append, gather,
        Parts.take, Decode.text, hread, hnested, hfragments, halias]
      rfl
theorem decodeNested_encodeList :
    ∀ {ss : List Selection}, ListSettled ss →
      decodeNested .json (.list (encodeList ss)) = some ss
  | [], _ => by rw [encodeList, decodeNested, Format.inner?, Option.bind_some, decodeList]
  | s :: rest, ⟨hs, hrest⟩ => by
    have hothers := decodeNested_encodeList hrest
    rw [decodeNested, Format.inner?, Option.bind_some] at hothers ⊢
    rw [encodeList, decodeList, decode_encode hs, hothers]
theorem decodeFragments_encodeFragments :
    ∀ {on : Fragments}, FragmentsSettled on →
      decodeFragments .json (encodeFragments on) = some on
  | [], _ => by rw [encodeFragments, decodeFragments]
  | (_, _) :: _, ⟨hfields, hrest⟩ => by
    rw [encodeFragments, decodeFragments, decodeNested_encodeList hfields,
      decodeFragments_encodeFragments hrest]
theorem decodeOn_encodeFragments {on : Fragments} (hnodup : on.keys.Nodup)
    (hon : FragmentsSettled on) : decodeOn .json (.record (encodeFragments on)) = some on := by
  rw [decodeOn, Format.inner?, Option.bind_some, decodeFragments_encodeFragments hon,
    Option.map_some, Entries.merge_of_nodup hnodup]
end

mutual
/-- A JSON document is written for a settled selection. -/
theorem isJson_encode : ∀ {s : Selection}, s.IsSettled → s.encode.IsJson
  | ⟨_, responseName, _, _, _⟩, ⟨⟨hargs, _⟩, hselection, _, hon⟩ => by
    have hrest : Doc.MembersJson [("args", .record _), ("selection", .list _), ("on", .record _)] :=
      ⟨hargs, itemsJson_encodeList hselection, membersJson_encodeFragments hon, trivial⟩
    cases responseName with
    | none => exact ⟨trivial, hrest⟩
    | some a => exact ⟨trivial, trivial, hrest⟩
theorem itemsJson_encodeList :
    ∀ {ss : List Selection}, ListSettled ss → Doc.ItemsJson (encodeList ss)
  | [], _ => trivial
  | _ :: _, ⟨hs, hrest⟩ => ⟨isJson_encode hs, itemsJson_encodeList hrest⟩
theorem membersJson_encodeFragments :
    ∀ {on : Fragments}, FragmentsSettled on → Doc.MembersJson (encodeFragments on)
  | [], _ => trivial
  | (_, _) :: _, ⟨hfields, hrest⟩ =>
    ⟨itemsJson_encodeList hfields, membersJson_encodeFragments hrest⟩
end

end Selection

end GraphSelection
