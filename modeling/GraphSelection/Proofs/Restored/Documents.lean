import GraphSelection.Proofs.Restored.Selections
import GraphSelection.Request.Basic
import GraphSelection.Schema.Rule

/-!
Requests and rules are read out of a JSON document and written again. What is written has every
field, in one order and by name, and is read as the same request or rule. The relations between a
document and what is written for it say where each part comes from.
-/
namespace GraphSelection

namespace Doc

/-- A document that names a choice: its text, or a record with nothing else in it. -/
def Names (doc : Doc) (name : String) : Prop := doc = .text name ∨ doc = .record [(name, .null)]

theorem Names.unique {doc : Doc} {name name' : String} (h : doc.Names name) (h' : doc.Names name') :
    name = name' := by
  rcases h with rfl | rfl <;> rcases h' with h' | h' <;> cases h' <;> rfl

theorem isJson_ofTexts (names : List String) : (Doc.ofTexts names).IsJson :=
  itemsJson_iff.mpr fun item hitem => by
    obtain ⟨name, _, rfl⟩ := List.mem_map.mp hitem
    trivial

/-- A set of names as it is written: all of them where nothing is given, else the names of the items
in their own order, each of them once. -/
def SetWritten (all : List String) (given : Option Doc) (written : Doc) : Prop :=
  ∃ chosen : List String, written = Doc.ofTexts chosen ∧
    given.elim (chosen = all) fun doc =>
      ∃ items, doc = .list items ∧ (∀ item ∈ items, ∃ name ∈ all, item.Names name) ∧
        chosen.Sublist all ∧ ∀ name, name ∈ chosen ↔ ∃ item ∈ items, item.Names name

end Doc

namespace Decode

variable {α β : Type}

theorem mem_of_mapM_some {f : α → Option β} {as : List α} {bs : List β} (h : as.mapM f = some bs) :
    (∀ a ∈ as, ∃ b ∈ bs, f a = some b) ∧ ∀ b ∈ bs, ∃ a ∈ as, f a = some b := by
  induction as generalizing bs with
  | nil =>
    obtain rfl : [] = bs := Option.some.inj h
    exact ⟨List.forall_mem_nil _, List.forall_mem_nil _⟩
  | cons a rest ih =>
    simp only [List.mapM_cons, Option.bind_eq_bind, Option.bind_eq_some_iff, Option.pure_def] at h
    obtain ⟨b, hb, others, hothers, h⟩ := h
    obtain rfl := Option.some.inj h
    obtain ⟨hto, hfrom⟩ := ih hothers
    constructor
    · intro x hx
      rcases List.mem_cons.mp hx with rfl | hx
      · exact ⟨b, List.mem_cons_self, hb⟩
      · obtain ⟨y, hy, hfy⟩ := hto x hx
        exact ⟨y, List.mem_cons_of_mem _ hy, hfy⟩
    · intro y hy
      rcases List.mem_cons.mp hy with rfl | hy
      · exact ⟨a, List.mem_cons_self, hb⟩
      · obtain ⟨x, hx, hfx⟩ := hfrom y hy
        exact ⟨x, List.mem_cons_of_mem _ hx, hfx⟩

theorem mapM_some_of_map {f : β → Option α} {g : α → β} {as : List α}
    (h : ∀ a ∈ as, f (g a) = some a) : (as.map g).mapM f = some as := by
  induction as with
  | nil => rfl
  | cons a rest ih =>
    rw [List.forall_mem_cons] at h
    rw [List.map_cons, List.mapM_cons, h.1, ih h.2]
    rfl

theorem choice_read {table : List (String × α)} {doc : Doc} {a : α} (hjson : doc.IsJson)
    (h : choice table .json doc = some a) :
    ∃ name, doc.Names name ∧ List.lookup name table = some a := by
  unfold choice at h
  split at h
  next => exact ⟨_, .inr rfl, h⟩
  next =>
    obtain ⟨name, hname, hlookup⟩ := Option.bind_eq_some_iff.mp h
    exact ⟨name, .inl (Doc.text_read hjson hname), hlookup⟩

theorem fields_read {names : List String} {doc : Doc} {fs : Fields} (hjson : doc.IsJson)
    (h : fields names .json doc = some fs) : fs = ⟨.json, doc.given names⟩ := by
  cases doc with
  | list items =>
    rw [fields] at h
    split at h
    next => exact (Option.some.inj h).symm
    next => cases h
  | record members =>
    have hmembers : members? .json (.record members) = some (.json, members) := rfl
    rw [fields, hmembers, Option.bind_some] at h
    · simp only at h
      split at h
      next => exact (Option.some.inj h).symm
      next => cases h
    · rintro items _ ⟨⟩
  | plain s => cases hjson
  | _ => cases h

/-- Each choice of the table has the name of its place, and no other choice has it. -/
def Named (table : List (String × α)) (name : α → String) : Prop :=
  ∀ e ∈ table, name e.2 = e.1 ∧ List.lookup e.1 table = some e.2

theorem Named.of_lookup {table : List (String × α)} {name : α → String} (h : Named table name)
    {key : String} {a : α} (ha : List.lookup key table = some a) :
    name a = key ∧ (key, a) ∈ table := by
  have hmem : (key, a) ∈ table := Entries.mem_of_get? ha
  exact ⟨(h _ hmem).1, hmem⟩

theorem Named.lookup {table : List (String × α)} {name : α → String} (h : Named table name)
    {a : α} (ha : a ∈ table.map Prod.snd) : List.lookup (name a) table = some a := by
  obtain ⟨e, he, rfl⟩ := List.mem_map.mp ha
  rw [(h e he).1, (h e he).2]

theorem Named.keys {table : List (String × α)} {name : α → String} (h : Named table name) :
    (table.map Prod.snd).map name = table.map Prod.fst := by
  rw [List.map_map]
  exact List.map_congr_left fun e he => (h e he).1

theorem required_choice_read {table : List (String × α)} {name : α → String}
    (hnamed : Named table name) {members : Doc.Members} {key : String} {a : α}
    (hjson : ∀ doc ∈ members.get? key, doc.IsJson)
    (h : required (choice table) ⟨.json, members⟩ key = some a) :
    ∃ doc, members.get? key = some doc ∧ doc.Names (name a) ∧
      choice table .json (.text (name a)) = some a := by
  obtain ⟨doc, hdoc, hchoice⟩ := Option.bind_eq_some_iff.mp h
  obtain ⟨found, hnames, hlookup⟩ := choice_read (hjson doc hdoc) hchoice
  obtain rfl := (hnamed.of_lookup hlookup).1
  exact ⟨doc, hdoc, hnames, hlookup⟩

theorem orElse_eq (d : Decoder α) (fs : Fields) (name : String) (value : α) :
    orElse d fs name value = (fs.members.get? name).elim (some value) (d fs.format) := by
  rw [orElse]
  cases fs.members.get? name <;> rfl

section Choices

variable [BEq α] {table : List (String × α)} {name : α → String} {given : Option Doc}
  {found : List α}

theorem choices_read {doc : Doc} (hjson : doc.IsJson) (h : choices table .json doc = some found) :
    ∃ items chosen, doc = .list items ∧ items.mapM (choice table .json) = some chosen ∧
      found = (table.map Prod.snd).filter chosen.contains := by
  obtain ⟨chosen, hchosen, rfl⟩ := Option.map_eq_some_iff.mp h
  cases doc with
  | list items =>
    have hlist : list (choice table) .json (.list items) = items.mapM (choice table .json) := rfl
    exact ⟨items, chosen, rfl, hlist ▸ hchosen, rfl⟩
  | plain s => cases hjson
  | _ => cases hchosen

/-- A set that was read is written in the order of its table, without repetitions. -/
theorem choices_written [LawfulBEq α] (hnamed : Named table name)
    (hjson : ∀ doc ∈ given, doc.IsJson)
    (h : given.elim (some (table.map Prod.snd)) (choices table .json) = some found) :
    Doc.SetWritten (table.map Prod.fst) given (Doc.ofTexts (found.map name)) := by
  refine ⟨found.map name, rfl, ?_⟩
  cases given with
  | none =>
    obtain rfl : table.map Prod.snd = found := Option.some.inj h
    exact hnamed.keys
  | some doc =>
    have hdoc : doc.IsJson := hjson doc rfl
    obtain ⟨items, chosen, rfl, hchosen, rfl⟩ := choices_read hdoc h
    obtain ⟨hto, hfrom⟩ := mem_of_mapM_some hchosen
    have hitems := Doc.itemsJson_iff.mp hdoc
    refine ⟨items, rfl, fun item hitem => ?_, ?_, fun key => ⟨fun hkey => ?_, ?_⟩⟩
    · obtain ⟨a, _, ha⟩ := hto item hitem
      obtain ⟨key, hkey, hlookup⟩ := choice_read (hitems item hitem) ha
      exact ⟨key, List.mem_map_of_mem (hnamed.of_lookup hlookup).2, hkey⟩
    · rw [← hnamed.keys]
      exact List.filter_sublist.map name
    · obtain ⟨a, ha, rfl⟩ := List.mem_map.mp hkey
      obtain ⟨item, hitem, hchoice⟩ := hfrom a (List.contains_iff_mem.mp (List.mem_filter.mp ha).2)
      obtain ⟨key, hnames, hlookup⟩ := choice_read (hitems item hitem) hchoice
      rw [(hnamed.of_lookup hlookup).1]
      exact ⟨item, hitem, hnames⟩
    · rintro ⟨item, hitem, hnames⟩
      obtain ⟨a, hmem, ha⟩ := hto item hitem
      obtain ⟨other, hother, hlookup⟩ := choice_read (hitems item hitem) ha
      obtain ⟨hname, htable⟩ := hnamed.of_lookup hlookup
      rw [hnames.unique hother, ← hname]
      exact List.mem_map_of_mem (List.mem_filter.mpr
        ⟨List.mem_map_of_mem (f := Prod.snd) htable, List.contains_iff_mem.mpr hmem⟩)

theorem choices_filter [LawfulBEq α] (hnamed : Named table name) (p : α → Bool) :
    choices table .json (Doc.ofTexts (((table.map Prod.snd).filter p).map name)) =
      some ((table.map Prod.snd).filter p) := by
  generalize hall : table.map Prod.snd = all
  have hread : ((all.filter p).map (Doc.text ∘ name)).mapM (choice table .json) =
      some (all.filter p) := mapM_some_of_map fun a ha => by
    have hmem : a ∈ table.map Prod.snd := hall ▸ (List.mem_filter.mp ha).1
    exact hnamed.lookup hmem
  have hchoices : ∀ names, choices table .json (Doc.ofTexts names) =
      ((names.map Doc.text).mapM (choice table .json)).map
        fun found => (table.map Prod.snd).filter found.contains := fun _ => rfl
  rw [hchoices, List.map_map, hread, hall, Option.map_some]
  refine congrArg some (List.filter_congr fun a ha => ?_)
  rw [Bool.eq_iff_iff, List.contains_iff_mem, List.mem_filter, and_iff_right ha]

/-- A set that was read is read again from what is written for it. -/
theorem choices_restored [LawfulBEq α] (hnamed : Named table name)
    (hjson : ∀ doc ∈ given, doc.IsJson)
    (h : given.elim (some (table.map Prod.snd)) (choices table .json) = some found) :
    choices table .json (Doc.ofTexts (found.map name)) = some found := by
  cases given with
  | none =>
    obtain rfl : table.map Prod.snd = found := Option.some.inj h
    have hall := choices_filter hnamed fun _ => true
    rwa [List.filter_eq_self.mpr fun _ _ => rfl] at hall
  | some doc =>
    obtain ⟨_, chosen, _, _, rfl⟩ := choices_read (hjson doc rfl) h
    exact choices_filter hnamed _

end Choices

theorem bool_read {given : Option Doc} {found : Bool} (hjson : ∀ doc ∈ given, doc.IsJson)
    (h : given.elim (some true) (bool .json) = some found) :
    given.getD (.bool true) = .bool found := by
  cases given with
  | none => exact congrArg Doc.bool (Option.some.inj h)
  | some doc =>
    have hdoc : doc.IsJson := hjson doc rfl
    cases doc with
    | bool value => exact congrArg Doc.bool (Option.some.inj h)
    | plain s => cases hdoc
    | _ => cases h

/-- What is given as free data and may be left out is read with its repeated names merged. -/
theorem optionalFree_read {given found : Option Doc} (hjson : ∀ doc ∈ given, doc.IsJson)
    (h : given.elim (some none) (optional free .json) = some found) :
    found = (Doc.present? given).map Doc.tidy := by
  cases given with
  | none => exact (Option.some.inj h).symm
  | some doc =>
    have hdoc : doc.IsJson := hjson doc rfl
    have hfree : free .json doc = some doc.tidy := Doc.settle_json hdoc
    cases doc with
    | plain s => cases hdoc
    | null => exact (Option.some.inj h).symm
    | _ => exact Option.some.inj (h.symm.trans (congrArg (Option.map some) hfree))

theorem optionalFree_restored {given written : Option Doc} (hjson : ∀ doc ∈ given, doc.IsJson)
    (h : written = (Doc.present? given).map Doc.tidy) :
    ∀ doc ∈ written, doc.IsJson ∧ optional free .json doc = some (some doc) := by
  rintro doc hdoc
  rw [h] at hdoc
  obtain ⟨found, hfound, rfl⟩ := Option.map_eq_some_iff.mp hdoc
  obtain rfl : given = some found := by
    unfold Doc.present? at hfound
    split at hfound
    next => cases hfound
    next => exact hfound
  have hfoundJson : found.IsJson := hjson found rfl
  have htidy : found.tidy.IsJson := Doc.isJson_tidy hfoundJson
  have hfree : free .json found.tidy = some found.tidy := by
    rw [free, Doc.settle_json htidy, Doc.tidy_eq_self (Doc.isTidy_tidy found)]
  refine ⟨htidy, ?_⟩
  cases found with
  | plain s => cases hfoundJson
  | null => cases hfound
  | _ => exact congrArg (Option.map some) hfree

end Decode

namespace OperationKind

theorem named : Decode.Named table name := by
  simp only [Decode.Named, table, List.forall_mem_cons]
  decide

end OperationKind

namespace RuleKind

theorem named : Decode.Named table name := by
  simp only [Decode.Named, table, List.forall_mem_cons]
  decide

end RuleKind

namespace Action

theorem named : Decode.Named table name := by
  simp only [Decode.Named, table, List.forall_mem_cons]
  decide

end Action

namespace Moment

theorem named : Decode.Named table name := by
  simp only [Decode.Named, table, List.forall_mem_cons]
  decide

end Moment

namespace Request

def fieldNames : List String := ["operation", "entity", "args", "selection", "on"]

/-- A request in a document and the document that is written for it, with every field in it. -/
inductive Rewritten : Doc → Doc → Prop
  | fields {doc kind : Doc} {operation entity : String} {args : Doc.Members}
      {items written : List Doc} {fragments found : Doc.Members}
      (hoperation : (doc.given fieldNames).get? "operation" = some kind)
      (hkind : kind.Names operation)
      (hentity : (doc.given fieldNames).get? "entity" = some (.text entity))
      (hargs : ((doc.given fieldNames).get? "args").getD (.record []) = .record args)
      (hitems : ((doc.given fieldNames).get? "selection").getD (.list []) = .list items)
      (hwritten : Selection.RewrittenItems items written)
      (hfragments : ((doc.given fieldNames).get? "on").getD (.record []) = .record fragments)
      (hfound : Selection.RewrittenFragments fragments found) :
      Rewritten doc
        (.record
          [("operation", .text operation), ("entity", .text entity),
           ("args", .record (Entries.merge (Doc.tidyMembers args))), ("selection", .list written),
           ("on", .record (Entries.merge found))])

/-- A request is read from a record of its fields one after the other. -/
theorem decode_record (operation entity args selection on : Doc) :
    decode .json (.record [("operation", operation), ("entity", entity), ("args", args),
        ("selection", selection), ("on", on)]) = (do
      let operation ← Decode.choice OperationKind.table .json operation
      let entity ← Decode.text .json entity
      let args ← Decode.freeRecord .json args
      let selection ← Selection.decodeNested .json selection
      let on ← Selection.decodeOn .json on
      return { operation, entity, args, selection, on }) := rfl

/-- A request is read again from what is written for it. -/
theorem restored {doc : Doc} {r : Request} (hjson : doc.IsJson) (h : decode .json doc = some r) :
    r.encode.IsJson ∧ decode .json r.encode = some r ∧ Rewritten doc r.encode := by
  simp only [decode, Option.bind_eq_bind, Option.bind_eq_some_iff, Option.pure_def,
    Decode.orElse_eq] at h
  obtain ⟨fs, hfs, operation, hoperation, entity, hentity, args, hargs, selection, hselection, on,
    hon, h⟩ := h
  obtain rfl := Option.some.inj h
  obtain rfl := Decode.fields_read hjson hfs
  have hgiven : ∀ name, ∀ value ∈ (doc.given fieldNames).get? name, value.IsJson :=
    fun name value hvalue => Doc.isJson_of_given hjson hvalue
  obtain ⟨kind, hkind, hnames, hchoice⟩ :=
    Decode.required_choice_read OperationKind.named (hgiven "operation") hoperation
  obtain ⟨value, hvalue, htext⟩ := Option.bind_eq_some_iff.mp hentity
  obtain rfl := Doc.text_read (hgiven "entity" value hvalue) htext
  obtain ⟨members, hmembers, hmembersJson, rfl⟩ := Doc.freeRecord_read (hgiven "args") hargs
  obtain ⟨items, hitems, hsettled, hwritten⟩ :=
    Selection.nested_rewritten (hgiven "selection") hselection
  obtain ⟨fragments, found, hfragments, rfl, hsettledOn, hfound⟩ :=
    Selection.on_rewritten (hgiven "on") hon
  have hrecord : (Doc.record members).IsJson := hmembersJson
  have hmerged := Selection.fragmentsSettled_merge hsettledOn
  refine ⟨⟨trivial, trivial, Doc.isJson_tidy hrecord, Selection.itemsJson_encodeList hsettled,
    Selection.membersJson_encodeFragments hmerged, trivial⟩, ?_, ?_⟩
  · have hargs : Decode.freeRecord .json (.record (Entries.merge (Doc.tidyMembers members))) =
        some (Entries.merge (Doc.tidyMembers members)) :=
      Doc.freeRecord_settled (Doc.isJson_tidy hrecord) (Doc.isTidy_tidy (.record members))
    have hselection : Selection.decodeNested .json (.list (Selection.encodeList selection)) =
        some selection := Selection.decodeNested_encodeList hsettled
    have hon := Selection.decodeOn_encodeFragments (Entries.nodup_merge found) hmerged
    rw [encode, decode_record, hchoice, hargs, hselection, hon]
    rfl
  · rw [encode, Selection.encodeFragments_merge]
    exact .fields hkind hnames hvalue hmembers hitems hwritten hfragments hfound

end Request

namespace Rule

def fieldNames : List String := ["kind", "operations", "when", "requireAuthentication", "where"]

/-- Conditions as they are written: those that are given, with their repeated names merged. -/
def writtenConditions (doc : Doc) : Doc :=
  let members := doc.given ["node", "jwt"]
  .record
    (((Doc.present? (members.get? "node")).map fun d => ("node", d.tidy)).toList ++
      ((Doc.present? (members.get? "jwt")).map fun d => ("jwt", d.tidy)).toList)

/-- A rule in a document and the document that is written for it. -/
inductive Rewritten : Doc → Doc → Prop
  | fields {doc kindDoc operations moments : Doc} {kind : String} {needsAuthentication : Bool}
      (hkind : (doc.given fieldNames).get? "kind" = some kindDoc)
      (hname : kindDoc.Names kind)
      (hoperations : Doc.SetWritten (Action.table.map Prod.fst)
        ((doc.given fieldNames).get? "operations") operations)
      (hmoments : Doc.SetWritten (Moment.table.map Prod.fst)
        ((doc.given fieldNames).get? "when") moments)
      (hneeds : ((doc.given fieldNames).get? "requireAuthentication").getD (.bool true) =
        .bool needsAuthentication) :
      Rewritten doc
        (.record
          [("kind", .text kind), ("operations", operations), ("when", moments),
           ("requireAuthentication", .bool needsAuthentication),
           ("where", writtenConditions
             (((doc.given fieldNames).get? "where").getD (.record [])))])

theorem decodeTemplates_read {given node claims : Option Doc} (hjson : ∀ doc ∈ given, doc.IsJson)
    (h : given.elim (some (none, none)) (decodeTemplates .json) = some (node, claims)) :
    (given.getD (.record [])).IsJson ∧
      node = (Doc.present? (((given.getD (.record [])).given ["node", "jwt"]).get? "node")).map
        Doc.tidy ∧
      claims = (Doc.present? (((given.getD (.record [])).given ["node", "jwt"]).get? "jwt")).map
        Doc.tidy := by
  cases given with
  | none =>
    obtain ⟨rfl, rfl⟩ := Prod.mk.inj (Option.some.inj h)
    exact ⟨trivial, rfl, rfl⟩
  | some doc =>
    have hdoc : doc.IsJson := hjson doc rfl
    simp only [Option.elim_some, decodeTemplates, Option.bind_eq_bind, Option.bind_eq_some_iff,
      Option.pure_def, Decode.orElse_eq] at h
    obtain ⟨fs, hfs, node', hnode, claims', hclaims, h⟩ := h
    obtain ⟨rfl, rfl⟩ := Prod.mk.inj (Option.some.inj h)
    obtain rfl := Decode.fields_read hdoc hfs
    have hgiven : ∀ name, ∀ value ∈ (doc.given ["node", "jwt"]).get? name, value.IsJson :=
      fun name value hvalue => Doc.isJson_of_given hdoc hvalue
    exact ⟨hdoc, Decode.optionalFree_read (hgiven "node") hnode,
      Decode.optionalFree_read (hgiven "jwt") hclaims⟩

theorem decodeTemplates_encode {node claims : Option Doc}
    (hnode : ∀ doc ∈ node, Decode.optional Decode.free .json doc = some (some doc))
    (hclaims : ∀ doc ∈ claims, Decode.optional Decode.free .json doc = some (some doc)) :
    decodeTemplates .json (.record
      ((node.map fun d => ("node", d)).toList ++ (claims.map fun d => ("jwt", d)).toList)) =
        some (node, claims) := by
  cases node with
  | none =>
    cases claims with
    | none => rfl
    | some claims =>
      have hread : decodeTemplates .json (.record [("jwt", claims)]) =
          (do return (none, ← Decode.optional Decode.free .json claims)) := rfl
      exact hread.trans (by rw [hclaims claims rfl]; rfl)
  | some node =>
    cases claims with
    | none =>
      have hread : decodeTemplates .json (.record [("node", node)]) =
          (do return (← Decode.optional Decode.free .json node, none)) := rfl
      exact hread.trans (by rw [hnode node rfl]; rfl)
    | some claims =>
      have hread : decodeTemplates .json (.record [("node", node), ("jwt", claims)]) =
          (do return (← Decode.optional Decode.free .json node,
            ← Decode.optional Decode.free .json claims)) := rfl
      exact hread.trans (by rw [hnode node rfl, hclaims claims rfl]; rfl)

/-- A rule is read from a record of its fields one after the other. -/
theorem decode_record (kind actions moments needs templates : Doc) :
    decode .json (.record [("kind", kind), ("operations", actions), ("when", moments),
        ("requireAuthentication", needs), ("where", templates)]) = (do
      let kind ← Decode.choice RuleKind.table .json kind
      let actions ← Decode.choices Action.table .json actions
      let moments ← Decode.choices Moment.table .json moments
      let needsAuthentication ← Decode.bool .json needs
      let (node, claims) ← decodeTemplates .json templates
      return { kind, actions, moments, needsAuthentication, node, claims }) := rfl

theorem isJson_conditions {node claims : Option Doc} (hnode : ∀ doc ∈ node, doc.IsJson)
    (hclaims : ∀ doc ∈ claims, doc.IsJson) :
    (Doc.record ((node.map fun d => ("node", d)).toList ++
      (claims.map fun d => ("jwt", d)).toList)).IsJson := by
  refine Doc.membersJson_iff.mpr fun m hm => ?_
  rcases List.mem_append.mp hm with hm | hm
  · obtain ⟨d, hd, rfl⟩ := Option.map_eq_some_iff.mp (Option.mem_toList.mp hm)
    exact hnode d hd
  · obtain ⟨d, hd, rfl⟩ := Option.map_eq_some_iff.mp (Option.mem_toList.mp hm)
    exact hclaims d hd

/-- A rule is read again from what is written for it. -/
theorem restored {doc : Doc} {rule : Rule} (hjson : doc.IsJson)
    (h : decode .json doc = some rule) :
    rule.encode.IsJson ∧ decode .json rule.encode = some rule ∧ Rewritten doc rule.encode := by
  simp only [decode, Option.bind_eq_bind, Option.bind_eq_some_iff, Option.pure_def,
    Decode.orElse_eq] at h
  obtain ⟨fs, hfs, kind, hkind, actions, hactions, moments, hmoments, needs, hneeds,
    ⟨node, claims⟩, htemplates, h⟩ := h
  obtain rfl := Option.some.inj h
  obtain rfl := Decode.fields_read hjson hfs
  have hgiven : ∀ name, ∀ value ∈ (doc.given fieldNames).get? name, value.IsJson :=
    fun name value hvalue => Doc.isJson_of_given hjson hvalue
  obtain ⟨kindDoc, hkindDoc, hnames, hchoice⟩ :=
    Decode.required_choice_read RuleKind.named (hgiven "kind") hkind
  obtain ⟨hwhere, hnode, hclaims⟩ := decodeTemplates_read (hgiven "where") htemplates
  have hconditions : ∀ name, ∀ value ∈ ((((doc.given fieldNames).get? "where").getD
      (.record [])).given ["node", "jwt"]).get? name, value.IsJson :=
    fun name value hvalue => Doc.isJson_of_given hwhere hvalue
  have hactionsWritten := Decode.choices_written Action.named (hgiven "operations") hactions
  have hmomentsWritten := Decode.choices_written Moment.named (hgiven "when") hmoments
  have hnodeRestored := Decode.optionalFree_restored (hconditions "node") hnode
  have hclaimsRestored := Decode.optionalFree_restored (hconditions "jwt") hclaims
  refine ⟨⟨trivial, Doc.isJson_ofTexts _, Doc.isJson_ofTexts _, trivial, ?_, trivial⟩, ?_, ?_⟩
  · exact isJson_conditions (fun d hd => (hnodeRestored d hd).1)
      (fun d hd => (hclaimsRestored d hd).1)
  · rw [encode, decode_record, hchoice,
      Decode.choices_restored Action.named (hgiven "operations") hactions,
      Decode.choices_restored Moment.named (hgiven "when") hmoments,
      decodeTemplates_encode (fun d hd => (hnodeRestored d hd).2)
        (fun d hd => (hclaimsRestored d hd).2)]
    rfl
  · have hwritten : Doc.record ((node.map fun d => ("node", d)).toList ++
        (claims.map fun d => ("jwt", d)).toList) =
          writtenConditions (((doc.given fieldNames).get? "where").getD (.record [])) := by
      rw [hnode, hclaims, Option.map_map, Option.map_map]
      rfl
    rw [encode, hwritten]
    exact .fields hkindDoc hnames hactionsWritten hmomentsWritten
      (Decode.bool_read (hgiven _) hneeds)

end Rule

/-- Whatever JSON document is accepted as a request or as a rule, what is written for the request or
the rule is a JSON document that is accepted again and read as the same. It has every field, those
left out with their defaults, apart from the parts that may be absent and are; sets stand in the
order of their tables, each choice once; free data and fragments keep the order of their names. -/
theorem documents_restored {doc : Doc} (hjson : doc.IsJson) :
    (∀ r, Request.decode .json doc = some r →
      r.encode.IsJson ∧ Request.decode .json r.encode = some r ∧
        Request.Rewritten doc r.encode) ∧
    ∀ rule, Rule.decode .json doc = some rule →
      rule.encode.IsJson ∧ Rule.decode .json rule.encode = some rule ∧
        Rule.Rewritten doc rule.encode :=
  ⟨fun _ => Request.restored hjson, fun _ => Rule.restored hjson⟩

/-- A request with a selection by place, a null and an unknown name. -/
def placedFilms : Doc :=
  .record
    [("entity", .text "Film"), ("operation", .record [("read", .null)]), ("page", .int 2),
     ("selection", .list
       [.record [("alias", .null), ("name", .text "title")],
        .list [.text "cast", .text "crew", .record [("b", .int 1), ("a", .int 2), ("b", .null)]]])]

/-- A rule with repeated actions out of order. -/
def repeatedEditors : Doc :=
  .record
    [("kind", .text "validate"), ("operations", .list [.text "UPDATE", .text "READ", .text "READ"]),
     ("where", .record [("node", .null), ("jwt", .record [("editor", .bool true)])])]

theorem placedFilms_restored :
    placedFilms.IsJson ∧ repeatedEditors.IsJson ∧
      (∃ r, Request.decode .json placedFilms = some r ∧ Request.decode .json r.encode = some r ∧
        r.selection.map Selection.args = [[], [("b", .null), ("a", .int 2)]]) ∧
      ∃ rule, Rule.decode .json repeatedEditors = some rule ∧
        Rule.decode .json rule.encode = some rule ∧ rule.actions = [.read, .update] := by
  have hplaced : placedFilms.IsJson := by
    simp only [placedFilms, Doc.IsJson, Doc.MembersJson, Doc.ItemsJson, and_self]
  have hrepeated : repeatedEditors.IsJson := by
    simp only [repeatedEditors, Doc.IsJson, Doc.MembersJson, Doc.ItemsJson, and_self]
  have hrequest : Request.decode .json placedFilms = some
      { operation := .read, entity := "Film",
        selection := [.leaf "title",
          { name := "cast", responseName := "crew", args := [("b", .null), ("a", .int 2)] }] } := by
    rfl
  have hrule : Rule.decode .json repeatedEditors = some
      { kind := .validate, actions := [.read, .update], moments := Moment.all,
        needsAuthentication := true, node := none,
        claims := some (.record [("editor", .bool true)]) } := by
    rfl
  exact ⟨hplaced, hrepeated, ⟨_, hrequest, ((documents_restored hplaced).1 _ hrequest).2.1, rfl⟩,
    _, hrule, ((documents_restored hrepeated).2 _ hrule).2.1, rfl⟩

end GraphSelection
