import GraphSelection.Proofs.Closed
import GraphSelection.Proofs.Spelled.Documents

/-!
Objects of conditions, entry by entry. What is left of a key that is unfolded is not unfolded any
further, and neither it nor the key has a meaning of its own; so fields that are apart before keys
are unfolded are apart after it. Fields are noted once when no two keys are about one field. While
they are, noting them refuses nothing, and the object is read to what its entries are read to one by
one.
-/
namespace GraphSelection.Resolve

open GraphSelection Plan

section Endings

/-- What the keys end in that are unfolded. -/
def unfoldedEndings : List String :=
  (comparisonSpellings ++ quantifierSpellings ++ measureSpellings).map Prod.fst

theorem unfoldedEndings_suffix : ∀ ending ∈ unfoldedEndings, ending ∈ suffixes := by decide

theorem connection_stays : ∀ ending ∈ unfoldedEndings, Apart "Connection" ending := by decide

theorem count_stays : ∀ ending ∈ unfoldedEndings, ¬ EndsIn "count" ending := by decide

variable {schema : Schema} {vocabulary : Vocabulary} {key base : String} {inner : List String}

theorem Unfolds.ends (h : Unfolds schema vocabulary key base inner) :
    ∃ ending ∈ unfoldedEndings, EndsIn key ending := by
  have hcomparison : ∀ p ∈ comparisonSpellings, p.1 ∈ unfoldedEndings := by decide
  have hquantifier : ∀ p ∈ quantifierSpellings, p.1 ∈ unfoldedEndings := by decide
  have hmeasure : ∀ p ∈ measureSpellings, p.1 ∈ unfoldedEndings := by decide
  induction h with
  | compared _ hspelling => exact ⟨_, hcomparison _ hspelling, endsIn_append _ _⟩
  | claimed hspelling => exact ⟨_, hcomparison _ hspelling, endsIn_append _ _⟩
  | quantified _ hspelling => exact ⟨_, hquantifier _ hspelling, endsIn_append _ _⟩
  | connected _ hspelling => exact ⟨_, hquantifier _ hspelling, endsIn_append _ _⟩
  | counted hspelling => exact ⟨_, hmeasure _ hspelling, endsIn_append _ _⟩
  | reduced _ _ hspelling => exact ⟨_, hmeasure _ hspelling, endsIn_append _ _⟩
  | foreign _ _ _ ih => exact ih

theorem CleanName.stays (h : CleanName key) : ¬ Unfolds schema vocabulary key base inner := by
  intro hunfolds
  obtain ⟨ending, hmem, hends⟩ := hunfolds.ends
  exact h.ending ending (unfoldedEndings_suffix ending hmem) hends

variable (hclean : CleanNames schema)
include hclean

/-- What is left of a key is a clean name, a connection or the count. -/
theorem Unfolds.base_cases (h : Unfolds schema vocabulary key base inner)
    (hclaims : vocabulary = .claims → CleanName base) :
    CleanName base ∨ (∃ f, base = f ++ "Connection") ∨ base = "count" := by
  induction h with
  | compared hf _ => exact .inl (hclean.attributes _ hf)
  | claimed _ => exact .inl (hclaims rfl)
  | quantified hf _ => exact .inl (hclean.relationships _ hf)
  | connected _ _ => exact .inr (.inl ⟨_, rfl⟩)
  | counted _ => exact .inr (.inr rfl)
  | reduced hf _ _ => exact .inl (hclean.attributes _ hf)
  | foreign _ _ _ ih => exact ih (by simp)

theorem Unfolds.base_stays (h : Unfolds schema vocabulary key base inner)
    (hclaims : vocabulary = .claims → CleanName base) {field : String} {inner' : List String} :
    ¬ Unfolds schema vocabulary base field inner' := by
  intro hagain
  obtain ⟨ending, hmem, hends⟩ := hagain.ends
  rcases h.base_cases hclean hclaims with hbase | ⟨f, rfl⟩ | rfl
  · exact hbase.stays hagain
  · exact (connection_stays ending hmem).not_endsIn f hends
  · exact count_stays ending hmem hends

/-- What is left of a key is about no other field than the key. -/
theorem Unfolds.about (h : Unfolds schema vocabulary key base inner)
    (hclaims : vocabulary = .claims → CleanName base) {field : String}
    (hfield : About schema vocabulary base field) : About schema vocabulary key field := by
  rcases hfield with rfl | ⟨inner', hagain⟩
  · exact .inr ⟨inner, h⟩
  · exact absurd hagain (h.base_stays hclean hclaims)

end Endings

section Reserved

variable {schema : Schema} (hclean : CleanNames schema) {vocabulary : Vocabulary}
  {key base : String} {inner : List String}
include hclean

/-- Keys with a meaning of their own are neither unfolded nor left of a key. -/
theorem Unfolds.unreserved (h : Unfolds schema vocabulary key base inner)
    (hclaims : vocabulary = .claims → CleanName base) :
    key ∉ reservedKeys ∧ base ∉ reservedKeys := by
  constructor
  · intro hreserved
    obtain ⟨ending, hmem, hends⟩ := h.ends
    exact reserved_plain key hreserved ending (unfoldedEndings_suffix ending hmem) hends
  · intro hreserved
    rcases h.base_cases hclean hclaims with hbase | ⟨f, rfl⟩ | rfl
    · exact hbase.reserved hreserved
    · exact reserved_plain _ hreserved _ connection_suffix (endsIn_append f "Connection")
    · exact absurd hreserved (by decide)

theorem Unfolds.no_connective (h : Unfolds schema vocabulary key base inner)
    (hclaims : vocabulary = .claims → CleanName base) :
    key ∉ connectives ∧ base ∉ connectives := by
  obtain ⟨hkey, hbase⟩ := h.unreserved hclean hclaims
  exact ⟨fun hmem => hkey (connectives_reserved key hmem),
    fun hmem => hbase (connectives_reserved base hmem)⟩

theorem Unfolds.no_quantifier (h : Unfolds schema vocabulary key base inner)
    (hclaims : vocabulary = .claims → CleanName base) :
    Quantifier.ofGeneric? key = none ∧ Quantifier.ofGeneric? base = none := by
  have hnone : ∀ {name : String}, name ∉ reservedKeys → Quantifier.ofGeneric? name = none := by
    intro name hname
    have hall : ∀ entry ∈ Quantifier.generic, entry.1 ∈ reservedKeys := by decide
    refine List.lookup_eq_none_iff.mpr fun entry hentry => bne_iff_ne.mpr fun heq => hname ?_
    exact heq ▸ hall entry hentry
  obtain ⟨hkey, hbase⟩ := h.unreserved hclean hclaims
  exact ⟨hnone hkey, hnone hbase⟩

theorem untouched_typename : Untouched schema .fields "typename" := by
  intro key base inner h
  obtain ⟨hkey, hbase⟩ := h.unreserved hclean (by simp)
  have hreserved : "typename" ∈ reservedKeys := by decide
  exact ⟨fun heq => hkey (heq ▸ hreserved), fun heq => hbase (heq ▸ hreserved)⟩

/-- The only comparison that the key could be is one of `typename`. -/
theorem untouched_typenames : Untouched schema .fields "typename_IN" := by
  have hends : EndsIn "typename_IN" "_IN" := by decide
  have hcomparison : dropAny "typename_IN" Comparison.endings = some ("typename", .isIn) := by
    decide
  have hquantifier : dropAny "typename_IN" Quantifier.endings = none := by decide
  have hconnection : Text.dropEnd? "typename_IN" "Connection" = none := by decide
  have hsuffix : "_IN" ∈ suffixes := by decide
  intro key base inner h
  constructor
  -- As a key it would be unfolded to `typename`, which is reserved; nothing that is left of a key
  -- ends in a comparison.
  · rintro rfl
    generalize hkey : "typename_IN" = key at h
    cases h with
    | compared hf hspelling =>
      obtain ⟨_, hending, _⟩ := comparison_of_spelling hspelling
      rw [hkey, dropAny_append distinct_comparisons hending] at hcomparison
      cases hcomparison
      exact (hclean.attributes _ hf).reserved (by decide)
    | quantified _ hspelling =>
      obtain ⟨_, hending, _⟩ := quantifier_of_spelling hspelling
      rw [hkey, dropAny_append distinct_quantifiers hending] at hquantifier
      cases hquantifier
    | connected _ hspelling =>
      obtain ⟨_, hending, _⟩ := quantifier_of_spelling hspelling
      rw [hkey, dropAny_append distinct_quantifiers hending] at hquantifier
      cases hquantifier
  · rintro rfl
    rcases h.base_cases hclean (by simp) with hbase | ⟨f, hf⟩ | hcount
    · exact hbase.ending _ hsuffix hends
    · rw [hf, dropEnd?_append] at hconnection
      cases hconnection
    · exact absurd hcount (by decide)

end Reserved

section Apart

theorem exists_of_forall₂ {α β : Type} {R : α → β → Prop} {xs : List α} {ys : List β}
    (h : List.Forall₂ R xs ys) {y : β} (hy : y ∈ ys) : ∃ x ∈ xs, R x y := by
  induction h with
  | nil => cases hy
  | @cons x first xs ys hr _ ih =>
    rcases List.mem_cons.mp hy with rfl | hy
    · exact ⟨x, List.mem_cons_self, hr⟩
    · obtain ⟨x', hx', hr'⟩ := ih hy
      exact ⟨x', List.mem_cons_of_mem _ hx', hr'⟩

variable {schema : Schema} {p : Place} {whole members members' : Doc.Members}

/-- Fields stay apart when keys are unfolded. -/
theorem FieldsApart.respelled (hclean : CleanNames schema)
    (h : FieldsApart schema (p.vocabulary schema) members)
    (hentries : List.Forall₂ (EntryRespelled schema p whole) members members') :
    FieldsApart schema (p.vocabulary schema) members' := by
  have habout : ∀ {e e' : String × Doc}, EntryRespelled schema p whole e e' → ∀ {field : String},
      About schema (p.vocabulary schema) e'.1 field →
        About schema (p.vocabulary schema) e.1 field := by
    intro e e' he field hfield
    cases he with
    | kept => exact hfield
    | unfolded hunfolds hclaims _ => exact hunfolds.about hclean hclaims hfield
  induction hentries with
  | nil => exact List.Pairwise.nil
  | @cons e e' rest rest' he hrest ih =>
    obtain ⟨hfirst, hothers⟩ := List.pairwise_cons.mp h
    refine List.pairwise_cons.mpr ⟨fun other' hother' field hfield hfield' => ?_, ih hothers⟩
    obtain ⟨other, hother, hentry⟩ := exists_of_forall₂ hrest hother'
    exact hfirst other hother field (habout he hfield) (habout hentry hfield')

end Apart

/-- The field that is noted for an entry. -/
def Reader.noted (r : Reader) (keys : Keys) (e : String × Doc) : Option String :=
  (r.spelled keys e.1 e.2).map Prod.fst

section Noting

variable {α : Type} {seen : Entries Spelling} {spelled : Option (String × Spelling)}

/-- A field that has not been noted yet may be spelled in any way. -/
theorem noting_new (hnew : ∀ field ∈ spelled.map Prod.fst, seen.get? field = none) (path : String)
    (outcome : Result α) :
    noting spelled path outcome seen = outcome.map fun a => (a, seen ++ spelled.toList) := by
  cases spelled with
  | none =>
    cases outcome <;> simp [noting, liftM, monadLift, MonadLift.monadLift, StateT.lift, bind,
      Except.bind, pure, Except.pure, Except.map]
  | some pair =>
    obtain ⟨field, spelling⟩ := pair
    have hfield : seen.get? field = none := hnew field rfl
    have hnote : note field spelling path seen = .ok ((), seen ++ [(field, spelling)]) := by
      simp only [note, hfield]
    change (note field spelling path seen >>= fun p => (liftM outcome : Keyed α) p.2) = _
    rw [hnote]
    cases outcome <;> rfl

end Noting

namespace Reader

variable {r : Reader} {keys : Keys}

/-- Entries of different fields are read one by one. -/
theorem entries_outcomes (below : Level) (path : String) {members : Doc.Members}
    {seen : Entries Spelling} (hnodup : (members.filterMap (r.noted keys)).Nodup)
    (hnew : ∀ field ∈ members.filterMap (r.noted keys), seen.get? field = none) :
    (r.entries below keys path members seen).map Prod.fst =
      (members.mapM fun e => r.outcome below keys path e.1 e.2).map List.flatten := by
  induction members generalizing seen with
  | nil => rfl
  | cons e rest ih =>
    obtain ⟨key, value⟩ := e
    have hfirst : ∀ field ∈ (r.spelled keys key value).map Prod.fst, seen.get? field = none :=
      fun field hfield => hnew field (List.mem_filterMap.mpr ⟨_, List.mem_cons_self, hfield⟩)
    have hentry := noting_new hfirst (childPath path key) (r.outcome below keys path key value)
    have hrest : ∀ field ∈ rest.filterMap (r.noted keys),
        Entries.get? (seen ++ (r.spelled keys key value).toList) field = none := by
      intro field hfield
      obtain ⟨e, he, hnoted⟩ := List.mem_filterMap.mp hfield
      rw [Entries.get?_append,
        hnew field (List.mem_filterMap.mpr ⟨e, List.mem_cons_of_mem _ he, hnoted⟩), Option.none_or]
      cases hspelled : r.spelled keys key value with
      | none => rfl
      | some pair =>
        obtain ⟨first, spelling⟩ := pair
        have hhead : r.noted keys (key, value) = some first := by
          simp only [noted, hspelled, Option.map_some]
        rw [List.filterMap_cons_some hhead, List.nodup_cons] at hnodup
        have hne : (field == first) = false :=
          beq_false_of_ne fun heq => hnodup.1 (heq ▸ hfield)
        simp only [Option.toList, Entries.get?, List.lookup_cons, hne, List.lookup_nil]
    -- What the first entry has noted is no field of the others, so they are as new as before.
    have hih := ih (hnodup.sublist ((List.sublist_cons_self _ rest).filterMap _)) hrest
    have hrun : r.entries below keys path ((key, value) :: rest) seen =
        (r.outcome below keys path key value >>= fun cs =>
          r.entries below keys path rest (seen ++ (r.spelled keys key value).toList) >>= fun p =>
            .ok (cs ++ p.1, p.2)) := by
      change (r.entry below keys path key value seen >>= fun p =>
        r.entries below keys path rest p.2 >>= fun q => .ok (p.1 ++ q.1, q.2)) = _
      rw [entry_eq, hentry]
      cases r.outcome below keys path key value <;> rfl
    rw [hrun, List.mapM_cons]
    cases r.outcome below keys path key value with
    | error f => rfl
    | ok cs =>
      generalize r.entries below keys path rest _ = run at hih ⊢
      generalize (rest.mapM fun e => r.outcome below keys path e.1 e.2) = outcomes at hih ⊢
      cases run with
      | error f =>
        cases outcomes with
        | error f' => exact hih
        | ok css => cases hih
      | ok p =>
        cases outcomes with
        | error f' => cases hih
        | ok css =>
          have hparts : p.1 = css.flatten := Except.ok.inj hih
          exact congrArg Except.ok (by rw [List.flatten_cons, hparts])

/-- An object in which no field is noted twice. -/
theorem conditionAt_outcomes (r : Reader) (d : Nat) (path : String) {members : Doc.Members}
    (hnodup : (members.filterMap (r.noted keys)).Nodup) :
    r.conditionAt (d + 1) keys members path =
      (members.mapM fun e => r.outcome (r.conditionAt d) keys path e.1 e.2).map
        (Condition.allOf ∘ List.flatten) := by
  have hentries : (r.entries (r.conditionAt d) keys path members []).map Prod.fst =
      (members.mapM fun e => r.outcome (r.conditionAt d) keys path e.1 e.2).map List.flatten :=
    entries_outcomes (r.conditionAt d) path hnodup fun _ _ => rfl
  have hrun : r.conditionAt (d + 1) keys members path =
      ((r.entries (r.conditionAt d) keys path members []).map Prod.fst).map Condition.allOf := by
    change (r.entries (r.conditionAt d) keys path members [] >>= fun p =>
      .ok (Condition.allOf p.1)) = _
    cases r.entries (r.conditionAt d) keys path members [] <;> rfl
  rw [hrun, hentries]
  generalize (members.mapM fun e => r.outcome (r.conditionAt d) keys path e.1 e.2) = outcomes
  cases outcomes <;> rfl

end Reader

section About

variable {schema : Schema} {keys : Keys} {key field : String} {value : Doc} {spelling : Spelling}

theorem comparison_spelling {ending : String} {op : Comparison}
    (h : (ending, op) ∈ Comparison.endings) : ∃ name, (ending, name) ∈ comparisonSpellings := by
  have hall : ∀ e ∈ Comparison.endings, e.1 ∈ comparisonSpellings.map Prod.fst := by decide
  obtain ⟨⟨_, name⟩, hmem, rfl⟩ := List.mem_map.mp (hall _ h)
  exact ⟨name, hmem⟩

theorem quantifier_spelling {ending : String} {q : Quantifier}
    (h : (ending, q) ∈ Quantifier.endings) : ∃ name, (ending, name) ∈ quantifierSpellings := by
  have hall : ∀ e ∈ Quantifier.endings, e.1 ∈ quantifierSpellings.map Prod.fst := by decide
  obtain ⟨⟨_, name⟩, hmem, rfl⟩ := List.mem_map.mp (hall _ h)
  exact ⟨name, hmem⟩

theorem comparedForm_about (hdeclared : keys.Declared schema)
    (h : (keys.comparedForm key).spelled key value = some (field, spelling)) :
    About schema .fields key field := by
  cases hending : dropAny key Comparison.endings with
  | none =>
    rw [comparedForm_none hending] at h
    cases h
  | some found =>
    obtain ⟨base, op⟩ := found
    rw [comparedForm_some hending] at h
    cases hattribute : keys.attribute? base with
    | none =>
      rw [hattribute] at h
      cases h
    | some found =>
      rw [hattribute] at h
      cases h
      obtain ⟨ending, hmem, rfl⟩ := dropAny_eq_some hending
      obtain ⟨name, hspelling⟩ := comparison_spelling hmem
      exact .inr ⟨_, .compared (hdeclared.attribute hattribute) hspelling⟩

theorem variantForm_about (hdeclared : keys.Declared schema) {form : KeyForm}
    (hform : keys.variantForm? key = some form)
    (h : form.spelled key value = some (field, spelling)) : About schema .fields key field := by
  cases keys with
  | claims => cases hform
  | edge p => cases hform
  | node e =>
    have hnames : ∀ {x : String} {r : Relationship}, e.relationship? x = some r →
        x ∈ relationshipNames schema := by
      intro x r hfound
      exact hdeclared.relationship (show (Keys.node e).relationship? x = some r from hfound)
    simp only [Keys.variantForm?, variantForm?] at hform
    cases hquantifier : dropAny key Quantifier.endings with
    | some found =>
      obtain ⟨base, q⟩ := found
      obtain ⟨ending, hmem, rfl⟩ := dropAny_eq_some hquantifier
      obtain ⟨name, hspelling⟩ := quantifier_spelling hmem
      simp only [hquantifier, Option.map_some, Option.getD_some] at hform
      cases hbase : e.relationship? base with
      | some r =>
        simp only [hbase, Option.some.injEq] at hform
        subst hform
        cases h
        exact .inr ⟨_, .quantified (hnames hbase) hspelling⟩
      | none =>
        cases hconnection : (Text.dropEnd? base "Connection").bind e.relationship? with
        | none => simp only [hbase, hconnection, reduceCtorEq] at hform
        | some r =>
          simp only [hbase, hconnection, Option.some.injEq] at hform
          subst hform
          cases h
          obtain ⟨x, hx, hr⟩ := Option.bind_eq_some_iff.mp hconnection
          obtain rfl := dropEnd?_eq_some hx
          exact .inr ⟨_, .connected (hnames hr) hspelling⟩
    | none =>
      simp only [hquantifier, Option.map_none, Option.getD_none] at hform
      cases hconnection : (Text.dropEnd? key "Connection").bind e.relationship? with
      | some r =>
        simp only [hconnection, Option.some.injEq] at hform
        subst hform
        obtain ⟨_, _, heq⟩ := Option.map_eq_some_iff.mp h
        cases heq
        exact .inl rfl
      | none =>
        simp only [hconnection, Option.map_eq_some_iff] at hform
        obtain ⟨r, _, rfl⟩ := hform
        cases h

/-- A field that is noted for a key is one that the key is about. -/
theorem form_about (hdeclared : keys.Declared schema) (r : Reader)
    (h : (r.form keys key).spelled key value = some (field, spelling)) :
    About schema ((Place.object keys).vocabulary schema) key field := by
  have hown : ∀ {sort : Option Spelling} {x : Spelling},
      (sort.map fun spelling => (key, spelling)) = some (field, x) → field = key := by
    intro sort x heq
    obtain ⟨_, _, hpair⟩ := Option.map_eq_some_iff.mp heq
    exact (congrArg Prod.fst hpair).symm
  cases keys with
  | claims =>
    simp only [Reader.form] at h
    cases hending : dropAny key Comparison.endings with
    | none =>
      rw [hending] at h
      exact .inl (hown h)
    | some found =>
      obtain ⟨base, op⟩ := found
      rw [hending] at h
      cases h
      obtain ⟨ending, hmem, rfl⟩ := dropAny_eq_some hending
      obtain ⟨name, hspelling⟩ := comparison_spelling hmem
      exact .inr ⟨_, .claimed hspelling⟩
  | edge p =>
    simp only [Reader.form] at h
    cases hattribute : (Keys.edge p).attribute? key with
    | some found =>
      rw [hattribute] at h
      exact .inl (hown h)
    | none =>
      rw [hattribute] at h
      exact comparedForm_about hdeclared h
  | node e =>
    simp only [Reader.form] at h
    cases hattribute : (Keys.node e).attribute? key with
    | some found =>
      rw [hattribute] at h
      exact .inl (hown h)
    | none =>
      rw [hattribute] at h
      cases hrelationship : e.relationship? key with
      | some relationship =>
        simp only [hrelationship] at h
        exact .inl (hown h)
      | none =>
        simp only [hrelationship] at h
        cases hvariant : variantForm? e key with
        | some form =>
          rw [hvariant] at h
          exact variantForm_about hdeclared hvariant h
        | none =>
          rw [hvariant] at h
          exact comparedForm_about hdeclared h

theorem noted_about (hdeclared : keys.Declared schema) {r : Reader} {e : String × Doc}
    (h : r.noted keys e = some field) :
    About schema ((Place.object keys).vocabulary schema) e.1 field := by
  obtain ⟨⟨field', spelling⟩, hspelled, rfl⟩ := Option.map_eq_some_iff.mp h
  by_cases hkey : e.1 ∈ connectives
  · simp only [connectives, List.mem_cons, List.not_mem_nil, or_false] at hkey
    obtain ⟨key, value⟩ := e
    rcases hkey with rfl | rfl | rfl <;> cases hspelled
  · rw [Reader.spelled_of_field hkey] at hspelled
    exact form_about hdeclared r hspelled

/-- Where no two keys are about one field, none is noted twice. -/
theorem FieldsApart.noted_nodup (hdeclared : keys.Declared schema) (r : Reader)
    {members : Doc.Members}
    (h : FieldsApart schema ((Place.object keys).vocabulary schema) members) :
    (members.filterMap (r.noted keys)).Nodup := by
  refine List.Pairwise.filterMap _ (fun e e' hapart field hfield field' hfield' heq => ?_) h
  subst heq
  exact hapart field (noted_about hdeclared hfield) (noted_about hdeclared hfield')

end About

end GraphSelection.Resolve
