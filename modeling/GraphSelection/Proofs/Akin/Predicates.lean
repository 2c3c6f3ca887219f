import GraphSelection.Proofs.Agreement
import GraphSelection.Proofs.Akin.Plans
import GraphSelection.Proofs.Alike.Programs
import GraphSelection.Proofs.Written

/-!
Predicates of kindred conditions are built alike. The keys under which calls are known may differ,
since they hold the values of aggregations; but where values are replaced faithfully, a key is
known in one run just when its counterpart is known in the other.
-/
namespace GraphSelection.Program

open GraphSelection Cypher Plan

section Keys

/-- The text of an aggregation key up to the value. -/
def aggregationStem (subject : String) (r : Relationship) (m : Measure) (op : Comparison) :
    String :=
  "aggregate:" ++ subject ++ ":" ++ r.name ++ ":" ++ m.key ++ ":" ++ op.name ++ ":"

theorem name_letter (op : Comparison) :
    ∃ start letter, Char.isAlpha letter ∧ op.name.toList = start ++ [letter] := by
  refine ⟨op.name.toList.dropLast, op.name.toList.getLastD ' ', ?_⟩
  cases op <;> decide

theorem marked_name (head : String) (op : Comparison) :
    Json.Marked (head ++ op.name ++ ":").toList := by
  obtain ⟨start, letter, hletter, hname⟩ := name_letter op
  refine ⟨head.toList ++ start, letter, hletter, ?_⟩
  rw [String.toList_append, String.toList_append, hname]
  simp only [List.append_assoc]
  rfl

theorem marked_stem (subject : String) (r : Relationship) (m : Measure) (op : Comparison) :
    Json.Marked (aggregationStem subject r m op).toList := marked_name _ op

/-- Keys of one call in two runs: the values of aggregations are related. -/
inductive KeyAkin (R : Doc → Doc → Prop) : String → String → Prop
  | computed (subject : String) (a : Attribute) :
      KeyAkin R (computedKey subject a) (computedKey subject a)
  | aggregation (subject : String) (r : Relationship) (m : Measure) (op : Comparison)
      {v v' : Doc} (h : R v v') :
      KeyAkin R (aggregationStem subject r m op ++ Json.compact v)
        (aggregationStem subject r m op ++ Json.compact v')

theorem head_append {c : Char} {start : String} (h : start.toList.head? = some c) (rest : String) :
    (start ++ rest).toList.head? = some c := by
  rw [String.toList_append, List.head?_append, h]
  rfl

/-- The two kinds of keys begin differently. -/
theorem computedKey_ne {subject subject' : String} {a : Attribute} {r : Relationship}
    {m : Measure} {op : Comparison} {v : Doc} :
    computedKey subject a ≠ aggregationStem subject' r m op ++ Json.compact v := by
  intro h
  have hcomputed : (computedKey subject a).toList.head? = some 'c' := by
    unfold computedKey
    iterate 3 refine head_append ?_ _
    decide
  have haggregate : (aggregationStem subject' r m op ++ Json.compact v).toList.head? =
      some 'a' := by
    unfold aggregationStem
    iterate 9 refine head_append ?_ _
    decide
  rw [h, haggregate] at hcomputed
  exact absurd hcomputed (by decide)

variable {R : Doc → Doc → Prop} {k k' l l' : String}

/-- Two keys are equal just when their counterparts are. -/
theorem KeyAkin.eq_iff (hfaithful : Faithful R) (hk : KeyAkin R k k') (hl : KeyAkin R l l') :
    k = l ↔ k' = l' := by
  cases hk with
  | computed subject a =>
    cases hl with
    | computed subject' a' => exact Iff.rfl
    | aggregation subject' r m op hv =>
      exact iff_of_false computedKey_ne computedKey_ne
  | aggregation subject r m op hv =>
    cases hl with
    | computed subject' a' =>
      exact iff_of_false computedKey_ne.symm computedKey_ne.symm
    | aggregation subject' r' m' op' hw =>
      have hsplit : ∀ v w : Doc,
          aggregationStem subject r m op ++ Json.compact v =
            aggregationStem subject' r' m' op' ++ Json.compact w ↔
          aggregationStem subject r m op = aggregationStem subject' r' m' op' ∧
            Json.compact v = Json.compact w := by
        intro v w
        constructor
        · intro h
          have hlists := congrArg String.toList h
          rw [String.toList_append, String.toList_append] at hlists
          have hparts := Json.marked_unique (marked_stem ..) (marked_stem ..) hlists
          exact ⟨String.toList_inj.mp hparts.1, String.toList_inj.mp hparts.2⟩
        · rintro ⟨hstem, hvalue⟩
          rw [hstem, hvalue]
      rw [hsplit, hsplit, hfaithful _ _ _ _ hv hw]

end Keys

section Runs

variable {α β γ δ : Type}

/-- Runs from supplies of one shape fail alike, or end in one shape with related results. -/
def AlikeBy (S : α → β → Prop) (x : Build α) (y : Build β) : Prop :=
  ∀ s t, s.shape = t.shape →
    Agree (fun p q => S p.1 q.1 ∧ p.2.shape = q.2.shape) (x s) (y t)

theorem AlikeBy.alike {x y : Build α} (h : AlikeBy Eq x y) : Alike x y := by
  intro s t hst
  have hagree := h s t hst
  generalize x s = outcome at hagree ⊢
  generalize y t = outcome' at hagree ⊢
  cases hagree with
  | fault e => rfl
  | @ok p q hr =>
    obtain ⟨hresult, hshape⟩ := hr
    simp only [shown, Except.map, hresult, hshape]

theorem Alike.runs {x y : Build α} (h : Alike x y) : AlikeBy Eq x y := by
  intro s t hst
  have hshown := h s t hst
  generalize x s = outcome at hshown ⊢
  generalize y t = outcome' at hshown ⊢
  cases outcome with
  | error e =>
    cases outcome' with
    | error e' =>
      cases hshown
      exact .fault e
    | ok q => cases hshown
  | ok p =>
    cases outcome' with
    | error e' => cases hshown
    | ok q =>
      obtain ⟨hresult, hshape⟩ := Prod.mk.inj (Except.ok.inj hshown)
      exact .ok ⟨hresult, hshape⟩

theorem AlikeBy.bind {S : α → β → Prop} {T : γ → δ → Prop} {x : Build α} {y : Build β}
    {f : α → Build γ} {f' : β → Build δ} (hx : AlikeBy S x y)
    (hf : ∀ a b, S a b → AlikeBy T (f a) (f' b)) : AlikeBy T (x >>= f) (y >>= f') :=
  fun s t hst => Agree.bind (hx s t hst) fun p q hpq => hf p.1 q.1 hpq.1 p.2 q.2 hpq.2

theorem AlikeBy.pure {S : α → β → Prop} {a : α} {b : β} (h : S a b) :
    AlikeBy S (pure a : Build α) (Pure.pure b) :=
  fun _ _ hst => .ok ⟨h, hst⟩

end Runs

section Predicates

variable {α β γ δ : Type} {R : Doc → Doc → Prop}

/-- The same calls, known under keys that correspond. -/
structure KnownAkin (R : Doc → Doc → Prop) (q q' : Subqueries) : Prop where
  calls : q.calls = q'.calls
  known : List.Forall₂ (fun e e' => KeyAkin R e.1 e'.1 ∧ e.2 = e'.2) q.known q'.known

/-- Predicates that are built alike with related results, and leave calls that correspond. -/
def AkinBy (R : Doc → Doc → Prop) (S : α → β → Prop) (x : Predicate α) (y : Predicate β) : Prop :=
  ∀ q q', KnownAkin R q q' →
    AlikeBy (fun p p' => S p.1 p'.1 ∧ KnownAkin R p.2 p'.2) (x q) (y q')

theorem AkinBy.bind {S : α → β → Prop} {T : γ → δ → Prop} {x : Predicate α} {y : Predicate β}
    {f : α → Predicate γ} {g : β → Predicate δ} (hx : AkinBy R S x y)
    (hf : ∀ a b, S a b → AkinBy R T (f a) (g b)) : AkinBy R T (x >>= f) (y >>= g) := by
  intro q q' hq
  change AlikeBy _ (x q >>= fun p => f p.1 p.2) (y q' >>= fun p => g p.1 p.2)
  exact .bind (hx q q' hq) fun p p' hp => hf p.1 p'.1 hp.1 p.2 p'.2 hp.2

/-- Predicates that are built alike, and leave calls that correspond. -/
abbrev AkinIn (R : Doc → Doc → Prop) (x y : Predicate α) : Prop := AkinBy R Eq x y

namespace AkinIn

theorem pure (a : α) : AkinIn R (pure a : Predicate α) (Pure.pure a) :=
  fun _ _ hq => .pure ⟨rfl, hq⟩

theorem bind {x y : Predicate α} {f g : α → Predicate β} (hx : AkinIn R x y)
    (hf : ∀ a, AkinIn R (f a) (g a)) : AkinIn R (x >>= f) (y >>= g) :=
  AkinBy.bind hx fun a _ hab => hab ▸ hf a

theorem lift {x y : Build α} (h : Alike x y) : AkinIn R (x : Predicate α) (y : Predicate α) := by
  intro q q' hq
  change AlikeBy _ (x >>= fun a => Pure.pure (a, q)) (y >>= fun a => Pure.pure (a, q'))
  exact .bind h.runs fun _ _ hab => .pure ⟨hab, hq⟩

theorem fault (x : Except Failure α) : AkinIn R (x : Predicate α) x := lift (.fault x)

theorem gathered {x y : Predicate α} (h : AkinIn R x y) :
    Alike (gathered x) (gathered y) := by
  refine AlikeBy.alike (AlikeBy.bind (h {} {} ⟨rfl, .nil⟩) fun p p' hp => .pure ?_)
  rw [hp.1, hp.2.calls]

theorem get?_known (hfaithful : Faithful R) {key key' : String} (hkey : KeyAkin R key key')
    {known known' : Entries String}
    (h : List.Forall₂ (fun e e' => KeyAkin R e.1 e'.1 ∧ e.2 = e'.2) known known') :
    known.get? key = known'.get? key' := by
  induction h with
  | nil => rfl
  | @cons e e' _ _ he _ ih =>
    obtain ⟨k, name⟩ := e
    obtain ⟨k', name'⟩ := e'
    obtain ⟨hk, rfl⟩ := he
    have hiff := hkey.eq_iff hfaithful hk
    simp only [Entries.get?] at ih
    simp only [Entries.get?, List.lookup_cons]
    by_cases heq : key = k
    · rw [beq_iff_eq.mpr heq, beq_iff_eq.mpr (hiff.mp heq)]
    · rw [beq_false_of_ne heq, beq_false_of_ne fun heq' => heq (hiff.mpr heq')]
      exact ih

/-- A call that is known in one run is known in the other; a new one gets the same name. -/
theorem shared (hfaithful : Faithful R) {key key' : String} (hkey : KeyAkin R key key')
    {call call' : String → Build Clause} (h : ∀ name, Alike (call name) (call' name)) :
    AkinIn R (Program.shared key call) (Program.shared key' call') := by
  have hget : AkinBy R (KnownAkin R) (get : Predicate Subqueries) get :=
    fun _ _ hq => .pure ⟨hq, hq⟩
  refine AkinBy.bind hget fun q q' hq => ?_
  rw [← get?_known hfaithful hkey hq.known]
  split
  · exact pure _
  · refine bind (lift (.fresh "var")) fun name => bind (lift (h name)) fun clause => ?_
    refine bind (fun own own' hown => .pure ⟨rfl, ?_, ?_⟩) fun _ => pure name
    · exact congrArg (· ++ [clause]) hown.calls
    · exact List.rel_append hown.known (.cons ⟨hkey, rfl⟩ .nil)

end AkinIn

end Predicates

section Conditions

variable {R : Doc → Doc → Prop}

-- Parts without values of requests are built alike for one principal, whoever it is.
theorem alike_same_computedCall (ctx : Context) (a : Attribute) (result : String) :
    Alike (computedCall ctx a result) (computedCall ctx a result) :=
  alike_computedCall (b := ctx.terms.authenticated) ctx a result

theorem alike_akin_operandExpr {o o' : Operand} (h : o.Akin o') (kind : Option ScalarKind)
    (op : Comparison) : Alike (operandExpr kind op o) (operandExpr kind op o') := by
  cases h with
  | literal v v' =>
    simp only [operandExpr]
    split
    · exact .bind (.bind (.param v v') fun _ => .pure _) fun _ => .pure _
    · exact .bind (.bind (.param v v') fun _ => .pure _) fun _ => .pure _
  | claim path value => exact alike_claimParam _ _

theorem akin_subjectExpr (hfaithful : Faithful R) (ctx : Context) (subject : Subject) :
    AkinIn R (subjectExpr ctx subject) (subjectExpr ctx subject) := by
  cases subject with
  | node a => exact .pure _
  | edge a => exact .bind (.fault ctx.edge) fun _ => .pure _
  | computed a =>
    exact .bind (.shared hfaithful (.computed ctx.subject a) (alike_same_computedCall ctx a))
      fun _ => .pure _
  | claim path value => exact .lift (alike_claimParam _ _)

theorem alike_akin_aggregationCall (ctx : Context) (r : Relationship) (target : Entity)
    (m : Measure) (op : Comparison) (v v' : Doc) (result : String) :
    Alike (aggregationCall ctx ⟨r, target, m, op, v⟩ result)
      (aggregationCall ctx ⟨r, target, m, op, v'⟩ result) := by
  refine .bind (.fresh "this") fun edge => .bind (.fresh "this") fun node => ?_
  refine .bind (.fault _) fun reduced => ?_
  exact .bind (.bind (.param v v') fun _ => .pure _) fun _ => .pure _

theorem targetLabels_akin (isComposite : Bool) {targets targets' : List (Entity × Option Condition)}
    (h : Condition.TargetsAkin R targets targets') :
    targetLabels isComposite targets = targetLabels isComposite targets' := by
  cases h with
  | nil => rfl
  | cons e _ _ => cases isComposite <;> rfl

mutual
theorem akin_predicate {R : Doc → Doc → Prop} (hfaithful : Faithful R) (ctx : Context)
    (c c' : Condition) (h : Condition.Akin R c c') :
    AkinIn R (Condition.predicate ctx c) (Condition.predicate ctx c') := by
  match c with
  | .all items =>
    cases h with
    | all hitems => exact .bind (akin_predicates hfaithful ctx items _ hitems) fun _ => .pure _
  | .any items =>
    cases h with
    | any hitems => exact .bind (akin_predicates hfaithful ctx items _ hitems) fun _ => .pure _
  | .not inner =>
    cases h with
    | not hinner => exact .bind (akin_predicate hfaithful ctx inner _ hinner) fun _ => .pure _
  | .compare subject op operand caseInsensitive =>
    cases h with
    | compare _ _ _ ho =>
      refine .bind (akin_subjectExpr hfaithful ctx subject) fun left => ?_
      exact .bind (.lift (alike_akin_operandExpr ho _ op)) fun _ => .pure _
  | .nullness subject isNull =>
    cases h with
    | nullness => exact .bind (akin_subjectExpr hfaithful ctx subject) fun _ => .pure _
  | .labels names =>
    cases h with
    | labels => exact .pure _
  | .related relationship quantifier targets isComposite edge =>
    cases h with
    | @related _ R' _ _ _ _ targets' _ edge' hown htargets hedge =>
      refine .bind (.lift (.fresh "this")) fun edgeName => ?_
      refine .bind (.lift (.fresh "this")) fun node => ?_
      let inner := ctx.enter node (some edgeName) ctx.result
      have hedge := akin_optionPredicate hown inner edge _ hedge
      refine .bind (.lift (AkinIn.gathered (R := R') ?_)) fun parts => ?_
      · cases isComposite with
        | true =>
          refine .bind (akin_alternatives hown inner targets _ htargets) fun _ => ?_
          exact .bind (.pure _) fun _ => .bind hedge fun _ => .pure _
        | false =>
          refine .bind (akin_firstTarget hown inner targets _ htargets) fun _ => ?_
          exact .bind hedge fun _ => .pure _
      · rw [targetLabels_akin isComposite htargets]
        exact .pure _
  | .aggregation ⟨r, target, m, op, v⟩ =>
    cases h with
    | aggregation _ _ _ _ hv =>
      refine .bind (.shared hfaithful (.aggregation ctx.subject r m op hv) ?_) fun _ => .pure _
      exact alike_akin_aggregationCall ctx r target m op v _
  | .authenticated =>
    cases h with
    | authenticated => exact .bind (.lift (.param _ _)) fun _ => .pure _
theorem akin_predicates {R : Doc → Doc → Prop} (hfaithful : Faithful R) (ctx : Context)
    (cs cs' : List Condition) (h : Condition.EachAkin R cs cs') :
    AkinIn R (Condition.predicates ctx cs) (Condition.predicates ctx cs') := by
  match cs with
  | [] =>
    cases h
    exact .pure []
  | c :: rest =>
    cases h with
    | cons hc hrest =>
      refine .bind (akin_predicate hfaithful ctx c _ hc) fun _ => ?_
      exact .bind (akin_predicates hfaithful ctx rest _ hrest) fun _ => .pure _
theorem akin_alternatives {R : Doc → Doc → Prop} (hfaithful : Faithful R) (ctx : Context)
    (targets targets' : List (Entity × Option Condition))
    (h : Condition.TargetsAkin R targets targets') :
    AkinIn R (Condition.alternatives ctx targets) (Condition.alternatives ctx targets') := by
  match targets with
  | [] =>
    cases h
    exact .pure []
  | (e, filter) :: rest =>
    cases h with
    | cons _ hfilter hrest =>
      refine .bind (akin_optionPredicate hfaithful ctx filter _ hfilter) fun _ => ?_
      exact .bind (akin_alternatives hfaithful ctx rest _ hrest) fun _ => .pure _
theorem akin_firstTarget {R : Doc → Doc → Prop} (hfaithful : Faithful R) (ctx : Context)
    (targets targets' : List (Entity × Option Condition))
    (h : Condition.TargetsAkin R targets targets') :
    AkinIn R (Condition.firstTarget ctx targets) (Condition.firstTarget ctx targets') := by
  match targets with
  | [] =>
    cases h
    exact .pure []
  | (e, filter) :: rest =>
    cases h with
    | cons _ hfilter _ => exact akin_optionPredicate hfaithful ctx filter _ hfilter
theorem akin_optionPredicate {R : Doc → Doc → Prop} (hfaithful : Faithful R) (ctx : Context)
    (c c' : Option Condition) (h : Condition.OptionAkin R c c') :
    AkinIn R (Condition.optionPredicate ctx c) (Condition.optionPredicate ctx c') := by
  match c with
  | none =>
    cases h
    exact .pure []
  | some c =>
    cases h with
    | some hc => exact .bind (akin_predicate hfaithful ctx c _ hc) fun _ => .pure _
end

end Conditions

end GraphSelection.Program
