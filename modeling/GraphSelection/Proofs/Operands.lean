import GraphSelection.Proofs.MissingClaims
import GraphSelection.Proofs.Mixed

/-!
Claims that a rule compares with. Text that names a claim stands for the claim wherever a rule
compares an attribute with it, at every depth: it is compiled to a parameter with the value of the
claim, beside the guard that the claim is there. What an aggregation is compared with is not read
for claims; there the text itself becomes the parameter. No other parameter of a rule is such text,
unless a claim has it as its value.
-/
namespace GraphSelection.Plan

/-- Text of this form names a claim. -/
def claimText (path : String) : Doc := .text ("$jwt." ++ path)

/-- Literal text that names a claim stands for the claim. -/
def Operand.resolvedBy (p : Principal) : Operand → Operand
  | .literal (.text s) =>
      match Text.dropStart? s "$jwt." with
      | some path => .claim path (p.claim? path)
      | none => .literal (.text s)
  | operand => operand

theorem dropStart?_claimText (path : String) :
    Text.dropStart? ("$jwt." ++ path) "$jwt." = some path := by
  simp [Text.dropStart?]

theorem Operand.resolvedBy_claimText (p : Principal) (path : String) :
    (Operand.literal (claimText path)).resolvedBy p = .claim path (p.claim? path) := by
  simp only [claimText, Operand.resolvedBy, dropStart?_claimText]

/-- What stays literal names no claim. -/
theorem Operand.resolvedBy_ne_claimText (p : Principal) (o : Operand) (path : String) :
    o.resolvedBy p ≠ .literal (claimText path) := by
  unfold Operand.resolvedBy
  split
  · split
    · simp
    · rename_i hnone
      intro h
      cases h
      rw [dropStart?_claimText] at hnone
      cases hnone
  · rename_i hother
    exact fun h => hother _ h

def Recast.resolving (p : Principal) : Recast := ⟨id, Operand.resolvedBy p⟩

mutual
/-- The conditions of a condition that hold no others, at every depth, in the order in which they
are compiled. -/
def Condition.atoms : Condition → List Condition
  | .all items => Condition.atomsOf items
  | .any items => Condition.atomsOf items
  | .not inner => inner.atoms
  | .related _ _ targets isComposite edge =>
      (if isComposite then Condition.targetAtoms targets else Condition.firstAtoms targets) ++
        Condition.optionAtoms edge
  | c => [c]
def Condition.atomsOf : List Condition → List Condition
  | [] => []
  | c :: rest => c.atoms ++ Condition.atomsOf rest
def Condition.targetAtoms : List (Entity × Option Condition) → List Condition
  | [] => []
  | (_, filter) :: rest => Condition.optionAtoms filter ++ Condition.targetAtoms rest
def Condition.firstAtoms : List (Entity × Option Condition) → List Condition
  | [] => []
  | (_, filter) :: _ => Condition.optionAtoms filter
def Condition.optionAtoms : Option Condition → List Condition
  | none => []
  | some c => c.atoms
end

section Atoms

variable (f : Recast)

mutual
theorem Condition.atoms_recast : (c : Condition) → (c.recast f).atoms = c.atoms.map (·.recast f)
  | .all items => Condition.atomsOf_recast items
  | .any items => Condition.atomsOf_recast items
  | .not inner => Condition.atoms_recast inner
  | .compare _ _ _ _ => rfl
  | .nullness _ _ => rfl
  | .labels _ => rfl
  | .related _ _ targets isComposite edge => by
    rw [Condition.recast, Condition.atoms, Condition.atoms, List.map_append,
      Condition.optionAtoms_recast edge]
    cases isComposite with
    | true => rw [if_pos rfl, if_pos rfl, Condition.targetAtoms_recast targets]
    | false =>
      rw [if_neg Bool.false_ne_true, if_neg Bool.false_ne_true, Condition.firstAtoms_recast targets]
  | .aggregation _ => rfl
  | .authenticated => rfl
theorem Condition.atomsOf_recast : (cs : List Condition) →
    Condition.atomsOf (Condition.eachRecast f cs) = (Condition.atomsOf cs).map (·.recast f)
  | [] => rfl
  | c :: rest => by
    rw [Condition.eachRecast, Condition.atomsOf, Condition.atomsOf, List.map_append,
      Condition.atoms_recast c, Condition.atomsOf_recast rest]
theorem Condition.targetAtoms_recast : (targets : List (Entity × Option Condition)) →
    Condition.targetAtoms (Condition.targetsRecast f targets) =
      (Condition.targetAtoms targets).map (·.recast f)
  | [] => rfl
  | (_, filter) :: rest => by
    rw [Condition.targetsRecast, Condition.targetAtoms, Condition.targetAtoms, List.map_append,
      Condition.optionAtoms_recast filter, Condition.targetAtoms_recast rest]
theorem Condition.firstAtoms_recast : (targets : List (Entity × Option Condition)) →
    Condition.firstAtoms (Condition.targetsRecast f targets) =
      (Condition.firstAtoms targets).map (·.recast f)
  | [] => rfl
  | (_, filter) :: _ => Condition.optionAtoms_recast filter
theorem Condition.optionAtoms_recast : (c : Option Condition) →
    Condition.optionAtoms (Condition.optionRecast f c) =
      (Condition.optionAtoms c).map (·.recast f)
  | none => rfl
  | some c => Condition.atoms_recast c
end

theorem Condition.atomsOf_eq (cs : List Condition) :
    Condition.atomsOf cs = cs.flatMap Condition.atoms := by
  induction cs with
  | nil => rfl
  | cons c rest ih => rw [Condition.atomsOf, ih, List.flatMap_cons]

theorem Condition.atoms_conjuncts (c : Condition) :
    c.conjuncts.flatMap Condition.atoms = c.atoms := by
  cases c with
  | all items => exact (Condition.atomsOf_eq items).symm
  | _ => simp [Condition.conjuncts]

/-- A conjunction has the atoms of its members. -/
theorem Condition.atoms_allOf (cs : List Condition) :
    Condition.optionAtoms (Condition.allOf cs) = cs.flatMap Condition.atoms := by
  have hflat : (cs.flatMap Condition.conjuncts).flatMap Condition.atoms =
      cs.flatMap Condition.atoms := by
    rw [List.flatMap_assoc]
    simp only [Condition.atoms_conjuncts]
  rw [← hflat]
  unfold Condition.allOf
  split
  · rename_i hnil
    rw [hnil]
    rfl
  · rename_i c hone
    rw [hone, Condition.optionAtoms, List.flatMap_cons, List.flatMap_nil, List.append_nil]
  · rw [Condition.optionAtoms, Condition.atoms, Condition.atomsOf_eq]

end Atoms

end GraphSelection.Plan

namespace GraphSelection.Resolve

open GraphSelection Plan

theorem operand_resolves (p : Principal) (value : Doc) :
    operand (.use p) value = (operand .ignore value).resolvedBy p := by
  cases value with
  | text s => rfl
  | _ => rfl

/-- With the claims of a principal a template is read as it is without them, but for the text that
names claims. -/
theorem ruled_resolves (s : Setup) (keys : Keys) (members : Doc.Members) (path : String) :
    s.ruled keys members path =
      Option.map (Condition.recast (.resolving s.principal)) <$>
        s.requested keys (some members) path := by
  have hread : Reader.Recasts (.resolving s.principal) ⟨s, true⟩ ⟨s, false⟩ :=
    ⟨rfl, operand_resolves s.principal, fun _ => rfl, fun _ _ _ _ _ => rfl⟩
  exact Reader.conditionAt_recast hread _ keys members path

end GraphSelection.Resolve

namespace GraphSelection.Program

open Cypher Plan

section Guarded

/-- The predicate of a match or of a `WITH`. -/
def predicate? : Clause → Option Expr
  | .matching _ _ predicate => predicate
  | .carry _ _ _ _ _ predicate => predicate
  | _ => none

/-- Somewhere in an expression, inside blocks too, a test stands in one conjunction with a guard. -/
inductive GuardedIn (guard test : Expr) : Expr → Prop
  | here {items : List Expr} (hguard : guard ∈ items) (htest : test ∈ items) :
      GuardedIn guard test (.all items)
  | all {items : List Expr} {e : Expr} (he : e ∈ items) (h : GuardedIn guard test e) :
      GuardedIn guard test (.all items)
  | any {items : List Expr} {e : Expr} (he : e ∈ items) (h : GuardedIn guard test e) :
      GuardedIn guard test (.any items)
  | not {e : Expr} (h : GuardedIn guard test e) : GuardedIn guard test (.not e)
  | existsIn {body : List Clause} {c : Clause} {p : Expr} (hc : c ∈ body)
      (hp : predicate? c = some p) (h : GuardedIn guard test p) :
      GuardedIn guard test (.existsIn body)
  | countIn {body : List Clause} {c : Clause} {p k : Expr} (hc : c ∈ body)
      (hp : predicate? c = some p) (h : GuardedIn guard test p) :
      GuardedIn guard test (.equals (.countIn body) k)

variable {guard test : Expr}

theorem guardedIn_flat {es : List Expr} (hne : guard ≠ test)
    (h : GuardedIn guard test (.all (es.flatMap Expr.conjuncts))) :
    ∃ whole, Expr.allOf es = some whole ∧ GuardedIn guard test whole := by
  unfold Expr.allOf
  split
  · rename_i hnil
    rw [hnil] at h
    cases h with
    | here hguard _ => cases hguard
    | all he _ => cases he
  · rename_i x hone
    rw [hone] at h
    refine ⟨x, rfl, ?_⟩
    cases h with
    | here hguard htest =>
      rw [List.mem_singleton] at hguard htest
      exact absurd (hguard.trans htest.symm) hne
    | all he h => exact List.mem_singleton.mp he ▸ h
  · exact ⟨_, rfl, h⟩

/-- Conjunctions are taken apart and put together with the guards in them. -/
theorem GuardedIn.allOf {es : List Expr} {e : Expr} (hne : guard ≠ test) (he : e ∈ es)
    (h : GuardedIn guard test e) :
    ∃ whole, Expr.allOf es = some whole ∧ GuardedIn guard test whole := by
  have hmem : ∀ x ∈ e.conjuncts, x ∈ es.flatMap Expr.conjuncts :=
    fun x hx => List.mem_flatMap.mpr ⟨e, he, hx⟩
  refine guardedIn_flat hne ?_
  cases h with
  | here hguard htest => exact .here (hmem _ hguard) (hmem _ htest)
  | all hx h => exact .all (hmem _ hx) h
  | any hx h => exact .all (hmem _ List.mem_cons_self) (.any hx h)
  | not h => exact .all (hmem _ List.mem_cons_self) (.not h)
  | existsIn hc hp h => exact .all (hmem _ List.mem_cons_self) (.existsIn hc hp h)
  | countIn hc hp h => exact .all (hmem _ List.mem_cons_self) (.countIn hc hp h)

theorem GuardedIn.anyOf {es : List Expr} {e : Expr} (he : e ∈ es)
    (h : GuardedIn guard test e) :
    ∃ whole, Expr.anyOf es = some whole ∧ GuardedIn guard test whole := by
  have hmem : ∀ x ∈ e.disjuncts, x ∈ es.flatMap Expr.disjuncts :=
    fun x hx => List.mem_flatMap.mpr ⟨e, he, hx⟩
  have hflat : ∃ x ∈ es.flatMap Expr.disjuncts, GuardedIn guard test x := by
    cases h with
    | here hguard htest => exact ⟨_, hmem _ List.mem_cons_self, .here hguard htest⟩
    | all hx h => exact ⟨_, hmem _ List.mem_cons_self, .all hx h⟩
    | any hx h => exact ⟨_, hmem _ hx, h⟩
    | not h => exact ⟨_, hmem _ List.mem_cons_self, .not h⟩
    | existsIn hc hp h => exact ⟨_, hmem _ List.mem_cons_self, .existsIn hc hp h⟩
    | countIn hc hp h => exact ⟨_, hmem _ List.mem_cons_self, .countIn hc hp h⟩
  unfold Expr.anyOf
  split
  · rename_i hnil
    rw [hnil] at hflat
    obtain ⟨x, hx, _⟩ := hflat
    cases hx
  · rename_i x hone
    rw [hone] at hflat
    obtain ⟨y, hy, hguarded⟩ := hflat
    exact ⟨x, rfl, List.mem_singleton.mp hy ▸ hguarded⟩
  · obtain ⟨x, hx, hguarded⟩ := hflat
    exact ⟨_, rfl, .any hx hguarded⟩

/-- The blocks of a quantifier hold the guards of its inner predicate. -/
theorem GuardedIn.quantified {p : Expr} (h : GuardedIn guard test p) (q : Quantifier)
    (pattern : Pattern) (calls : List Clause) :
    GuardedIn guard test (quantified q pattern calls (some p)) := by
  have hbody : ∃ c ∈ narrowed pattern calls (some p), predicate? c = some p := by
    unfold narrowed
    split
    · exact ⟨_, List.mem_cons_self, rfl⟩
    · exact ⟨.keep p, by simp, rfl⟩
  obtain ⟨c, hc, hp⟩ := hbody
  cases q with
  | atLeastOne => exact .existsIn hc hp h
  | noneAtAll => exact .not (.existsIn hc hp h)
  | exactlyOne => exact .countIn hc hp h
  | every => exact .all List.mem_cons_self (.existsIn hc hp h)

end Guarded

section Parameters

/-- The values of which parameters are made for an atom. -/
def Subject.Brings : Subject → Doc → Prop
  | .claim _ claim, value => value = claim.getD .null
  | _, _ => False

def Operand.Brings : Operand → Doc → Prop
  | .literal literal, value => value = literal
  | .claim _ claim, value => value = claim.getD .null

def Condition.Brings (terms : Terms) : Condition → Doc → Prop
  | .compare subject _ operand _, value =>
      Subject.Brings subject value ∨ Operand.Brings operand value
  | .nullness subject _, value => Subject.Brings subject value
  | .aggregation a, value => value = a.value
  | .authenticated, value => value = .bool terms.authenticated
  | _, _ => False

/-- From one supply to another parameters are only added, all of them of values from a source. -/
structure Grows (source : Doc → Prop) (s t : Supply) : Prop where
  kept : s.params <+: t.params
  added : ∀ e ∈ t.params, e ∈ s.params ∨ source e.2

namespace Grows

variable {source source' : Doc → Prop} {s t u : Supply}

theorem of_eq (h : t.params = s.params) : Grows source s t :=
  ⟨h ▸ List.prefix_refl _, fun _ he => .inl (h ▸ he)⟩

theorem trans (h : Grows source s t) (h' : Grows source t u) : Grows source s u := by
  refine ⟨h.kept.trans h'.kept, fun e he => ?_⟩
  rcases h'.added e he with he | he
  · exact h.added e he
  · exact .inr he

theorem mono (h : Grows source s t) (hsub : ∀ value, source value → source' value) :
    Grows source' s t :=
  ⟨h.kept, fun e he => (h.added e he).imp_right (hsub e.2)⟩

end Grows

theorem param_grows {value : Doc} {p : Expr} {s t : Supply} (h : param value s = .ok (p, t)) :
    Grows (· = value) s t ∧ ∃ x, p = .param x ∧ (x, value) ∈ t.params := by
  obtain ⟨rfl, rfl⟩ := (param_ok ..).mp h
  refine ⟨⟨List.prefix_append _ _, fun e he => ?_⟩, _, rfl, by simp⟩
  rcases List.mem_append.mp he with he | he
  · exact .inl he
  · rw [List.mem_singleton] at he
    exact .inr (he ▸ rfl)

variable {ctx : Context} {q r : Subqueries} {s t : Supply}

theorem claimParam_grows {claim : Option Doc} {side : List Expr × Expr}
    (h : claimParam claim s = .ok (side, t)) :
    Grows (· = claim.getD .null) s t ∧
      ∃ x, side = ([.isNotNull (.param x)], .param x) ∧ (x, claim.getD .null) ∈ t.params := by
  simp only [claimParam, bind_ok, pure_ok] at h
  obtain ⟨p, u, hparam, rfl, rfl⟩ := h
  obtain ⟨hgrows, x, rfl, hmem⟩ := param_grows hparam
  exact ⟨hgrows, x, rfl, hmem⟩

theorem typedParam_grows {value : Doc} {kind : Option ScalarKind} {e : Expr}
    (h : typedParam value kind s = .ok (e, t)) : Grows (· = value) s t := by
  simp only [typedParam, bind_ok, pure_ok] at h
  obtain ⟨p, u, hparam, _, rfl⟩ := h
  exact (param_grows hparam).1

theorem typedListParam_grows {value : Doc} {kind : Option ScalarKind} {e : Expr}
    (h : typedListParam value kind s = .ok (e, t)) : Grows (· = value) s t := by
  simp only [typedListParam, bind_ok, pure_ok] at h
  obtain ⟨p, u, hparam, _, rfl⟩ := h
  exact (param_grows hparam).1

theorem shared_grows {source : Doc → Prop} {key name : String} {call : String → Build Clause}
    (hcall : ∀ name s clause t, call name s = .ok (clause, t) → Grows source s t)
    (h : shared key call q s = .ok ((name, r), t)) : Grows source s t := by
  rcases shared_ok _ _ _ _ _ _ _ h with ⟨_, _, rfl⟩ | ⟨clause, _, hrun, _⟩
  · exact .of_eq rfl
  · have hgrows := hcall _ _ _ _ hrun
    exact ⟨hgrows.kept, hgrows.added⟩

theorem subjectExpr_grows {subject : Subject} {side : List Expr × Expr}
    (h : subjectExpr ctx subject q s = .ok ((side, r), t)) :
    Grows (Subject.Brings subject) s t := by
  cases subject with
  | node a =>
    obtain ⟨_, _, rfl⟩ := (predicate_pure_ok ..).mp h
    exact .of_eq rfl
  | edge a =>
    simp only [subjectExpr, predicate_bind_ok, predicate_fault_ok, predicate_pure_ok] at h
    obtain ⟨_, _, _, ⟨_, _, rfl⟩, _, _, rfl⟩ := h
    exact .of_eq rfl
  | computed a =>
    simp only [subjectExpr, predicate_bind_ok, predicate_pure_ok] at h
    obtain ⟨name, _, _, hshared, _, _, rfl⟩ := h
    exact shared_grows (fun _ _ _ _ hrun => .of_eq (computedCall_params hrun)) hshared
  | claim path claim =>
    simp only [subjectExpr, predicate_lift_ok] at h
    exact (claimParam_grows h.1).1

theorem operandExpr_grows {kind : Option ScalarKind} {op : Comparison} {operand : Operand}
    {side : List Expr × Expr} (h : operandExpr kind op operand s = .ok (side, t)) :
    Grows (Operand.Brings operand) s t := by
  cases operand with
  | literal value =>
    simp only [operandExpr] at h
    split at h
    · obtain ⟨e, u, hparam, _, rfl⟩ := (bind_ok ..).mp h
      exact typedListParam_grows hparam
    · obtain ⟨e, u, hparam, _, rfl⟩ := (bind_ok ..).mp h
      exact typedParam_grows hparam
  | claim path claim => exact (claimParam_grows h).1

theorem aggregationCall_grows {a : Aggregation} {result : String} {clause : Clause}
    (h : aggregationCall ctx a result s = .ok (clause, t)) : Grows (· = a.value) s t := by
  simp only [aggregationCall, bind_ok, fresh_ok, lift_ok, pure_ok] at h
  obtain ⟨_, _, ⟨_, rfl⟩, _, _, ⟨_, rfl⟩, reduced, _, ⟨_, rfl⟩, right, _, hright, _, rfl⟩ := h
  have hgrows := typedParam_grows hright
  exact ⟨hgrows.kept, hgrows.added⟩

end Parameters

section Claims

theorem isNotNull_ne_comparison (op : Comparison) (left right e : Expr) :
    .isNotNull e ≠ comparison op left right := by
  cases op <;> simp [comparison]

theorem conjuncts_comparison (op : Comparison) (left right : Expr) :
    (comparison op left right).conjuncts = [comparison op left right] := by
  cases op <;> rfl

/-- A comparison with a claim: where it stands, its parameter stands beside it under the guard that
the claim is there, and has the value of the claim. -/
def GuardsClaims (atoms : List Condition) (params : Entries Doc) (es : List Expr) : Prop :=
  ∀ subject op path claim caseInsensitive,
    .compare subject op (.claim path claim) caseInsensitive ∈ atoms →
    ∃ x left, (x, claim.getD .null) ∈ params ∧ ∃ e ∈ es, GuardedIn (.isNotNull (.param x))
      (comparison op (lowered caseInsensitive left) (lowered caseInsensitive (.param x))) e

namespace GuardsClaims

variable {atoms atoms' : List Condition} {params params' : Entries Doc} {es es' : List Expr}

theorem nil : GuardsClaims [] params es :=
  fun _ _ _ _ _ h => absurd h List.not_mem_nil

/-- Every expression that guards a comparison is contained in one that does. -/
theorem map (h : GuardsClaims atoms params es) (hparams : params <+: params')
    (hes : ∀ guard test : Expr, guard ≠ test → ∀ e ∈ es, GuardedIn guard test e →
      ∃ e' ∈ es', GuardedIn guard test e') : GuardsClaims atoms params' es' := by
  intro subject op path claim caseInsensitive hatom
  obtain ⟨x, left, hx, e, he, hguarded⟩ := h subject op path claim caseInsensitive hatom
  exact ⟨x, left, hparams.subset hx, hes _ _ (isNotNull_ne_comparison _ _ _ _) e he hguarded⟩

theorem append (h : GuardsClaims atoms params es) (h' : GuardsClaims atoms' params' es')
    (hparams : params <+: params') : GuardsClaims (atoms ++ atoms') params' (es ++ es') := by
  intro subject op path claim caseInsensitive hatom
  rcases List.mem_append.mp hatom with hatom | hatom
  · refine h.map hparams ?_ subject op path claim caseInsensitive hatom
    exact fun _ _ _ e he hguarded => ⟨e, List.mem_append_left _ he, hguarded⟩
  · refine h'.map (List.prefix_refl _) ?_ subject op path claim caseInsensitive hatom
    exact fun _ _ _ e he hguarded => ⟨e, List.mem_append_right _ he, hguarded⟩

theorem allOf (h : GuardsClaims atoms params es) :
    GuardsClaims atoms params (Expr.allOf es).toList := by
  refine h.map (List.prefix_refl _) fun guard test hne e he hguarded => ?_
  obtain ⟨whole, hwhole, hguarded⟩ := hguarded.allOf hne he
  exact ⟨whole, by simp [hwhole], hguarded⟩

theorem getD_allOf (h : GuardsClaims atoms params es) (b : Bool) :
    GuardsClaims atoms params [(Expr.allOf es).getD (.bool b)] :=
  h.allOf.map (List.prefix_refl _) fun _ _ _ e he hguarded =>
    ⟨e, by simp [Option.mem_toList.mp he], hguarded⟩

theorem getD_anyOf (h : GuardsClaims atoms params es) (b : Bool) :
    GuardsClaims atoms params [(Expr.anyOf es).getD (.bool b)] := by
  refine h.map (List.prefix_refl _) fun guard test _ e he hguarded => ?_
  obtain ⟨whole, hwhole, hguarded⟩ := hguarded.anyOf he
  exact ⟨whole, by simp [hwhole], hguarded⟩

theorem not {e : Expr} (h : GuardsClaims atoms params [e]) :
    GuardsClaims atoms params [.not e] := by
  refine h.map (List.prefix_refl _) fun guard test _ e' he hguarded => ?_
  rw [List.mem_singleton] at he
  exact ⟨_, List.mem_cons_self, .not (he ▸ hguarded)⟩

theorem quantified (h : GuardsClaims atoms params es) (q : Quantifier) (pattern : Pattern)
    (calls : List Clause) :
    GuardsClaims atoms params [quantified q pattern calls (Expr.allOf es)] := by
  refine h.map (List.prefix_refl _) fun guard test hne e he hguarded => ?_
  obtain ⟨whole, hwhole, hguarded⟩ := hguarded.allOf hne he
  exact ⟨_, List.mem_cons_self, hwhole ▸ hguarded.quantified q pattern calls⟩

end GuardsClaims

/-- What atoms make of a supply and of expressions. -/
structure Compiles (terms : Terms) (atoms : List Condition) (s t : Supply) (es : List Expr) :
    Prop where
  grows : Grows (fun value => ∃ c ∈ atoms, Condition.Brings terms c value) s t
  guards : GuardsClaims atoms t.params es

namespace Compiles

variable {terms : Terms} {atoms atoms' : List Condition} {s t u : Supply} {es es' : List Expr}

theorem nil : Compiles terms [] s s es := ⟨.of_eq rfl, .nil⟩

theorem append (h : Compiles terms atoms s t es) (h' : Compiles terms atoms' t u es') :
    Compiles terms (atoms ++ atoms') s u (es ++ es') := by
  refine ⟨(h.grows.mono ?_).trans (h'.grows.mono ?_), h.guards.append h'.guards h'.grows.kept⟩
  · rintro value ⟨c, hc, hbrings⟩
    exact ⟨c, List.mem_append_left _ hc, hbrings⟩
  · rintro value ⟨c, hc, hbrings⟩
    exact ⟨c, List.mem_append_right _ hc, hbrings⟩

/-- Between supplies with the same parameters nothing is compiled. -/
theorem later (h : Compiles terms atoms t u es) (hparams : t.params = s.params) :
    Compiles terms atoms s u es :=
  ⟨(Grows.of_eq hparams).trans h.grows, h.guards⟩

/-- An atom that is no comparison with a claim. -/
theorem plain {c : Condition} (hgrows : Grows (Condition.Brings terms c) s t)
    (hplain : ∀ subject op path claim caseInsensitive,
      c ≠ .compare subject op (.claim path claim) caseInsensitive) :
    Compiles terms [c] s t es := by
  refine ⟨hgrows.mono fun value h => ⟨c, List.mem_cons_self, h⟩, ?_⟩
  intro subject op path claim caseInsensitive hatom
  rw [List.mem_singleton] at hatom
  exact absurd hatom.symm (hplain subject op path claim caseInsensitive)

end Compiles

variable {ctx : Context} {q r : Subqueries} {s t : Supply} {e : Expr}

theorem comparePredicate_compiles {subject : Subject} {op : Comparison} {operand : Operand}
    {caseInsensitive : Bool}
    (h : comparePredicate ctx subject op operand caseInsensitive q s = .ok ((e, r), t)) :
    Compiles ctx.terms [.compare subject op operand caseInsensitive] s t [e] := by
  simp only [comparePredicate, predicate_bind_ok, predicate_lift_ok, predicate_pure_ok] at h
  obtain ⟨⟨leftGuards, left⟩, q', u, hleft, ⟨rightGuards, right⟩, _, _, ⟨hright, rfl⟩, rfl, rfl,
    rfl⟩ := h
  have hgrows : Grows (Condition.Brings ctx.terms (.compare subject op operand caseInsensitive)) s
      _ :=
    ((subjectExpr_grows hleft).mono fun _ => .inl).trans
      ((operandExpr_grows hright).mono fun _ => .inr)
  refine ⟨hgrows.mono fun value h => ⟨_, List.mem_cons_self, h⟩, ?_⟩
  intro subject' op' path claim caseInsensitive' hatom
  rw [List.mem_singleton] at hatom
  cases hatom
  obtain ⟨_, x, hside, hx⟩ := claimParam_grows hright
  cases hside
  refine ⟨x, left, hx, _, List.mem_cons_self, ?_⟩
  have hmem : ∀ {es : List Expr} {e : Expr}, e ∈ es → e.conjuncts = [e] →
      e ∈ es.flatMap Expr.conjuncts :=
    fun {_ e} he hown => List.mem_flatMap.mpr ⟨e, he, hown ▸ List.mem_cons_self⟩
  have hflat : GuardedIn (.isNotNull (.param x))
      (comparison op (lowered caseInsensitive left) (lowered caseInsensitive (.param x)))
      (.all ((leftGuards ++ [Expr.isNotNull (.param x)] ++ [comparison op
        (lowered caseInsensitive left) (lowered caseInsensitive (.param x))]).flatMap
        Expr.conjuncts)) :=
    .here (hmem (by simp) rfl) (hmem (by simp) (conjuncts_comparison ..))
  obtain ⟨whole, hwhole, hguarded⟩ := guardedIn_flat (isNotNull_ne_comparison _ _ _ _) hflat
  rw [hwhole]
  exact hguarded

/-- The labels of an alternative stand in one conjunction with its condition. -/
theorem GuardsClaims.labelled {atoms : List Condition} {params : Entries Doc} {es : List Expr}
    (h : GuardsClaims atoms params es) (first : Expr) :
    GuardsClaims atoms params (Expr.allOf (first :: es)).toList :=
  (h.map (List.prefix_refl _) fun _ _ _ e he hguarded =>
    ⟨e, List.mem_cons_of_mem _ he, hguarded⟩ : GuardsClaims atoms params (first :: es)).allOf

mutual
/-- Every atom of a condition is compiled with its claims guarded, and makes no parameters but of
what it compares with. -/
theorem predicate_compiles (ctx : Context) : (c : Condition) →
    ∀ {e : Expr} {q r : Subqueries} {s t : Supply},
    Condition.predicate ctx c q s = .ok ((e, r), t) → Compiles ctx.terms c.atoms s t [e]
  | .all items => by
    intro h
    simp only [Condition.predicate, predicate_bind_ok, predicate_pure_ok] at h
    obtain ⟨es, _, _, hes, rfl, rfl, rfl⟩ := h
    have hitems := predicates_compiles ctx items hes
    exact ⟨hitems.grows, hitems.guards.getD_allOf true⟩
  | .any items => by
    intro h
    simp only [Condition.predicate, predicate_bind_ok, predicate_pure_ok] at h
    obtain ⟨es, _, _, hes, rfl, rfl, rfl⟩ := h
    have hitems := predicates_compiles ctx items hes
    exact ⟨hitems.grows, hitems.guards.getD_anyOf false⟩
  | .not inner => by
    intro h
    simp only [Condition.predicate, predicate_bind_ok, predicate_pure_ok] at h
    obtain ⟨e', _, _, he, rfl, rfl, rfl⟩ := h
    have hinner := predicate_compiles ctx inner he
    exact ⟨hinner.grows, hinner.guards.not⟩
  | .compare _ _ _ _ => fun h => comparePredicate_compiles h
  | .nullness subject isNull => by
    intro h
    simp only [Condition.predicate, predicate_bind_ok, predicate_pure_ok] at h
    obtain ⟨_, _, _, hsubject, _, rfl, rfl⟩ := h
    exact .plain (subjectExpr_grows hsubject) (by simp)
  | .labels names => by
    intro h
    simp only [Condition.predicate, predicate_pure_ok] at h
    obtain ⟨_, _, rfl⟩ := h
    exact .plain (.of_eq rfl) (by simp)
  | .related relationship quantifier targets isComposite edge => by
    intro h
    rename_i s _
    simp only [Condition.predicate, predicate_bind_ok, predicate_lift_ok, fresh_ok,
      predicate_pure_ok] at h
    obtain ⟨link, _, _, ⟨⟨_, rfl⟩, rfl⟩, node, _, _, ⟨⟨_, rfl⟩, rfl⟩, ⟨parts, calls⟩, _, u,
      ⟨hgathered, rfl⟩, rfl, rfl, rfl⟩ := h
    rw [gathered_ok] at hgathered
    obtain ⟨last, hparts, _⟩ := hgathered
    have hinner : Compiles ctx.terms (Condition.related relationship quantifier targets isComposite
        edge).atoms s u parts := by
      cases isComposite with
      | true =>
        simp only [if_true, predicate_bind_ok, predicate_pure_ok] at hparts
        obtain ⟨own, _, _, hown, _, _, _, ⟨rfl, rfl, rfl⟩, onEdge, _, _, hedge, rfl, rfl, rfl⟩ :=
          hparts
        have howns := alternatives_compiles _ targets hown
        have hboth := Compiles.append ⟨howns.grows, howns.guards.getD_anyOf false⟩
          (optionPredicate_compiles _ edge hedge)
        exact hboth.later rfl
      | false =>
        simp only [Bool.false_eq_true, if_false, predicate_bind_ok, predicate_pure_ok] at hparts
        obtain ⟨own, _, _, hown, onEdge, _, _, hedge, rfl, rfl, rfl⟩ := hparts
        have hboth := (firstTarget_compiles _ targets hown).append
          (optionPredicate_compiles _ edge hedge)
        exact hboth.later rfl
    exact ⟨hinner.grows, hinner.guards.quantified _ _ _⟩
  | .aggregation a => by
    intro h
    simp only [Condition.predicate, predicate_bind_ok, predicate_pure_ok] at h
    obtain ⟨_, _, _, hshared, _, rfl, rfl⟩ := h
    exact .plain (shared_grows (fun _ _ _ _ hcall => aggregationCall_grows hcall) hshared) (by simp)
  | .authenticated => by
    intro h
    simp only [Condition.predicate, predicate_bind_ok, predicate_lift_ok, predicate_pure_ok] at h
    obtain ⟨_, _, _, ⟨hparam, rfl⟩, _, rfl, rfl⟩ := h
    exact .plain (param_grows hparam).1 (by simp)
theorem predicates_compiles (ctx : Context) : (cs : List Condition) →
    ∀ {es : List Expr} {q r : Subqueries} {s t : Supply},
    Condition.predicates ctx cs q s = .ok ((es, r), t) →
    Compiles ctx.terms (Condition.atomsOf cs) s t es
  | [] => by
    intro h
    simp only [Condition.predicates, predicate_pure_ok] at h
    obtain ⟨rfl, _, rfl⟩ := h
    exact .nil
  | c :: rest => by
    intro h
    simp only [Condition.predicates, predicate_bind_ok, predicate_pure_ok] at h
    obtain ⟨e, _, _, he, es', _, _, hes, rfl, rfl, rfl⟩ := h
    exact (predicate_compiles ctx c he).append (predicates_compiles ctx rest hes)
theorem alternatives_compiles (ctx : Context) : (targets : List (Entity × Option Condition)) →
    ∀ {es : List Expr} {q r : Subqueries} {s t : Supply},
    Condition.alternatives ctx targets q s = .ok ((es, r), t) →
    Compiles ctx.terms (Condition.targetAtoms targets) s t es
  | [] => by
    intro h
    simp only [Condition.alternatives, predicate_pure_ok] at h
    obtain ⟨rfl, _, rfl⟩ := h
    exact .nil
  | (target, filter) :: rest => by
    intro h
    simp only [Condition.alternatives, predicate_bind_ok, predicate_pure_ok] at h
    obtain ⟨own, _, _, hown, es', _, _, hes, rfl, rfl, rfl⟩ := h
    have hfirst := optionPredicate_compiles ctx filter hown
    exact Compiles.append ⟨hfirst.grows, hfirst.guards.labelled _⟩
      (alternatives_compiles ctx rest hes)
theorem firstTarget_compiles (ctx : Context) : (targets : List (Entity × Option Condition)) →
    ∀ {es : List Expr} {q r : Subqueries} {s t : Supply},
    Condition.firstTarget ctx targets q s = .ok ((es, r), t) →
    Compiles ctx.terms (Condition.firstAtoms targets) s t es
  | [] => by
    intro h
    simp only [Condition.firstTarget, predicate_pure_ok] at h
    obtain ⟨rfl, _, rfl⟩ := h
    exact .nil
  | (_, filter) :: _ => fun h => optionPredicate_compiles ctx filter h
theorem optionPredicate_compiles (ctx : Context) : (c : Option Condition) →
    ∀ {es : List Expr} {q r : Subqueries} {s t : Supply},
    Condition.optionPredicate ctx c q s = .ok ((es, r), t) →
    Compiles ctx.terms (Condition.optionAtoms c) s t es
  | none => by
    intro h
    simp only [Condition.optionPredicate, predicate_pure_ok] at h
    obtain ⟨rfl, _, rfl⟩ := h
    exact .nil
  | some c => by
    intro h
    simp only [Condition.optionPredicate, predicate_bind_ok, predicate_pure_ok] at h
    obtain ⟨e, _, _, he, rfl, rfl, rfl⟩ := h
    exact predicate_compiles ctx c he
end

end Claims

end GraphSelection.Program

namespace GraphSelection.Stage

open Plan Resolve

/-- A rule of the directors of the studio. -/
def directing (node : Doc.Members) : Declared :=
  ⟨"Director.authorization[0]",
    { kind := .filter
      actions := Action.all
      moments := Moment.all
      needsAuthentication := false
      node := some (.record node)
      claims := none }⟩

/-- The studio, for a principal who claims a number of films. -/
def claimed : Setup := { studio with principal := ⟨true, [("films", .int 3)]⟩ }

/-- Themselves, or who has a film that is not of a claimed title. -/
def ownOrOthers : Doc.Members :=
  [("OR", .list
    [.record [("name", .text "$jwt.sub")],
     .record [("films_SOME", .record [("NOT", .record [("title", .text "$jwt.films")])])]])]

/-- More films than are claimed. -/
def moreFilms : Doc.Members := [("filmsAggregate", .record [("count_GT", .text "$jwt.films")])]

end GraphSelection.Stage

namespace GraphSelection.Resolve

open GraphSelection Plan Program Cypher

section Templates

variable {s : Setup}

/-- A template is the request with the same text, resolved. -/
theorem templateParts_resolved {keys : Keys} {members : Doc.Members} {path : String}
    {parts : List Condition}
    (h : templateParts s keys (some (.record members)) path = .ok parts) :
    ∃ raw, s.requested keys (some members) path = .ok raw ∧
      parts = raw.toList.map (Condition.recast (.resolving s.principal)) := by
  simp only [templateParts, asRecord, except_bind_ok, except_pure_ok] at h
  obtain ⟨_, hmembers, c, hruled, rfl⟩ := h
  cases hmembers
  rw [ruled_resolves] at hruled
  cases hraw : s.requested keys (some members) path with
  | error e =>
    rw [hraw] at hruled
    cases hruled
  | ok raw =>
    rw [hraw] at hruled
    cases hruled
    refine ⟨raw, rfl, ?_⟩
    cases raw <;> rfl

theorem templateParts_recast {keys : Keys} {template : Option Doc} {path : String}
    {parts : List Condition} (h : templateParts s keys template path = .ok parts) :
    ∃ raw : List Condition, parts = raw.map (Condition.recast (.resolving s.principal)) := by
  cases template with
  | none =>
    cases h
    exact ⟨[], rfl⟩
  | some doc =>
    cases doc with
    | record members =>
      obtain ⟨raw, _, hparts⟩ := templateParts_resolved h
      exact ⟨raw.toList, hparts⟩
    | _ => cases h

/-- The atoms of a rule are those of its node template and others, all of them resolved. -/
theorem ruleCondition_atoms {e : Entity} {d : Declared} {c : Condition} {members : Doc.Members}
    (hnode : d.rule.node = some (.record members)) (h : ruleCondition s e d = .ok (some c)) :
    ∃ raw before after,
      s.requested (.node e) (some members) (childPath d.path "node") = .ok raw ∧
      c.atoms = (before ++ Condition.optionAtoms raw ++ after).map
        (Condition.recast (.resolving s.principal)) := by
  simp only [ruleCondition, except_bind_ok, except_pure_ok] at h
  obtain ⟨node, hnodeParts, claims, hclaims, hall⟩ := h
  rw [hnode] at hnodeParts
  obtain ⟨raw, hraw, rfl⟩ := templateParts_resolved hnodeParts
  obtain ⟨others, rfl⟩ := templateParts_recast hclaims
  let signedIn : List Condition := if d.rule.needsAuthentication then [.authenticated] else []
  have hsigned : signedIn.flatMap Condition.atoms =
      (signedIn.flatMap Condition.atoms).map (Condition.recast (.resolving s.principal)) := by
    unfold signedIn
    split <;> rfl
  have hmapped : ∀ cs : List Condition,
      (cs.map (Condition.recast (.resolving s.principal))).flatMap Condition.atoms =
        (cs.flatMap Condition.atoms).map (Condition.recast (.resolving s.principal)) := by
    intro cs
    rw [List.flatMap_map, List.map_flatMap]
    simp only [Condition.atoms_recast]
  have hatoms : Condition.optionAtoms (some c) = _ := hall ▸ Condition.atoms_allOf _
  have hoption : raw.toList.flatMap Condition.atoms = Condition.optionAtoms raw := by
    cases raw with
    | none => rfl
    | some c' => exact List.append_nil _
  refine ⟨raw, signedIn.flatMap Condition.atoms, others.flatMap Condition.atoms, hraw,
    hatoms.trans ?_⟩
  rw [List.flatMap_append, List.flatMap_append, hmapped, hmapped, hoption, List.map_append,
    List.map_append, ← hsigned]

theorem claim_of_getD {claim : Option Doc} {path : String}
    (h : claimText path = claim.getD .null) : claim = some (claimText path) := by
  cases claim with
  | none => cases h
  | some value => exact congrArg some h.symm

theorem Subject.brings_claimText {p : Principal} {subject : Subject} {path : String}
    (hown : subject.askedBy p = subject) (h : Subject.Brings subject (claimText path)) :
    ∃ other, p.claim? other = some (claimText path) := by
  cases subject with
  | claim other claim => exact ⟨other, (Subject.claim.inj hown).2.trans (claim_of_getD h)⟩
  | _ => exact h.elim

theorem Operand.brings_claimText {p : Principal} {operand : Operand} {path : String}
    (hown : operand.askedBy p = operand) (hliteral : operand ≠ .literal (claimText path))
    (h : Operand.Brings operand (claimText path)) :
    ∃ other, p.claim? other = some (claimText path) := by
  cases operand with
  | literal value => exact absurd (congrArg Operand.literal h.symm) hliteral
  | claim other claim => exact ⟨other, (Operand.claim.inj hown).2.trans (claim_of_getD h)⟩

/-- An atom that makes a parameter of text that names a claim is an aggregation, or reads a claim
with this value. -/
theorem claimText_brought {e : Entity} {d : Declared} {c atom : Condition} {members : Doc.Members}
    (hnode : d.rule.node = some (.record members)) (h : ruleCondition s e d = .ok (some c))
    (hatom : atom ∈ c.atoms) {terms : Terms} {path : String}
    (hbrings : Condition.Brings terms atom (claimText path)) :
    (∃ other, s.principal.claim? other = some (claimText path)) ∨
      ∃ a, atom = .aggregation a ∧ a.value = claimText path := by
  have hown : atom.askedBy s.principal = atom := by
    have hsame := congrArg Condition.atoms (ruleCondition_own h)
    rw [Condition.askedBy_eq, Condition.atoms_recast] at hsame
    rw [Condition.askedBy_eq]
    exact List.map_inj_left.mp (hsame.trans (List.map_id _).symm) atom hatom
  have hresolved : ∃ raw : Condition, atom = raw.recast (.resolving s.principal) := by
    obtain ⟨_, _, _, _, hatoms⟩ := ruleCondition_atoms hnode h
    rw [hatoms] at hatom
    obtain ⟨raw, _, rfl⟩ := List.mem_map.mp hatom
    exact ⟨raw, rfl⟩
  cases atom with
  | compare subject op operand caseInsensitive =>
    obtain ⟨hsubject, _, hoperand, _⟩ := Condition.compare.inj hown
    rcases hbrings with hbrings | hbrings
    · exact .inl (Subject.brings_claimText hsubject hbrings)
    · refine .inl (Operand.brings_claimText hoperand ?_ hbrings)
      rintro rfl
      obtain ⟨raw, hraw⟩ := hresolved
      cases raw with
      | compare _ _ o _ =>
        exact o.resolvedBy_ne_claimText _ _ (Condition.compare.inj hraw).2.2.1.symm
      | _ => cases hraw
  | nullness subject isNull =>
    exact .inl (Subject.brings_claimText (Condition.nullness.inj hown).1 hbrings)
  | aggregation a => exact .inr ⟨a, rfl, hbrings.symm⟩
  | authenticated => cases hbrings
  | _ => exact hbrings.elim

/-- Text of the node template of a rule that names a claim. Wherever an attribute is compared with
it, at every depth, the comparison is made with a parameter that has the value of the claim, null
when the principal has no such claim, and stands in one conjunction with the guard that it is not
null. A parameter of the rule is such text itself only when a claim has it as its value, or when an
aggregation is compared with it. -/
theorem templates_resolved (s : Setup) (e : Entity) (d : Declared) (c : Condition)
    (members : Doc.Members) (hnode : d.rule.node = some (.record members))
    (hrule : ruleCondition s e d = .ok (some c)) (ctx : Context) (q r : Subqueries)
    (s₀ s₁ : Supply) (predicate : Expr)
    (h : Condition.predicate ctx c q s₀ = .ok ((predicate, r), s₁)) :
    ∃ raw, s.requested (.node e) (some members) (childPath d.path "node") = .ok raw ∧
      (∀ subject op path caseInsensitive,
        .compare subject op (.literal (claimText path)) caseInsensitive ∈
          Condition.optionAtoms raw →
        ∃ x left, (x, (s.principal.claim? path).getD .null) ∈ s₁.params ∧
          GuardedIn (.isNotNull (.param x))
            (comparison op (lowered caseInsensitive left) (lowered caseInsensitive (.param x)))
            predicate) ∧
      ∀ x path, (x, claimText path) ∈ s₁.params →
        (x, claimText path) ∈ s₀.params ∨
        (∃ other, s.principal.claim? other = some (claimText path)) ∨
        ∃ a, .aggregation a ∈ c.atoms ∧ a.value = claimText path := by
  obtain ⟨raw, before, after, hraw, hatoms⟩ := ruleCondition_atoms hnode hrule
  have hcompiles := predicate_compiles ctx c h
  refine ⟨raw, hraw, fun subject op path caseInsensitive hatom => ?_, fun x path hx => ?_⟩
  · have hresolved : .compare subject op (.claim path (s.principal.claim? path)) caseInsensitive ∈
        c.atoms := by
      rw [hatoms, ← Operand.resolvedBy_claimText]
      exact List.mem_map_of_mem
        (List.mem_append_left _ (List.mem_append_right _ hatom))
    obtain ⟨x, left, hx, ex, hex, hguarded⟩ := hcompiles.guards _ _ _ _ _ hresolved
    exact ⟨x, left, hx, List.mem_singleton.mp hex ▸ hguarded⟩
  · rcases hcompiles.grows.added _ hx with hx | ⟨atom, hatom, hbrings⟩
    · exact .inl hx
    · rcases claimText_brought hnode hrule hatom hbrings with hclaim | ⟨a, rfl, hvalue⟩
      · exact .inr (.inl hclaim)
      · exact .inr (.inr ⟨a, hatom, hvalue⟩)

theorem ownOrOthers_resolved :
    ∃ c predicate r t x left,
      ruleCondition Stage.claimed Stage.director (Stage.directing Stage.ownOrOthers) =
        .ok (some c) ∧
      Condition.predicate Stage.context c {} {} = .ok ((predicate, r), t) ∧
      (x, .int 3) ∈ t.params ∧
      GuardedIn (.isNotNull (.param x)) (comparison .eq left (.param x)) predicate := by
  let nameIsSub : Condition := .compare (.node { name := "name", kind := .string }) .eq
    (.literal (claimText "sub")) false
  let titleIsFilms : Condition := .compare (.node Stage.title) .eq
    (.literal (claimText "films")) false
  let raw : Condition := .any [nameIsSub, .related Stage.films .atLeastOne
    [(Stage.work "Film", some (.not titleIsFilms))] false none]
  have hraw : Stage.claimed.requested (.node Stage.director) (some Stage.ownOrOthers)
      "Director.authorization[0].node" = .ok (some raw) := by rfl
  have hatom : titleIsFilms ∈ Condition.optionAtoms (some raw) :=
    List.mem_cons_of_mem _ List.mem_cons_self
  obtain ⟨c, predicate, r, t, hrule, hrun⟩ : ∃ c predicate r t,
      ruleCondition Stage.claimed Stage.director (Stage.directing Stage.ownOrOthers) =
        .ok (some c) ∧
      Condition.predicate Stage.context c {} {} = .ok ((predicate, r), t) :=
    ⟨_, _, _, _, rfl, rfl⟩
  obtain ⟨raw', hraw', hguarded, _⟩ := templates_resolved Stage.claimed Stage.director
    (Stage.directing Stage.ownOrOthers) c Stage.ownOrOthers rfl hrule Stage.context {} r {} t
    predicate hrun
  cases hraw.symm.trans hraw'
  obtain ⟨x, left, hx, hguard⟩ := hguarded _ _ "films" _ hatom
  exact ⟨c, predicate, r, t, x, left, hrule, hrun, hx, hguard⟩

/-- The number of films is compared with the text that names a claim, not with the claim. -/
theorem moreFilms_unresolved :
    ∃ c predicate r t body result x left,
      ruleCondition Stage.claimed Stage.director (Stage.directing Stage.moreFilms) =
        .ok (some c) ∧
      Condition.predicate Stage.context c {} {} = .ok ((predicate, r), t) ∧
      r.calls = [.call ["this0"] (body ++ [.give (comparison .gt left (.param x)) result])] ∧
      t.params = [(x, claimText "films")] ∧
      Stage.claimed.principal.claim? "films" = some (.int 3) :=
  ⟨_, _, _, _, [_], _, _, _, rfl, rfl, rfl, rfl, rfl⟩

end Templates

end GraphSelection.Resolve
