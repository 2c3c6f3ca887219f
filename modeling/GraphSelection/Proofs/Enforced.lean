import GraphSelection.Proofs.Emitted
import GraphSelection.Proofs.Truth
import GraphSelection.Proofs.WellScoped

/-!
Filter rules are enforced. Wherever a plan sees the nodes of an entity, its filter demands all that
the filter rules of the entity ask for the action, and the match that is written for the filter is
true of no row that a rule is not true of.
-/
namespace GraphSelection.Resolve

open GraphSelection Plan Program

/-- The filters of a guarded part are narrowed by the rules for their actions. -/
theorem guards_narrowed {s : Setup} {p : Part} (h : s.Guards p) :
    ∀ g ∈ p.guards, ∃ attributes edges,
      Narrowed s g.entity attributes g.action edges g.filter := by
  intro g hg
  cases p with
  | field f => simp [Part.guards] at hg
  | lookup l =>
    cases l with
    | read r =>
      obtain rfl := List.mem_singleton.mp hg
      exact ⟨_, _, h.scope.filter⟩
    | connection c =>
      obtain rfl := List.mem_singleton.mp hg
      exact ⟨_, _, h.1.filter⟩
    | composite c =>
      obtain ⟨b, hb, rfl⟩ := List.mem_map.mp hg
      exact ⟨_, _, (h b hb).1.scope.filter⟩
    | compositeConnection c =>
      obtain ⟨b, hb, rfl⟩ := List.mem_map.mp hg
      exact ⟨_, _, (h b hb).1.scope.filter⟩
  | aggregate a =>
    obtain rfl := List.mem_singleton.mp hg
    exact ⟨_, _, h.filter⟩
  | newNode e n => simp [Part.guards] at hg
  | change m =>
    cases m with
    | create link n edge => simp [Part.guards, Mutation.guards] at hg
    | connect link filter edge validations =>
      obtain rfl := List.mem_singleton.mp hg
      exact ⟨_, _, h.2.1⟩
    | disconnect link filter validations =>
      obtain rfl := List.mem_singleton.mp hg
      exact ⟨_, _, h.2.1⟩
    | update link filter before node edge after =>
      obtain rfl := List.mem_singleton.mp hg
      exact ⟨_, _, h.2.1⟩
    | delete link filter before nested =>
      obtain rfl := List.mem_singleton.mp hg
      exact ⟨_, _, h.2.1⟩
  | update u =>
    obtain rfl := List.mem_singleton.mp hg
    exact ⟨_, _, h.2.1⟩
  | delete d =>
    obtain rfl := List.mem_singleton.mp hg
    exact ⟨_, _, h.2.1⟩

/-- The filters of a plan stand in the program of the request. -/
theorem compile_emits {s : Setup} {r : Request} {o : Operation} {p : Compiled}
    (ho : s.operation r = .ok o) (h : compile s r = .ok p) : Emits o.parts p.clauses := by
  obtain ⟨o', t, hplan, hprogram, _, _⟩ := Scoping.compile_ok h
  have hsame : o' = o := by
    have ho' := Scoping.plan_ok hplan
    rw [ho] at ho'
    cases ho'
    rfl
  subst hsame
  refine emits_programOf ?_ hprogram
  intro c hc
  exact Setup.operation_create (hc ▸ ho)

/-- Filter rules cannot be bypassed. A filter rule of an entity that applies to the action of a
scope over it is among what the filter of the scope demands, conjunct by conjunct. Whatever match
is written for the filter enforces each of them, and such a match stands in the program. -/
theorem filterRules_enforced (s : Setup) (r : Request) (o : Operation) (ho : s.operation r = .ok o)
    (part : Part) (hpart : part ∈ o.parts) (g : Guard) (hg : g ∈ part.guards) (d : Declared)
    (hd : d ∈ declaredAt g.entity.name g.entity.rules) (hkind : d.rule.kind = .filter)
    (happlies : d.rule.appliesTo g.action = true) :
    ∃ asked, ruleCondition s g.entity d = .ok asked ∧
      (∀ c ∈ demands asked, c ∈ demands g.filter) ∧
      (∀ pattern ctx supply supply' clauses,
        filteredMatch pattern g.filter ctx supply = .ok (clauses, supply') →
        ∀ c ∈ demands asked, Enforces ctx pattern g.filter supply clauses c) ∧
      ∀ p, compile s r = .ok p → part.IsMatched → Emitted g p.clauses := by
  obtain ⟨attributes, edges, hnarrowed⟩ :=
    guards_narrowed (Setup.operation_guards ho part hpart) g hg
  have hdeclared : d ∈ declaredRules g.entity attributes := List.mem_append_left _ hd
  obtain ⟨asked, hread, hdemands⟩ := hnarrowed.demands_rule hdeclared hkind happlies
  refine ⟨asked, hread, hdemands, ?_, ?_⟩
  · intro pattern ctx supply supply' clauses hmatch c hc
    exact enforces_demands hmatch c (hdemands c hc)
  · intro p hp hmatched
    exact compile_emits ho hp part hpart hmatched g hg

theorem famous_operation :
    ∃ r, Stage.setup.operation Stage.famous = .ok (.lookup (.read r)) ∧
      r.scope.entity = Stage.person :=
  ⟨_, rfl, rfl⟩

/-- The rule of a person asks that the principal is signed in and is that person. -/
theorem famous_enforced :
    ∃ r asked, Stage.setup.operation Stage.famous = .ok (.lookup (.read r)) ∧
      ruleCondition Stage.setup Stage.person ⟨"Person.authorization[0]", Stage.ownNode⟩ =
        .ok asked ∧
      (demands asked).length = 2 ∧ (∀ c ∈ demands asked, c ∈ demands r.scope.filter) ∧
      ∀ p, compile Stage.setup Stage.famous = .ok p → Emitted (r.scope.guard .read) p.clauses := by
  obtain ⟨r, ho, hentity⟩ := famous_operation
  have hd : ⟨"Person.authorization[0]", Stage.ownNode⟩ ∈
      declaredAt r.scope.entity.name r.scope.entity.rules := by
    rw [hentity]
    exact List.mem_singleton.mpr rfl
  obtain ⟨asked, hread, hdemands, _, hemitted⟩ :=
    filterRules_enforced Stage.setup Stage.famous _ ho (.lookup (.read r)) List.mem_cons_self
      (r.scope.guard .read) List.mem_cons_self _ hd rfl rfl
  have hasked : ruleCondition Stage.setup Stage.person
      ⟨"Person.authorization[0]", Stage.ownNode⟩ = .ok asked := hentity ▸ hread
  refine ⟨r, asked, ho, hasked, ?_, hdemands, fun p hp => hemitted p hp trivial⟩
  cases hasked
  rfl

end GraphSelection.Resolve
