import GraphSelection.Proofs.Formed.Changes
import GraphSelection.Proofs.WellScoped

/-!
Programs are well formed, know their parameters, and draw every name once. Each part of a plan that
is resolved from a request fits into its place, so its clauses obey a policy that knows the
parameters of the program and the statements of the computed attributes of the schema.
-/
namespace GraphSelection

open Cypher Plan Resolve Program Minting

/-- The text is the statement of a computed attribute of the schema. -/
def Schema.Declares (schema : Schema) (text : String) : Prop :=
  ∃ a c, Computes schema a ∧ a.computation = some c ∧ c.statement = text

/-- The parameters of the program are known, and the statements of the schema may stand in it. -/
def Compiled.policy (p : Compiled) (schema : Schema) : Policy where
  params x := x ∈ p.params.keys
  statements := schema.Declares
  writes := true

/-- The items of the program, the program itself among them. -/
def Compiled.items (p : Compiled) : List Item :=
  .list .program p.clauses :: Clause.itemsOf p.clauses

/-- Only a deletion answers nothing. -/
theorem resultOf_operation {s : Setup} {r : Request} {o : Operation} (h : s.operation r = .ok o) :
    resultOf o = if r.operation = .delete then none else some responseColumn := by
  simp only [Setup.operation, except_bind_ok] at h
  obtain ⟨target, _, h⟩ := h
  cases target with
  | entity e =>
    simp only [Setup.entityOperation] at h
    split at h
    all_goals
      rename_i hkind
      obtain ⟨found, _, rfl⟩ := (except_map_ok ..).mp h
      simp [hkind, resultOf]
  | composite c =>
    simp only [Setup.compositeOperation] at h
    split at h
    all_goals first
      | cases h
      | rename_i hkind
        obtain ⟨found, _, rfl⟩ := (except_map_ok ..).mp h
        simp [hkind, resultOf]

/-- The parts of a plan are built from statements of the schema. -/
theorem parts_allowed {s : Setup} {r : Request} {o : Operation} (h : s.plan r = .ok o)
    (p : Compiled) : ∀ part ∈ o.parts, part.Fits (Allows (p.policy s.schema)) := by
  intro part hpart
  have hfits := Setup.guards_fits (Setup.operation_guards (Scoping.plan_ok h) part hpart)
  exact hfits.mono fun a ha c hc => ⟨a, c, ha, hc, rfl⟩

theorem compile_concludes {s : Setup} {r : Request} {p : Compiled} (h : compile s r = .ok p) :
    ∃ o, s.plan r = .ok o ∧ p.result = resultOf o ∧ Concludes (p.policy s.schema) o p.clauses := by
  obtain ⟨o, t, hplan, hprogram, hparams, hresult⟩ := Scoping.compile_ok h
  have hgrants : Grants (p.policy s.schema) (Concludes (p.policy s.schema) o)
      (programOf s.terms o) :=
    grants_programOf rfl (parts_allowed hplan p)
  refine ⟨o, hplan, hresult, hgrants.run {} p.clauses t hprogram fun key hkey => ?_⟩
  rw [← hparams] at hkey
  exact hkey

theorem Program.Concludes.block {policy : Policy} {o : Operation} {cs : List Clause}
    (h : Concludes policy o cs) : Block policy .program cs := by
  unfold Concludes at h
  split at h
  · exact h.block
  · exact h.opened.endless nofun

theorem compile_obeys {s : Setup} {r : Request} {p : Compiled} (h : compile s r = .ok p) :
    ∀ i ∈ p.items, i.Obeys (p.policy s.schema) := by
  obtain ⟨o, _, _, hconcludes⟩ := compile_concludes h
  exact hconcludes.block.items

/-- Every list of clauses of a program, at every depth, is well formed, and the program ends in the
`RETURN` of the response or, for a deletion, in the removal of what it found. -/
theorem compile_wellFormed (s : Setup) (r : Request) (p : Compiled) (h : compile s r = .ok p) :
    (∀ place cs, .list place cs ∈ p.items → WellFormed (p.policy s.schema) place cs) ∧
      (r.operation ≠ .delete → p.result = some responseColumn ∧
        ∃ e, p.clauses.getLast? = some (.returning [⟨e, some responseColumn⟩] false)) ∧
      (r.operation = .delete → p.result = none ∧ (∀ c ∈ p.clauses, c.isReturning = false) ∧
        ∃ name, p.clauses.getLast? = some (.delete true [name])) := by
  obtain ⟨o, hplan, hresult, hconcludes⟩ := compile_concludes h
  have hkind := resultOf_operation (Scoping.plan_ok hplan)
  refine ⟨fun place cs hmem => compile_obeys h _ hmem, fun hdelete => ?_, fun hdelete => ?_⟩
  · rw [if_neg hdelete] at hkind
    rw [Concludes, hkind] at hconcludes
    exact ⟨hresult.trans hkind, hconcludes.column⟩
  · rw [if_pos hdelete] at hkind
    rw [Concludes, hkind] at hconcludes
    refine ⟨hresult.trans hkind, fun c hc => ?_, hconcludes.last⟩
    exact isReturning_of_inner (hconcludes.opened.clauses c hc).inner

theorem famous_compiles : ∃ p, compile Stage.setup Stage.famous = .ok p :=
  exists_of_isOk (by decide +kernel)

theorem famous_wellFormed :
    ∃ p, compile Stage.setup Stage.famous = .ok p ∧
      ∀ place cs, .list place cs ∈ p.items → WellFormed (p.policy Stage.schema) place cs := by
  obtain ⟨p, h⟩ := famous_compiles
  exact ⟨p, h, (compile_wellFormed Stage.setup Stage.famous p h).1⟩

section Names

/-- The first name is drawn before the second. -/
def Earlier (x y : String) : Prop := ∃ n m, n < m ∧ Minted n x ∧ Minted m y

theorem Earlier.ne {x y : String} (h : Earlier x y) : x ≠ y := by
  obtain ⟨n, m, hlt, hn, hm⟩ := h
  intro heq
  have := hn.unique (heq ▸ hm)
  omega

theorem drawn_earlier {s t : Supply} {names : List String} (h : Drawn s t names) :
    names.Pairwise Earlier := by
  rw [List.pairwise_iff_getElem]
  intro i j hi hj hlt
  exact ⟨s.next + i, s.next + j, by omega, h.numbered i hi, h.numbered j hj⟩

theorem drawn_not_response {s t : Supply} {names : List String} (h : Drawn s t names) :
    responseColumn ∉ names := by
  intro hmem
  obtain ⟨i, hi, heq⟩ := List.getElem_of_mem hmem
  have hlast : responseColumn.toList = ['t', 'h', 'i'] ++ ['s'] := by decide
  exact not_minted hlast (by decide) _ (heq ▸ h.numbered i hi)

theorem minted_param (n : Nat) : Minted n ("param" ++ toString n) := ⟨"param", by decide, rfl⟩

/-- Parameters that are drawn one after the other have rising numbers. -/
theorem rising_params {keys : List String} (h : keys.Pairwise Earlier)
    (hparam : ∀ key ∈ keys, ∃ n : Nat, key = "param" ++ toString n) :
    ∃ numbers : List Nat, keys = numbers.map (fun n => "param" ++ toString n) ∧
      numbers.Pairwise (· < ·) := by
  induction keys with
  | nil => exact ⟨[], rfl, .nil⟩
  | cons key rest ih =>
    rw [List.pairwise_cons] at h
    obtain ⟨n, rfl⟩ := hparam key List.mem_cons_self
    obtain ⟨numbers, rfl, hrising⟩ := ih h.2 fun k hk => hparam k (List.mem_cons_of_mem _ hk)
    refine ⟨n :: numbers, rfl, List.pairwise_cons.mpr ⟨fun m hm => ?_, hrising⟩⟩
    obtain ⟨i, j, hlt, hi, hj⟩ := h.1 _ (List.mem_map_of_mem hm)
    rwa [(minted_param n).unique hi, (minted_param m).unique hj]

/-- A program mentions parameters that it has only. They are numbered in the order in which they
stand, and all names that are drawn for the program, for variables and for parameters alike, are
different from each other and from the column of the response. -/
theorem compile_parameters (s : Setup) (r : Request) (p : Compiled) (h : compile s r = .ok p) :
    (∀ x, .param x ∈ p.items → x ∈ p.params.keys) ∧ p.params.keys.Nodup ∧
      (∃ numbers : List Nat, p.params.keys = numbers.map (fun n => "param" ++ toString n) ∧
        numbers.Pairwise (· < ·)) ∧
      ∃ o t names, s.plan r = .ok o ∧ Draws (programOf s.terms o) {} p.clauses t names ∧
        p.params = t.params ∧ p.params.keys.Sublist names ∧ names.Nodup ∧
          responseColumn ∉ names := by
  obtain ⟨o, t, hplan, hprogram, hparams, _⟩ := Scoping.compile_ok h
  have hgrants : Grants (p.policy s.schema) (Concludes (p.policy s.schema) o)
      (programOf s.terms o) :=
    grants_programOf rfl (parts_allowed hplan p)
  obtain ⟨names, hdraws⟩ := hgrants.draws {} p.clauses t hprogram
  have hdrawn := hdraws.drawn
  obtain ⟨made, hmade, hsub, hform⟩ := hdrawn.params
  obtain rfl : p.params = made := by simpa [hparams] using hmade
  have hnames := drawn_earlier hdrawn
  have hkeys : p.params.keys.Pairwise Earlier := hnames.sublist hsub
  refine ⟨fun x hx => compile_obeys h _ hx, hkeys.imp Earlier.ne, rising_params hkeys hform, ?_⟩
  exact ⟨o, t, names, hplan, hdraws, hparams, hsub, hnames.imp Earlier.ne,
    drawn_not_response hdrawn⟩

theorem famous_parameters :
    ∃ p, compile Stage.setup Stage.famous = .ok p ∧
      (∀ x, .param x ∈ p.items → x ∈ p.params.keys) ∧ p.params.keys.Nodup := by
  obtain ⟨p, h⟩ := famous_compiles
  obtain ⟨hknown, hdistinct, _⟩ := compile_parameters Stage.setup Stage.famous p h
  exact ⟨p, h, hknown, hdistinct⟩

end Names

end GraphSelection
