import GraphSelection.Proofs.Mixed
import GraphSelection.Proofs.Restated.Conditions
import GraphSelection.Proofs.Spelled.Fields

/-!
The two spellings agree. An object of conditions in which keys with endings are unfolded, some or
all and at any depth, stands for the same condition as before, or is refused for a reason of the
same kind.
-/
namespace GraphSelection.Resolve

open GraphSelection Plan

/-- Objects in two spellings are read to one condition, each to its own height. -/
theorem Reader.conditionAt_alternate {r : Reader} (hclean : CleanNames r.setup.schema)
    (d d' : Nat) :
    LevelsConcur r.setup.schema d d' (r.conditionAt d) (r.conditionAt d') := by
  induction d, d' using heights_induction with
  | empty d d' hzero =>
    intro keys members members' path path' _ h
    obtain ⟨rfl, rfl⟩ := h.empty rfl hzero
    rw [conditionAt_empty, conditionAt_empty]
    exact .ok rfl
  | level d d' ih =>
    intro keys members members' path path' hkeys h
    -- No field is noted twice on either side, so entries are read one by one.
    obtain ⟨hapart, hentries⟩ := h.byKey rfl
    have hapart' := hapart.respelled hclean hentries
    rw [conditionAt_outcomes r d path (hapart.noted_nodup hkeys r),
      conditionAt_outcomes r d' path' (hapart'.noted_nodup hkeys r)]
    refine (Concur.mapMSame (h.entries rfl) fun e e' he => ?_).mapSame _
    exact outcome_alternate hclean ih hkeys he

section Respelling

variable {schema : Schema} {p q : Place} {key base : String} {inner : List String}
  {v v' nested : Doc}

/-- An object of one key that is unfolded. -/
theorem respelled_unfolded (hp : p.respells = true) (hclaims : p.vocabulary schema ≠ .claims)
    (hunfolds : Unfolds schema (p.vocabulary schema) key base inner)
    (hunder : p.under schema [(key, v)] key = [q]) (h : Respelled schema q v v')
    (hnested : nested = v'.nested inner) :
    Respelled schema p (.record [(key, v)]) (.record [(base, nested)]) := by
  subst hnested
  refine respelled_record hp (List.pairwise_singleton _ _) (.cons ?_ .nil)
  refine .unfolded hunfolds (fun h => absurd h hclaims) fun q' hq' => ?_
  rw [hunder, List.mem_singleton] at hq'
  exact hq' ▸ h

/-- An object of one key that stays. -/
theorem respelled_kept (hp : p.respells = true)
    (hunder : p.under schema [(key, v)] key = [q]) (h : Respelled schema q v v') :
    Respelled schema p (.record [(key, v)]) (.record [(key, v')]) := by
  refine respelled_record hp (List.pairwise_singleton _ _) (.cons (.kept fun q' hq' => ?_) .nil)
  rw [hunder, List.mem_singleton] at hq'
  exact hq' ▸ h

end Respelling

end GraphSelection.Resolve

namespace GraphSelection.Stage

open Plan Resolve

/-- Directors by their names or by their films, with endings. -/
def credits : Doc.Members :=
  [("OR", .list
    [.record [("name_CONTAINS", .text "a")],
     .record [("films_SOME", .record [("title_EQ", .text "Emma")])],
     .record [("NOT", .record
       [("filmsConnection_ALL", .record
         [("node", .record [("title_IN", .list [.text "Emma"])])])])],
     .record [("filmsAggregate", .record [("count_GTE", .int 2)])],
     .record [("filmsAggregate", .record
       [("node", .record [("title_LONGEST_LENGTH_LT", .int 9)])])]])]

/-- The same directors, without endings. -/
def creditsUnfolded : Doc.Members :=
  [("OR", .list
    [.record [("name", .record [("contains", .text "a")])],
     .record [("films", .record [("some", .record [("title", .record [("eq", .text "Emma")])])])],
     .record [("NOT", .record
       [("filmsConnection", .record [("all", .record
         [("node", .record [("title", .record [("in", .list [.text "Emma"])])])])])])],
     .record [("filmsAggregate", .record [("count", .record [("gte", .int 2)])])],
     .record [("filmsAggregate", .record
       [("node", .record [("title", .record [("longestLength", .record [("lt", .int 9)])])])])]])]

end GraphSelection.Stage

namespace GraphSelection.Resolve

open GraphSelection Plan

/-- The two spellings agree at every depth. An object and one in which keys with endings are
unfolded are both read to the same condition, or to none, or both are refused with failures of one
kind. -/
theorem spellings_agree (r : Reader) (keys : Keys) (members members' : Doc.Members) (path : String)
    (hclean : CleanNames r.setup.schema) (hkeys : keys.Declared r.setup.schema)
    (h : Respelled r.setup.schema (.object keys) (.record members) (.record members')) :
    (r.condition keys members path).mapError Failure.kind =
      (r.condition keys members' path).mapError Failure.kind := by
  refine Concur.mapError_eq ?_
  exact Reader.conditionAt_alternate hclean _ _ keys members members' path path hkeys
    ⟨h, Nat.le_refl _, Nat.le_refl _⟩

section Credits

/-- The keys of the credits, unfolded. -/
theorem credits_unfold :
    Unfolds Stage.studio.schema .fields "name_CONTAINS" "name" ["contains"] ∧
    Unfolds Stage.studio.schema .fields "title_EQ" "title" ["eq"] ∧
    Unfolds Stage.studio.schema .fields "title_IN" "title" ["in"] ∧
    Unfolds Stage.studio.schema .fields "films_SOME" "films" ["some"] ∧
    Unfolds Stage.studio.schema .fields "filmsConnection_ALL" "filmsConnection" ["all"] ∧
    Unfolds Stage.studio.schema .counts "count_GTE" "count" ["gte"] ∧
    Unfolds Stage.studio.schema .reductions "title_LONGEST_LENGTH_LT" "title"
      ["longestLength", "lt"] := by
  have hname : "name" ∈ attributeNames Stage.studio.schema := by decide
  have htitle : "title" ∈ attributeNames Stage.studio.schema := by decide
  have hfilms : "films" ∈ relationshipNames Stage.studio.schema := by decide
  have hcontains : ("_CONTAINS", "contains") ∈ comparisonSpellings := by decide
  have heq : ("_EQ", "eq") ∈ comparisonSpellings := by decide
  have hin : ("_IN", "in") ∈ comparisonSpellings := by decide
  have hsome : ("_SOME", "some") ∈ quantifierSpellings := by decide
  have hall : ("_ALL", "all") ∈ quantifierSpellings := by decide
  have hgte : ("_GTE", "gte") ∈ measureSpellings := by decide
  have hlt : ("_LT", "lt") ∈ measureSpellings := by decide
  have hlongest : ("_LONGEST_LENGTH", "longestLength") ∈ reductionSpellings := by decide
  exact ⟨.compared hname hcontains, .compared htitle heq, .compared htitle hin,
    .quantified hfilms hsome, .connected hfilms hall, .counted hgte,
    .reduced htitle hlongest hlt⟩

theorem credits_respelled :
    Respelled Stage.studio.schema (.object (.node Stage.director)) (.record Stage.credits)
      (.record Stage.creditsUnfolded) := by
  obtain ⟨hname, heq, hin, hsome, hall, hcount, hlength⟩ := credits_unfold
  have hfields : ∀ e, (Place.object (.node e)).vocabulary Stage.studio.schema ≠ .claims := by
    simp [Place.vocabulary]
  have htarget : Stage.studio.schema.targetOf Stage.films = .ok (.entity (Stage.work "Film")) := rfl
  have hfilm : (Place.target (Stage.studio.schema.targetOf Stage.films)).vocabulary
      Stage.studio.schema ≠ .claims := by
    simp [Place.vocabulary, htarget, targetVocabulary]
  have hcounts : (Place.aggregation Stage.films).vocabulary Stage.studio.schema ≠ .claims := by
    simp [Place.vocabulary]
  refine respelled_kept (q := .objects (.node Stage.director)) rfl rfl ?_
  simp only [Respelled, Place.respellsItems, ↓reduceIte]
  refine ⟨_, rfl, itemsRespelled_iff.mpr ?_⟩
  simp only [Place.items, List.mem_singleton, forall_eq]
  refine .cons ?_ (.cons ?_ (.cons ?_ (.cons ?_ (.cons ?_ .nil))))
  · exact respelled_unfolded (q := .like) rfl (hfields _) hname rfl (by simp [Respelled]) rfl
  · have hnode : Respelled Stage.studio.schema (.target (Stage.studio.schema.targetOf Stage.films))
        (.record [("title_EQ", .text "Emma")])
        (.record [("title", .record [("eq", .text "Emma")])]) :=
      respelled_unfolded (q := .like) rfl hfilm heq rfl (by simp [Respelled]) rfl
    exact respelled_unfolded rfl (hfields _) hsome rfl hnode rfl
  · have hnode : Respelled Stage.studio.schema (.target (Stage.studio.schema.targetOf Stage.films))
        (.record [("title_IN", .list [.text "Emma"])])
        (.record [("title", .record [("in", .list [.text "Emma"])])]) :=
      respelled_unfolded (q := .like) rfl hfilm hin rfl
        (by simp [Respelled, Place.respellsItems]) rfl
    have hconnected : Respelled Stage.studio.schema (.connected Stage.films)
        (.record [("node", .record [("title_IN", .list [.text "Emma"])])])
        (.record [("node", .record [("title", .record [("in", .list [.text "Emma"])])])]) :=
      respelled_kept rfl rfl hnode
    refine respelled_kept (q := .object (.node Stage.director)) rfl rfl ?_
    exact respelled_unfolded rfl (hfields _) hall rfl hconnected rfl
  · refine respelled_kept (q := .aggregation Stage.films) rfl rfl ?_
    exact respelled_unfolded (q := .measured) rfl hcounts hcount rfl (by simp [Respelled]) rfl
  · refine respelled_kept (q := .aggregation Stage.films) rfl rfl ?_
    refine respelled_kept (q := .reduced (Stage.work "Film").attribute?) rfl rfl ?_
    exact respelled_unfolded (q := .measured) rfl (by simp [Place.vocabulary]) hlength rfl
      (by simp [Respelled]) rfl

end Credits

/-- The credits stand for one condition in both spellings. -/
theorem credits_agree :
    ∃ c, Reader.condition ⟨Stage.studio, false⟩ (.node Stage.director) Stage.credits
        "Director.where" = .ok (some c) ∧
      Reader.condition ⟨Stage.studio, false⟩ (.node Stage.director) Stage.creditsUnfolded
        "Director.where" = .ok (some c) := by
  have hagree := spellings_agree ⟨Stage.studio, false⟩ (.node Stage.director) Stage.credits
    Stage.creditsUnfolded "Director.where" (by decide +kernel) List.mem_cons_self credits_respelled
  have hread : (Reader.condition ⟨Stage.studio, false⟩ (.node Stage.director) Stage.credits
      "Director.where").toOption.any Option.isSome = true := by
    decide +kernel
  generalize Reader.condition ⟨Stage.studio, false⟩ (.node Stage.director) Stage.credits
    "Director.where" = x at hagree hread ⊢
  generalize Reader.condition ⟨Stage.studio, false⟩ (.node Stage.director) Stage.creditsUnfolded
    "Director.where" = y at hagree ⊢
  cases x with
  | error f => cases hread
  | ok c =>
    cases y with
    | error f => cases hagree
    | ok c' =>
      cases hagree
      cases c with
      | none => cases hread
      | some c => exact ⟨c, rfl, rfl⟩

end GraphSelection.Resolve
