import GraphSelection.Proofs.Emitted

/-!
The lookups of a program. Every lookup of a plan stands in its program with all its clauses, however
deep it is nested, and the parts of the lookup are parts of the plan.
-/
namespace GraphSelection.Program

open Cypher Plan

/-- The clauses of the lookup stand in the list, or in one of its calls and branches. -/
def Shown (l : Lookup Field) (clauses : List Clause) : Prop :=
  ∃ ctx s t block, Field.lookupClauses ctx l s = .ok (block, t) ∧ Holds block clauses

/-- The lookups among the parts stand in the clauses, and their parts are among the parts. -/
def Shows (parts : List Part) (clauses : List Clause) : Prop :=
  ∀ l, .lookup l ∈ parts → Field.lookupParts l ⊆ parts ∧ Shown l clauses

/-- The lookups among the parts stand in some of the branches. -/
def ShowsIn (parts : List Part) (bodies : List (List Clause)) : Prop :=
  ∀ l, .lookup l ∈ parts → Field.lookupParts l ⊆ parts ∧ ∃ body ∈ bodies, Shown l body

namespace Shows

variable {parts parts' : List Part} {xs ys : List Clause}

theorem mono (h : Shows parts xs) (hsub : ∀ block, Holds block xs → Holds block ys) :
    Shows parts ys := by
  intro l hl
  obtain ⟨hparts, ctx, s, t, block, hblock, hholds⟩ := h l hl
  exact ⟨hparts, ctx, s, t, block, hblock, hsub block hholds⟩

theorem left (h : Shows parts xs) (ys : List Clause) : Shows parts (xs ++ ys) :=
  h.mono fun _ hholds => hholds.left ys

theorem right (h : Shows parts xs) (ys : List Clause) : Shows parts (ys ++ xs) :=
  h.mono fun _ hholds => hholds.right ys

theorem append (h : Shows parts xs) (h' : Shows parts' xs) : Shows (parts ++ parts') xs := by
  intro l hl
  rcases List.mem_append.mp hl with hl | hl
  · exact ⟨List.subset_append_of_subset_left _ (h l hl).1, (h l hl).2⟩
  · exact ⟨List.subset_append_of_subset_right _ (h' l hl).1, (h' l hl).2⟩

/-- Parts among which there is no lookup. -/
theorem silent (h : ∀ l, .lookup l ∉ parts) : Shows parts xs := fun l hl => absurd hl (h l)

theorem cons {p : Part} (hp : ∀ l, p ≠ .lookup l) (h : Shows parts xs) :
    Shows (p :: parts) xs := by
  have hfirst : Shows [p] xs := silent fun l hl => hp l (List.mem_singleton.mp hl).symm
  exact hfirst.append h

theorem field (f : Field) (h : Shows parts xs) : Shows (.field f :: parts) xs :=
  cons (fun _ heq => by cases heq) h

/-- A lookup that stands in the clauses itself, with the lookups inside it. -/
theorem lookup {l : Lookup Field} (hparts : Field.lookupParts l = .lookup l :: parts)
    (hl : Shown l xs) (h : Shows parts xs) : Shows (Field.lookupParts l) xs := by
  rw [hparts]
  intro l' hl'
  rcases List.mem_cons.mp hl' with heq | hl'
  · cases heq
    exact ⟨by rw [hparts]; exact fun _ hp => hp, hl⟩
  · exact ⟨fun _ hp => List.mem_cons_of_mem _ ((h l' hl').1 hp), (h l' hl').2⟩

end Shows

theorem showsIn_nil (bodies : List (List Clause)) : ShowsIn [] bodies :=
  fun _ hl => absurd hl List.not_mem_nil

theorem ShowsIn.cons {parts parts' : List Part} {body : List Clause} {bodies : List (List Clause)}
    (h : Shows parts body) (h' : ShowsIn parts' bodies) :
    ShowsIn (parts ++ parts') (body :: bodies) := by
  intro l hl
  rcases List.mem_append.mp hl with hl | hl
  · exact ⟨List.subset_append_of_subset_left _ (h l hl).1, body, List.mem_cons_self, (h l hl).2⟩
  · obtain ⟨hparts, body', hbody, hshown⟩ := h' l hl
    exact ⟨List.subset_append_of_subset_right _ hparts, body', List.mem_cons_of_mem _ hbody, hshown⟩

/-- What stands in a branch stands in the union; without branches nothing does. -/
theorem ShowsIn.union {parts : List Part} {composite column : String} {bodies : List (List Clause)}
    {union : Clause} (h : ShowsIn parts bodies)
    (hunion : unionCall composite bodies column = .ok union) : Shows parts [union] := by
  intro l hl
  obtain ⟨hparts, body, hbody, ctx, s, t, block, hblock, hholds⟩ := h l hl
  rcases unionCall_bodies hunion with rfl | rfl
  · exact absurd hbody List.not_mem_nil
  · exact ⟨hparts, ctx, s, t, block, hblock, Holds.inCall [] (.branch [] [] hbody hholds)⟩

theorem shown_here {ctx : Context} {l : Lookup Field} {clauses : List Clause} {s t : Supply}
    (h : Field.lookupClauses ctx l s = .ok (clauses, t)) : Shown l clauses :=
  ⟨ctx, s, t, clauses, h, holds_self clauses⟩

mutual
theorem shows_item : (f : Field) → ∀ {ctx : Context} {calls : List Clause} {item : MapItem Expr}
    {s t : Supply}, Field.item ctx f s = .ok ((calls, item), t) → Shows f.parts calls
  | .stored key a => fun _ => .silent (by simp [Field.parts])
  | .computed key a => fun _ => .silent (by simp [Field.parts])
  | .typename key typeName => fun _ => .silent (by simp [Field.parts])
  | .lookup key l => by
    intro h
    simp only [Field.item, nestedCall, bind_ok, fresh_ok, pure_ok, Prod.mk.injEq] at h
    obtain ⟨⟨calls, e⟩, u, ⟨_, _, ⟨rfl, rfl⟩, _, _, ⟨rfl, rfl⟩, _, _, ⟨rfl, rfl⟩, clauses, v,
      hclauses, ⟨rfl, _⟩, _⟩, ⟨rfl, _⟩, _⟩ := h
    exact .field _ ((shows_lookupClauses l hclauses).mono fun _ hholds => hholds.inCall _)
  | .aggregate key a => fun _ => .silent (by simp [Field.parts])
theorem shows_items : (fields : List Field) → ∀ {ctx : Context} {calls : List Clause}
    {items : List (MapItem Expr)} {s t : Supply},
    Field.items ctx fields s = .ok ((calls, items), t) → Shows (Field.partsOf fields) calls
  | [] => fun _ => .silent fun _ => List.not_mem_nil
  | f :: rest => by
    intro h
    simp only [Field.items, bind_ok, pure_ok, Prod.mk.injEq] at h
    obtain ⟨⟨calls, item⟩, u, hitem, ⟨more, items⟩, v, hrest, ⟨rfl, _⟩, _⟩ := h
    exact ((shows_item f hitem).left more).append ((shows_items rest hrest).right calls)
theorem shows_lookupClauses : (l : Lookup Field) → ∀ {ctx : Context} {clauses : List Clause}
    {s t : Supply}, Field.lookupClauses ctx l s = .ok (clauses, t) →
    Shows (Field.lookupParts l) clauses
  | .read ⟨scope, fields, sort, page⟩ => by
    intro h
    refine .lookup rfl (shown_here h) ?_
    simp only [Field.lookupClauses, bind_ok, pure_ok] at h
    obtain ⟨found, u, _, window, v, _, ⟨calls, items⟩, w, hitems, rfl, rfl⟩ := h
    exact ((shows_items fields hitems).right _).left _
  | .connection ⟨scope, sort, page, items⟩ => by
    intro h
    refine .lookup rfl (shown_here h) ?_
    simp only [Field.lookupClauses, bind_ok, pure_ok] at h
    obtain ⟨found, u, _, ⟨collect, l⟩, v, _, ⟨calls, entries⟩, w, hentries, rfl, rfl⟩ := h
    exact ((shows_entries items hentries).right _).left _
  | .composite ⟨composite, relationship, branches, sort, page⟩ => by
    intro h
    refine .lookup rfl (shown_here h) ?_
    simp only [Field.lookupClauses, bind_ok, fresh_ok, lift_ok, pure_ok] at h
    obtain ⟨_, _, ⟨rfl, rfl⟩, columns, u, _, bodies, v, hbodies, union, _, ⟨hunion, rfl⟩, window, w,
      _, rfl, rfl⟩ := h
    exact ((shows_branches branches hbodies).union hunion).left _
  | .compositeConnection ⟨composite, relationship, branches, sort, page, items⟩ => by
    intro h
    refine .lookup rfl (shown_here h) ?_
    simp only [Field.lookupClauses, bind_ok, fresh_ok, lift_ok, pure_ok] at h
    obtain ⟨_, _, ⟨rfl, rfl⟩, columns, u, _, bodies, v, hbodies, union, _, ⟨hunion, rfl⟩,
      ⟨collect, l⟩, w, _, ⟨calls, entries⟩, x, _, rfl, rfl⟩ := h
    exact ((shows_connectionBranches branches hbodies).union hunion).left _
theorem shows_entries : (items : List (ConnectionItem Field)) → ∀ {ctx : Context} {l : EdgeList}
    {sort : List SortKey} {calls : List Clause} {entries : List (String × Expr)} {s t : Supply},
    Field.entries ctx l sort items s = .ok ((calls, entries), t) →
    Shows (Field.itemParts items) calls
  | [] => fun _ => .silent fun _ => List.not_mem_nil
  | .edges key node properties typename :: rest => by
    intro h
    simp only [Field.entries, bind_ok, fresh_ok, lift_ok, pure_ok, Prod.mk.injEq] at h
    obtain ⟨_, _, ⟨rfl, rfl⟩, _, _, ⟨rfl, rfl⟩, window, u, _, ⟨nodeCalls, nodeEntries⟩, v, hnode, _,
      _, ⟨_, rfl⟩, ⟨more, entries⟩, w, hrest, ⟨rfl, _⟩, _⟩ := h
    refine Shows.append ?_ ((shows_entries rest hrest).mono fun _ hholds => hholds.cons _)
    refine (shows_nodeEntry node hnode).mono fun _ hholds => ?_
    exact (((hholds.right _).left _).inCall _).left more
  | .aggregate key items :: rest => by
    intro h
    simp only [Field.entries, bind_ok, pure_ok, Prod.mk.injEq] at h
    obtain ⟨⟨calls, group⟩, u, _, ⟨more, entries⟩, v, hrest, ⟨rfl, _⟩, _⟩ := h
    exact (shows_entries rest hrest).right calls
  | .totalCount key :: rest => by
    intro h
    simp only [Field.entries, bind_ok, pure_ok, Prod.mk.injEq] at h
    obtain ⟨⟨more, entries⟩, v, hrest, ⟨rfl, _⟩, _⟩ := h
    exact shows_entries rest hrest
  | .pageInfo key fields :: rest => by
    intro h
    simp only [Field.entries, bind_ok, pure_ok, Prod.mk.injEq] at h
    obtain ⟨⟨more, entries⟩, v, hrest, ⟨rfl, _⟩, _⟩ := h
    exact shows_entries rest hrest
  | .typename key typeName :: rest => by
    intro h
    simp only [Field.entries, bind_ok, pure_ok, Prod.mk.injEq] at h
    obtain ⟨⟨more, entries⟩, v, hrest, ⟨rfl, _⟩, _⟩ := h
    exact shows_entries rest hrest
theorem shows_nodeEntry : (node : Option (String × List Field)) → ∀ {ctx : Context}
    {calls : List Clause} {entries : List (String × Expr)} {s t : Supply},
    Field.nodeEntry ctx node s = .ok ((calls, entries), t) → Shows (Field.nodeParts node) calls
  | none => fun _ => .silent fun _ => List.not_mem_nil
  | some (key, fields) => by
    intro h
    simp only [Field.nodeEntry, bind_ok, pure_ok, Prod.mk.injEq] at h
    obtain ⟨⟨calls, items⟩, u, hitems, ⟨rfl, _⟩, _⟩ := h
    exact shows_items fields hitems
theorem shows_branches : (branches : List (Read Field)) → ∀ {ctx : Context} {column : String}
    {columns : List String} {isFirst : Bool} {bodies : List (List Clause)} {s t : Supply},
    Field.branches ctx column columns isFirst branches s = .ok (bodies, t) →
    ShowsIn (Field.branchParts branches) bodies
  | [] => fun _ => showsIn_nil _
  | ⟨scope, fields, sort, page⟩ :: rest => by
    intro h
    simp only [Field.branches, bind_ok, pure_ok] at h
    obtain ⟨own, s₁, _, start, s₂, _, found, s₃, _, ⟨calls, items⟩, s₄, hitems, ⟨keyCalls, keys⟩,
      s₅, _, more, s₆, hrest, rfl, rfl⟩ := h
    refine ShowsIn.cons ((shows_items fields hitems).mono fun _ hholds => ?_)
      (shows_branches rest hrest)
    exact ((hholds.right _).left keyCalls).left _
theorem shows_connectionBranches : (branches : List (ConnectionBranch Field)) →
    ∀ {ctx : Context} {column : String} {columns : List String} {isFirst : Bool}
    {bodies : List (List Clause)} {s t : Supply},
    Field.connectionBranches ctx column columns isFirst branches s = .ok (bodies, t) →
    ShowsIn (Field.connectionBranchParts branches) bodies
  | [] => fun _ => showsIn_nil _
  | ⟨⟨scope, fields, sort, page⟩, edgeFields⟩ :: rest => by
    intro h
    simp only [Field.connectionBranches, bind_ok, lift_ok, pure_ok] at h
    obtain ⟨own, s₁, _, start, s₂, _, found, s₃, _, ⟨calls, items⟩, s₄, hitems, properties, _,
      ⟨_, rfl⟩, ⟨keyCalls, keys⟩, s₅, _, more, s₆, hrest, rfl, rfl⟩ := h
    refine ShowsIn.cons ((shows_items fields hitems).mono fun _ hholds => ?_)
      (shows_connectionBranches rest hrest)
    exact ((hholds.right _).left keyCalls).left _
end

section Operations

theorem lookup_not_nested (l : Lookup Field) (ms : List Mutation) :
    Part.lookup l ∉ Mutation.partsOf ms := by
  intro h
  obtain ⟨m, heq⟩ := Mutation.change_of_mem_partsOf ms _ h
  cases heq

variable {ctx : Context} {s t : Supply} {clauses : List Clause}

theorem shows_projections {fields : List Field} {contexts : List Context} {es : List Expr}
    (hne : contexts ≠ []) (h : projections fields contexts s = .ok ((clauses, es), t)) :
    Shows (Field.partsOf fields) clauses := by
  cases contexts with
  | nil => exact absurd rfl hne
  | cons first rest =>
    simp only [projections, bind_ok, pure_ok, Prod.mk.injEq] at h
    obtain ⟨⟨calls, items⟩, u₁, hitems, ⟨more, es⟩, u₂, _, ⟨rfl, _⟩, _⟩ := h
    exact (shows_items fields hitems).left more

theorem shows_createClauses {c : Create} (hne : c.nodes ≠ [])
    (h : createClauses ctx c s = .ok (clauses, t)) : Shows (Operation.create c).parts clauses := by
  simp only [createClauses, bind_ok, pure_ok] at h
  obtain ⟨⟨calls, contexts⟩, u₁, hnodes, ⟨more, es⟩, u₂, hfields, rfl, rfl⟩ := h
  have hcontexts : contexts ≠ [] := by
    intro hnil
    have hlength := (emits_newNodes hnodes).2
    rw [hnil, List.length_nil] at hlength
    exact hne (List.length_eq_zero_iff.mp hlength.symm)
  refine Shows.append (.silent fun l hl => ?_)
    (((shows_projections hcontexts hfields).right calls).left _)
  obtain ⟨n, _, hl⟩ := List.mem_flatMap.mp hl
  rcases List.mem_cons.mp hl with heq | hl
  · cases heq
  · exact lookup_not_nested l n.nested hl

theorem shows_updateClauses {u : Update} (h : updateClauses ctx u s = .ok (clauses, t)) :
    Shows (Operation.update u).parts clauses := by
  simp only [updateClauses, bind_ok, pure_ok] at h
  obtain ⟨found, u₁, _, first, u₂, _, own, u₃, _, written, u₄, _, last, u₅, _, ⟨calls, items⟩, u₆,
    hitems, rfl, rfl⟩ := h
  refine Shows.append (.cons (fun _ heq => by cases heq)
    (.silent fun l => lookup_not_nested l u.nested)) ?_
  exact (shows_items u.fields hitems).mono fun _ hholds => (hholds.andThen_right _).left _

/-- The lookups of a plan stand in its program. -/
theorem shows_programOf {terms : Terms} {o : Operation} (hne : ∀ c, o = .create c → c.nodes ≠ [])
    (h : programOf terms o s = .ok (clauses, t)) : Shows o.parts clauses := by
  simp only [programOf, bind_ok, fresh_ok] at h
  obtain ⟨subject, _, ⟨rfl, rfl⟩, h⟩ := h
  cases o with
  | lookup l => exact shows_lookupClauses l h
  | aggregate a => exact .silent (by simp [Operation.parts])
  | create c => exact shows_createClauses (hne c rfl) h
  | update u => exact shows_updateClauses h
  | delete d =>
    exact .cons (fun _ heq => by cases heq) (.silent fun l => lookup_not_nested l d.nested)

end Operations

end GraphSelection.Program
