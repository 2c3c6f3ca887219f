import GraphSelection.Proofs.Browsed.Pages
import GraphSelection.Proofs.Nested.Operations
import GraphSelection.Proofs.Total

/-!
Paging by cursors visits every edge once. The first request for a connection carries no cursor;
while a page announces another one, the next request asks for what comes after the last edge that
was seen. Every such request is accepted, the pages come to an end, and one after the other they are
the edges in their order.
-/
namespace GraphSelection

open Cypher Plan Resolve Program

section Browsing

variable {α : Type}

/-- The offset of the last edge, when so many edges from the start on were seen. -/
def lastSeen : Nat → Option Nat
  | 0 => none
  | n + 1 => some n

/-- After every cursor the edges behind it are shown, as many as fit on a page, and a next page is
announced exactly when some edge lies beyond them. -/
def Turns (shows : Option Nat → List α → Bool → Prop) (size : Nat) (edges : List α) : Prop :=
  ∀ last, Reachable last →
    shows last ((edges.drop ((skipAfter last).getD 0)).take size)
      (decide ((skipAfter last).getD 0 + size < edges.length))

/-- The pages that are shown from some number of edges on. Each page that announces another one is
followed by what comes after the last edge that was seen, and one that does not is the last. -/
inductive Browses (shows : Option Nat → List α → Bool → Prop) : Nat → List (List α) → Prop
  | last {seen : Nat} {window : List α} (h : shows (lastSeen seen) window false) :
      Browses shows seen [window]
  | next {seen : Nat} {window : List α} {pages : List (List α)}
      (h : shows (lastSeen seen) window true)
      (hrest : Browses shows (seen + window.length) pages) : Browses shows seen (window :: pages)

/-- Browsed from the start, the pages come to an end and hold each edge once, in order. -/
structure Visits (shows : Option Nat → List α → Bool → Prop) (size : Nat) (edges : List α) :
    Prop where
  turns : Turns shows size edges
  ends : ∃ pages, Browses shows 0 pages ∧ pages.flatten = edges

variable {shows : Option Nat → List α → Bool → Prop} {size : Nat} {edges : List α}

theorem skipAfter_lastSeen (seen : Nat) : (skipAfter (lastSeen seen)).getD 0 = seen := by
  cases seen with
  | zero => rfl
  | succ n => rfl

theorem reachable_lastSeen {seen : Nat} (h : seen < Decimal.word64) :
    Reachable (lastSeen seen) := by
  cases seen with
  | zero => exact nofun
  | succ n =>
    rintro _ ⟨⟩
    exact h

/-- From each edge on, the rest of the edges is shown page by page. -/
theorem Turns.browses (hturns : Turns shows size edges) (hsize : 0 < size)
    (hlength : edges.length < Decimal.word64) {seen : Nat} (hseen : seen ≤ edges.length) :
    ∃ pages, Browses shows seen pages ∧ pages.flatten = edges.drop seen := by
  -- The edges that are left become fewer with every page, as a page that announces another is full.
  induction hleft : edges.length - seen using Nat.strong_induction_on generalizing seen with
  | _ left ih =>
    have hturn := hturns (lastSeen seen) (reachable_lastSeen (Nat.lt_of_le_of_lt hseen hlength))
    rw [skipAfter_lastSeen] at hturn
    by_cases hmore : seen + size < edges.length
    · have hfull : ((edges.drop seen).take size).length = size := by
        rw [List.length_take, List.length_drop]
        omega
      obtain ⟨pages, hpages, hrest⟩ :=
        ih (edges.length - (seen + size)) (by omega) (Nat.le_of_lt hmore) rfl
      rw [decide_eq_true hmore] at hturn
      refine ⟨_, .next hturn (hfull.symm ▸ hpages), ?_⟩
      rw [List.flatten_cons, hrest, ← List.drop_drop, List.take_append_drop]
    · have hwhole : (edges.drop seen).take size = edges.drop seen := by
        refine List.take_of_length_le ?_
        rw [List.length_drop]
        omega
      rw [decide_eq_false hmore, hwhole] at hturn
      exact ⟨_, .last hturn, List.flatten_singleton⟩

theorem Turns.visits (hturns : Turns shows size edges) (hsize : 0 < size)
    (hlength : edges.length < Decimal.word64) : Visits shows size edges :=
  ⟨hturns, hturns.browses hsize hlength (Nat.zero_le _)⟩

end Browsing

section Connections

variable {s : Setup} {depth : Nat} {target : Target} {via : Option Via} {q : Asked} {path : String}
  {l : Lookup Field} {r : Request} {size : Nat} {last : Option Nat} {α : Type}

/-- The entry of a connection, wherever it stands, is read and written for what comes after the last
edge that was seen, and shows the page under whatever parameters the program ends up with. -/
def EntryShows (read : Asked → Result (Lookup Field)) (q : Asked) (ctx : Context) (u : Supply)
    (edges : List α) (last : Option Nat) (window : List α) (more : Bool) : Prop :=
  ∃ l clauses v, read (q.after last) = .ok l ∧ Field.lookupClauses ctx l u = .ok (clauses, v) ∧
    ∀ env : Entries Doc, v.params <+: env → env.keys.Nodup →
      ShowsPage env q.selection clauses edges window more

/-- The request for what comes after the last edge that was seen is compiled, and its program shows
the page. -/
def RequestShows (s : Setup) (r : Request) (edges : List α) (last : Option Nat)
    (window : List α) (more : Bool) : Prop :=
  ∃ p, compile s (r.after last) = .ok p ∧
    ShowsPage p.params r.selection p.clauses edges window more

theorem startingAt_page (skip : Option Nat) (l : Lookup Field) :
    (l.startingAt skip).page = { l.page with skip } := by
  cases l <;> rfl

theorem startingAt_depth (skip : Option Nat) (l : Lookup Field) :
    (Operation.lookup (l.startingAt skip)).depth = (Operation.lookup l).depth := by
  cases l with
  | read r =>
    obtain ⟨scope, fields, sort, page⟩ := r
    rfl
  | connection c => rfl
  | composite c => rfl
  | compositeConnection c => rfl

theorem connectionOf_connects {below : FieldReader}
    (h : s.connectionOf below target via q path = .ok l) : ConnectsFor q.selection l := by
  cases target with
  | entity e =>
    obtain ⟨c, hc, rfl⟩ := (except_map_ok ..).mp h
    simp only [Setup.entityConnection, except_bind_ok, except_pure_ok] at hc
    obtain ⟨items, hitems, _, _, _, _, _, _, _, _, _, _, rfl⟩ := hc
    exact items_for hitems
  | composite composite =>
    obtain ⟨c, hc, rfl⟩ := (except_map_ok ..).mp h
    obtain ⟨_, items, _, _, hitems, _, rfl⟩ := Setup.compositeConnection_iff.mp hc
    exact items_for hitems

/-- A connection that starts after the last edge seen shows the next page of edges. -/
theorem assures_turn (ctx : Context) {selection : List Selection}
    (hbehind : ∀ part ∈ Field.lookupParts (l.startingAt (skipAfter last)), Behind part)
    (hfor : ConnectsFor selection (l.startingAt (skipAfter last)))
    (hlimit : l.page.limit = some size) (edges : List α) (env : Entries Doc) :
    Assures env (fun clauses => ShowsPage env selection clauses edges
        ((edges.drop ((skipAfter last).getD 0)).take size)
        (decide ((skipAfter last).getD 0 + size < edges.length)))
      (Field.lookupClauses ctx (l.startingAt (skipAfter last))) := by
  have hpage := startingAt_page (skipAfter last) l
  have hsize : (l.startingAt (skipAfter last)).page.limit = some size := by rw [hpage, hlimit]
  have h : Assures env _ _ := assures_page ctx hbehind hfor hsize edges
  rw [hsize, hpage] at h
  exact h

/-- All that is read for a connection fits the schema, so it can be written down. -/
theorem connectionOf_writable (hclosed : s.schema.Closed) {name : String}
    (htarget : s.schema.target name = .ok target)
    (h : s.connectionOf (s.fieldsAt depth) target via q path = .ok l) :
    l.relationship? = via.map Via.relationship ∧
      ∀ part ∈ Field.lookupParts l, Writable part ∧ Behind part := by
  have hknown : ∀ e, target = .entity e → e ∈ s.schema.entities.values :=
    fun e he => target_known (he ▸ htarget)
  obtain ⟨hrelationship, hguards⟩ :=
    Setup.connectionOf_ok (Setup.reads_fieldsAt s depth) hknown h
  have hsettles : Settles (Setup.GroundedLookup via)
      (s.connectionOf (s.fieldsAt depth) target via q path) :=
    Setup.settles_connectionOf hclosed (Setup.settled_fieldsAt hclosed depth) htarget path
  rw [h] at hsettles
  refine ⟨hrelationship, fun part hpart => ?_⟩
  have hfits := Setup.guards_fits (Setup.guards_of_selected (hguards part hpart))
  exact ⟨⟨hfits.mono fun a ha => ha.1, hsettles.2 part hpart⟩, behind_of_fits hfits⟩

theorem turns_entry (hclosed : s.schema.Closed) {name : String}
    (htarget : s.schema.target name = .ok target)
    (h : s.connectionOf (s.fieldsAt depth) target via q path = .ok l)
    (hnew : q.argument "after" = none) (hlimit : l.page.limit = some size) {ctx : Context}
    (hreaches : ctx.Reaches (via.map Via.relationship)) (u : Supply) (edges : List α) :
    Turns (EntryShows (fun q => s.connectionOf (s.fieldsAt depth) target via q path) q ctx u edges)
      size edges := by
  intro last hlast
  have hafter := Setup.connectionOf_after hnew hlast h
  obtain ⟨hrelationship, hparts⟩ := connectionOf_writable hclosed htarget hafter
  obtain ⟨clauses, v, hrun, _⟩ := (completes_lookupClauses ctx _ (hrelationship ▸ hreaches)
    fun part hpart => (hparts part hpart).1).run u
  refine ⟨_, clauses, v, hafter, hrun, fun env hparams hnodup => ?_⟩
  have hpage := assures_turn ctx (fun part hpart => (hparts part hpart).2)
    (connectionOf_connects hafter) hlimit edges env
  exact (hpage.run hnodup u clauses v hrun hparams).2

theorem turns_request (hclosed : s.schema.Closed) (hkind : r.operation = .connection)
    (hplan : s.plan r = .ok (.lookup l)) (hnew : nonNull? (Entries.get? r.args "after") = none)
    (hlimit : l.page.limit = some size) (edges : List α) :
    Turns (RequestShows s r edges) size edges := by
  intro last hlast
  have hafter := Setup.operation_after hkind hnew hlast (Scoping.plan_ok hplan)
  obtain ⟨p, hp⟩ := compile_of_plan hclosed hafter
    (startingAt_depth (skipAfter last) l ▸ Setup.depth_le_of_plan hplan)
  obtain ⟨o, t, hplanned, hprogram, hparams, _⟩ := Scoping.compile_ok hp
  obtain rfl := Except.ok.inj (hafter.symm.trans (Scoping.plan_ok hplanned))
  obtain ⟨target, l', _, hread, hl⟩ := Setup.operation_connection (r := r.after last) hkind hafter
  obtain rfl := Operation.lookup.inj hl
  have hshows : Assures p.params _
      (programOf s.terms (.lookup (l.startingAt (skipAfter last)))) :=
    assures_skip "this" fun subject =>
      assures_turn (.root s.terms subject responseColumn) (behind_of_operation hafter)
        (connectionOf_connects hread) hlimit edges p.params
  have hrun := hshows.run (keys_nodup hplanned hprogram hparams) {} p.clauses t hprogram
    (hparams ▸ List.prefix_refl t.params)
  exact ⟨p, hp, hrun.2⟩

end Connections

/-- Each edge of a connection is visited once, in order, by the programs for its pages. So it is
for every request of a connection, over an entity or a composite, and for what is written of a
connection wherever it stands in a request. -/
theorem connections_visited {d : Definition} {s : Setup} (hbuild : d.build = .ok s.schema) :
    (∀ (r : Request) (l : Lookup Field) (size : Nat), r.operation = .connection →
      s.plan r = .ok (.lookup l) → nonNull? (Entries.get? r.args "after") = none →
      l.page.limit = some size → 0 < size →
      ∀ (α : Type) (edges : List α), edges.length < Decimal.word64 →
        Visits (RequestShows s r edges) size edges) ∧
    ∀ (name : String) (target : Target) (via : Option Via) (depth : Nat) (q : Asked)
      (path : String) (l : Lookup Field) (size : Nat), s.schema.target name = .ok target →
      s.connectionOf (s.fieldsAt depth) target via q path = .ok l → q.argument "after" = none →
      l.page.limit = some size → 0 < size →
      ∀ (ctx : Context) (u : Supply), ctx.Reaches (via.map Via.relationship) →
      ∀ (α : Type) (edges : List α), edges.length < Decimal.word64 →
        Visits (EntryShows (fun asked => s.connectionOf (s.fieldsAt depth) target via asked path) q
          ctx u edges) size edges := by
  have hclosed := Definition.build_closed hbuild
  constructor
  · intro r l size hkind hplan hnew hlimit hsize α edges hlength
    exact (turns_request hclosed hkind hplan hnew hlimit edges).visits hsize hlength
  · intro name target via depth q path l size htarget hread hnew hlimit hsize ctx u hreaches α
      edges hlength
    exact (turns_entry hclosed htarget hread hnew hlimit hreaches u edges).visits hsize hlength

/-- The titles on a page, and whether there is another one. -/
def Stage.pageOfTitles : List Selection :=
  [(Selection.leaf "edges").select [(Selection.leaf "node").select [.leaf "title"]],
   (Selection.leaf "pageInfo").select [.leaf "hasNextPage"]]

/-- Two films at a time. -/
def Stage.leafed : Request :=
  { operation := .connection
    entity := "Film"
    args := [("first", .int 2)]
    selection := Stage.pageOfTitles }

/-- Two works of a person at a time. -/
def Stage.worksAsked : Asked := ⟨[("first", .int 2)], Stage.pageOfTitles, []⟩

theorem leafed_plan :
    ∃ l, Stage.setup.plan Stage.leafed = .ok (.lookup l) ∧ l.page.limit = some 2 :=
  ⟨_, rfl, rfl⟩

theorem works_read :
    ∃ target l, Stage.schema.target "Work" = .ok target ∧
      Stage.setup.connectionOf (Stage.setup.fieldsAt 3) target (some ⟨"Person", Stage.works⟩)
        Stage.worksAsked "worksConnection" = .ok l ∧ l.page.limit = some 2 :=
  ⟨_, _, rfl, rfl, rfl⟩

/-- Five films are seen on the pages of a request, and five works of a person on the pages of an
entry inside one. -/
theorem titles_visited :
    Visits (RequestShows Stage.setup Stage.leafed [1, 2, 3, 4, 5]) 2 [1, 2, 3, 4, 5] ∧
    ∃ target, Stage.schema.target "Work" = .ok target ∧ ∀ (ctx : Context) (u : Supply),
      Visits (EntryShows (fun asked => Stage.setup.connectionOf (Stage.setup.fieldsAt 3) target
        (some ⟨"Person", Stage.works⟩) asked "worksConnection") Stage.worksAsked
          (ctx.enter "this2" (some "this1") "var3") u [1, 2, 3, 4, 5]) 2 [1, 2, 3, 4, 5] := by
  have hvisited := connections_visited (s := Stage.setup) Stage.definition_build
  obtain ⟨l, hplan, hlimit⟩ := leafed_plan
  obtain ⟨target, l', htarget, hread, hlimit'⟩ := works_read
  refine ⟨hvisited.1 _ l 2 rfl hplan rfl hlimit (by decide) Nat _ (by decide), target, htarget,
    fun ctx u => ?_⟩
  exact hvisited.2 "Work" target _ 3 _ _ l' 2 htarget hread rfl hlimit' (by decide) _ u
    (reaches_enter ctx _ _ _ _) Nat _ (by decide)

end GraphSelection
