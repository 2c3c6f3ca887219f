import GraphSelection.Proofs.Resolved.Entries

/-!
The lookups of a plan and the entries of the request that they are read for. Every lookup, at every
depth, is what some entry of the request asks for, and the size of its page is worked out from the
arguments of that entry and the limits of what it reads.
-/
namespace GraphSelection.Plan.Lookup

def page : Lookup Field → Page
  | .read r => r.page
  | .connection c => c.page
  | .composite c => c.page
  | .compositeConnection c => c.page

/-- A read of one node is no list; edges always are one. -/
def isList : Lookup Field → Bool
  | .read r => r.scope.relationship.all Relationship.isList
  | .composite c => c.relationship.all Relationship.isList
  | .connection _ => true
  | .compositeConnection _ => true

/-- The limits that an entity declares; a composite declares none. -/
def policy : Lookup Field → Option PagePolicy
  | .read r => r.scope.entity.pages
  | .connection c => c.scope.entity.pages
  | .composite _ => none
  | .compositeConnection _ => none

end GraphSelection.Plan.Lookup

namespace GraphSelection.Resolve

open GraphSelection Plan

namespace Asked

/-- An argument that is given and is not null. -/
def argument (q : Asked) (name : String) : Option Doc := nonNull? (q.args.get? name)

/-- An argument inside `options`. -/
def option (q : Asked) (name : String) : Option Doc :=
  match q.args.get? "options" with
  | some (.record options) => nonNull? (Entries.get? options name)
  | _ => none

/-- What is asked about the size of a page: `limit` of a list, `first` of a connection. -/
def size (q : Asked) : Lookup Field → Option Doc
  | .read _ => (q.argument "limit").or (q.option "limit")
  | .composite _ => (q.argument "limit").or (q.option "limit")
  | .connection _ => q.argument "first"
  | .compositeConnection _ => q.argument "first"

end Asked

namespace Setup

/-- The lookup is what is read for the entry, with all that the entry selects. -/
def Finds (s : Setup) (q : Asked) (l : Lookup Field) : Prop :=
  ∃ depth target via path, s.readOf (s.fieldsAt depth) target via q path = .ok l ∨
    s.connectionOf (s.fieldsAt depth) target via q path = .ok l

/-- Every lookup of a plan is read for an entry of the request. -/
theorem operation_finds {s : Setup} {r : Request} {o : Operation} (h : s.operation r = .ok o)
    {l : Lookup Field} (hl : .lookup l ∈ o.parts) : ∃ q, Asks r q ∧ s.Finds q l := by
  obtain ⟨q, hq, depth, target, via, path, _, _, hread⟩ := operation_reads h hl trivial
  exact ⟨q, hq, depth, target, via, path, hread⟩

section Sizes

variable {s : Setup}

/-- The greatest page of a lookup: its own maximum, else the common one. -/
def maxSize (s : Setup) (l : Lookup Field) : Option Nat :=
  (l.policy.bind PagePolicy.max).or s.settings.maxLimit

/-- The page of a lookup for which none is asked: its own default, else the common one. -/
def defaultSize (s : Setup) (l : Lookup Field) : Option Nat :=
  (l.policy.bind PagePolicy.default).or s.settings.defaultLimit

/-- The page has the size that is asked for, else the default one, and never more than the
maximum. -/
structure Sizes (s : Setup) (q : Asked) (l : Lookup Field) (max size : Nat) : Prop where
  capped : size ≤ max
  requested : ∀ value, q.size l = some value → ∃ n, value.asCount? = some n ∧ size = min n max
  byDefault : q.size l = none → ∀ n, s.defaultSize l = some n → size = min n max

theorem asCount_ok {value : Doc} {path : String} {n : Nat} (h : asCount value path = .ok n) :
    value.asCount? = some n := by
  unfold asCount at h
  split at h
  · cases h
    assumption
  · cases h

theorem recordArg_option {q : Asked} {options : Option Doc.Members} {path : String}
    (h : recordArg q.args "options" path = .ok options) (name : String) :
    nonNull? (options.bind fun o => o.get? name) = q.option name := by
  unfold recordArg at h
  unfold Asked.option
  split at h
  next hnone =>
    cases h
    simp [hnone, nonNull?]
  next hnull =>
    cases h
    simp [hnull, nonNull?]
  next members hrecord =>
    cases h
    simp [hrecord]
  next => cases h

/-- An argument is picked from where it is given, directly or inside `options`. -/
theorem pick_ok {q : Asked} {options : Option Doc.Members} {name path : String}
    {picked : Option (Doc × String)} (hoptions : recordArg q.args "options" path = .ok options)
    (h : pick q.args options name path = .ok picked) :
    picked.map Prod.fst = (q.argument name).or (q.option name) := by
  have hdirect : nonNull? (q.args.get? name) = q.argument name := rfl
  unfold pick at h
  simp only [recordArg_option hoptions, hdirect] at h
  split at h
  · cases h
  · cases h
    simp_all
  · cases h
    simp_all
  · cases h
    simp_all

theorem pickCount_ok {q : Asked} {options : Option Doc.Members} {name path : String}
    {requested : Option Nat} (hoptions : recordArg q.args "options" path = .ok options)
    (h : pickCount q.args options name path = .ok requested) :
    ((q.argument name).or (q.option name)).map Doc.asCount? = requested.map some := by
  simp only [pickCount, except_bind_ok] at h
  obtain ⟨picked, hpicked, h⟩ := h
  rw [← pick_ok hoptions hpicked]
  cases picked with
  | none =>
    simp only [except_pure_ok] at h
    subst h
    rfl
  | some found =>
    obtain ⟨n, hn, rfl⟩ := (except_map_ok ..).mp h
    simp [asCount_ok hn]

theorem listArrangement_page {q : Asked} {attributes : Entries Attribute}
    {policy : Option PagePolicy} {isList : Bool} {path : String} {arrangement : Arrangement}
    (h : listArrangement s attributes q.args policy isList path = .ok arrangement) :
    ∃ requested,
      ((q.argument "limit").or (q.option "limit")).map Doc.asCount? = requested.map some ∧
      (isList = true → arrangement.page.limit = pageSize s requested policy) := by
  simp only [listArrangement, except_bind_ok, except_pure_ok] at h
  obtain ⟨options, hoptions, _, _, _, _, requested, hrequested, rfl⟩ := h
  exact ⟨requested, pickCount_ok hoptions hrequested, fun hlist => by simp [hlist]⟩

theorem connectionArrangement_page {q : Asked} {node : Entries Attribute}
    {edge : Option (Entries Attribute)} {policy : Option PagePolicy} {path : String}
    {arrangement : Arrangement}
    (h : connectionArrangement s node edge q.args policy path = .ok arrangement) :
    ∃ requested, (q.argument "first").map Doc.asCount? = requested.map some ∧
      arrangement.page.limit = pageSize s requested policy := by
  simp only [connectionArrangement, except_bind_ok, except_pure_ok] at h
  obtain ⟨_, _, _, _, requested, hrequested, _, _, rfl⟩ := h
  refine ⟨requested, ?_, rfl⟩
  unfold Asked.argument
  split at hrequested
  next hnone =>
    cases hrequested
    simp [hnone]
  next value hvalue =>
    obtain ⟨n, hn, rfl⟩ := (except_map_ok ..).mp hrequested
    simp [hvalue, asCount_ok hn]

/-- The size of a page is that of the entry for which the lookup is read, under the limits of what
it reads. -/
theorem finds_page {q : Asked} {l : Lookup Field} (h : s.Finds q l) :
    ∃ requested, (q.size l).map Doc.asCount? = requested.map some ∧
      (l.isList = true → l.page.limit = pageSize s requested l.policy) := by
  obtain ⟨depth, target, via, path, h | h⟩ := h
  · cases target with
    | entity e =>
      obtain ⟨r, hr, rfl⟩ := (except_map_ok ..).mp h
      simp only [entityRead, except_bind_ok] at hr
      obtain ⟨_, _, arrangement, harrangement, _, _, hread⟩ := hr
      obtain ⟨_, hpage, hentity, hrelationship⟩ := readScope_read hread
      obtain ⟨requested, hasked, hlimit⟩ := listArrangement_page harrangement
      refine ⟨requested, hasked, fun hlist => ?_⟩
      simp only [Lookup.page, Lookup.policy, hpage, hentity]
      refine hlimit ?_
      simpa [Lookup.isList, hrelationship, givesList, Option.all_map] using hlist
    | composite c =>
      obtain ⟨r, hr, rfl⟩ := (except_map_ok ..).mp h
      simp only [compositeRead, except_bind_ok, except_pure_ok] at hr
      obtain ⟨_, _, _, _, arrangement, harrangement, _, _, rfl⟩ := hr
      obtain ⟨requested, hasked, hlimit⟩ := listArrangement_page harrangement
      refine ⟨requested, hasked, fun hlist => hlimit ?_⟩
      simpa [Lookup.isList, givesList, Option.all_map] using hlist
  · cases target with
    | entity e =>
      obtain ⟨c, hc, rfl⟩ := (except_map_ok ..).mp h
      simp only [entityConnection, guardedScope, except_bind_ok, except_pure_ok] at hc
      obtain ⟨_, _, _, _, _, _, _, _, _, ⟨_, _, _, _, rfl⟩, arrangement, harrangement, rfl⟩ := hc
      obtain ⟨requested, hasked, hlimit⟩ := connectionArrangement_page harrangement
      exact ⟨requested, hasked, fun _ => hlimit⟩
    | composite c =>
      obtain ⟨r, hr, rfl⟩ := (except_map_ok ..).mp h
      obtain ⟨parts, _, _, hparts, _, _, rfl⟩ := compositeConnection_iff.mp hr
      obtain ⟨_, arrangement, _, _, _, _, harrangement, _, hpage⟩ := hparts
      obtain ⟨requested, hasked, hlimit⟩ := connectionArrangement_page harrangement
      rw [← hpage] at hlimit
      exact ⟨requested, hasked, fun _ => hlimit⟩

theorem effectiveLimit_of_max {settings : Settings} {entityMax : Option Nat} {max : Nat}
    (requested entityDefault : Option Nat) (h : entityMax.or settings.maxLimit = some max) :
    settings.effectiveLimit requested entityDefault entityMax =
      some (((requested.or entityDefault).or settings.defaultLimit).elim max (min · max)) := by
  unfold Settings.effectiveLimit
  rw [h]
  cases (requested.or entityDefault).or settings.defaultLimit <;> rfl

/-- A list is never read beyond its maximum. -/
theorem finds_sizes {q : Asked} {l : Lookup Field} {max : Nat} (h : s.Finds q l)
    (hlist : l.isList = true) (hmax : s.maxSize l = some max) :
    ∃ size, l.page.limit = some size ∧ s.Sizes q l max size := by
  obtain ⟨requested, hasked, hpage⟩ := finds_page h
  have hlimit := effectiveLimit_of_max requested (l.policy.bind PagePolicy.default) hmax
  refine ⟨_, (hpage hlist).trans hlimit, ?_, fun value hvalue => ?_, fun hnone n hn => ?_⟩
  · cases (requested.or (l.policy.bind PagePolicy.default)).or s.settings.defaultLimit with
    | none => exact Nat.le_refl max
    | some n => exact Nat.min_le_right n max
  · cases requested with
    | none => simp [hvalue] at hasked
    | some n =>
      refine ⟨n, ?_, by simp⟩
      simpa [hvalue] using hasked
  · cases requested with
    | some n => simp [hnone] at hasked
    | none =>
      have hdefault : (l.policy.bind PagePolicy.default).or s.settings.defaultLimit = some n := hn
      simp [hdefault]

end Sizes

end Setup

end GraphSelection.Resolve
