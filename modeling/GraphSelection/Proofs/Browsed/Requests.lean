import GraphSelection.Proofs.Browsed.Cursors
import GraphSelection.Proofs.Paged.Requests

/-!
Requests for the pages of a connection. An entry that is read without `after` is read with `after`
as well, for every cursor whose next offset fits in 64 bits, and the two lookups differ in the start
of the page only.
-/
namespace GraphSelection.Entries

variable {α : Type}

theorem get?_put_self (es : Entries α) (key : String) (value : α) :
    (es.put key value).get? key = some value := by
  induction es with
  | nil => simp [put, get?]
  | cons e rest ih =>
    obtain ⟨k, v⟩ := e
    by_cases hk : k = key
    · simp [put, get?, hk]
    · have hne : (key == k) = false := by simpa using fun heq => hk heq.symm
      simpa [put, get?, hk, List.lookup_cons, hne] using ih

theorem get?_put_of_ne (es : Entries α) {key other : String} (value : α) (h : other ≠ key) :
    (es.put key value).get? other = es.get? other := by
  induction es with
  | nil =>
    have hne : (other == key) = false := by simpa using h
    simp [put, get?, List.lookup_cons, hne]
  | cons e rest ih =>
    obtain ⟨k, v⟩ := e
    by_cases hk : k = key
    · have hne : (other == k) = false := by simpa [hk] using h
      have hne' : (other == key) = false := by simpa using h
      simp [put, get?, hk, List.lookup_cons, hne']
    · simp only [put, if_neg hk, get?, List.lookup_cons]
      split
      · rfl
      · exact ih

end GraphSelection.Entries

namespace GraphSelection.Plan.Lookup

/-- The lookup with another start of the page. -/
def startingAt (skip : Option Nat) : Lookup Field → Lookup Field
  | .read r => .read { r with page := { r.page with skip } }
  | .connection c => .connection { c with page := { c.page with skip } }
  | .composite c => .composite { c with page := { c.page with skip } }
  | .compositeConnection c => .compositeConnection { c with page := { c.page with skip } }

end GraphSelection.Plan.Lookup

namespace GraphSelection

/-- The offset of the first edge after the last one that was seen; before any was seen it is not
asked for. -/
def skipAfter (last : Option Nat) : Option Nat := last.map (· + 1)

/-- The next edge can be asked for by a cursor. -/
def Reachable (last : Option Nat) : Prop := ∀ n ∈ last, n + 1 < Decimal.word64

/-- Arguments that ask for what comes after the last edge that was seen, by the cursor of that
edge. -/
def argsAfter (args : List (String × Doc)) : Option Nat → List (String × Doc)
  | none => args
  | some n => Entries.put args "after" (.text (Cursor.ofOffset n))

def Request.after (r : Request) (last : Option Nat) : Request :=
  { r with args := argsAfter r.args last }

end GraphSelection

namespace GraphSelection.Resolve

open GraphSelection Plan

def Asked.after (q : Asked) (last : Option Nat) : Asked :=
  { q with args := argsAfter q.args last }

theorem get?_argsAfter (args : List (String × Doc)) (last : Option Nat) {name : String}
    (h : name ≠ "after") : Entries.get? (argsAfter args last) name = Entries.get? args name := by
  cases last with
  | none => rfl
  | some n => exact Entries.get?_put_of_ne args _ h

namespace Setup

variable {s : Setup} {last : Option Nat} {path : String}

/-- The page of a connection starts after the cursor, and nothing else is arranged anew. -/
theorem connectionArrangement_after {node : Entries Attribute} {edge : Option (Entries Attribute)}
    {args : Doc.Members} {policy : Option PagePolicy} {a : Arrangement}
    (hnew : nonNull? (args.get? "after") = none) (hlast : Reachable last)
    (h : connectionArrangement s node edge args policy path = .ok a) :
    connectionArrangement s node edge (argsAfter args last) policy path =
      .ok { a with page := { a.page with skip := skipAfter last } } := by
  simp only [connectionArrangement, listArg, except_bind_ok, except_pure_ok] at h ⊢
  obtain ⟨items, hitems, keys, hkeys, requested, hrequested, skip, hskip, rfl⟩ := h
  rw [hnew] at hskip
  cases hskip
  rw [get?_argsAfter args last (by decide), get?_argsAfter args last (by decide)]
  refine ⟨items, hitems, keys, hkeys, requested, hrequested, skipAfter last, ?_, rfl⟩
  cases last with
  | none =>
    rw [argsAfter, hnew]
    rfl
  | some n =>
    have hafter := afterCursor_ofOffset (hlast n rfl) (childPath path "after")
    have hgiven : nonNull? (Entries.get? (argsAfter args (some n)) "after") =
        some (.text (Cursor.ofOffset n)) := by
      rw [argsAfter, Entries.get?_put_self]
      rfl
    rw [hgiven]
    simp only [hafter]
    rfl

theorem connectionWhere_after (args : Doc.Members) (isTraversed : Bool) :
    connectionWhere (argsAfter args last) isTraversed path =
      connectionWhere args isTraversed path := by
  have hwhere : "where" ≠ "after" := by decide
  simp only [connectionWhere, recordArg, get?_argsAfter args last hwhere]

variable {below : FieldReader} {via : Option Via} {q : Asked}

theorem entityConnection_after {e : Entity} {c : Connection Field}
    (hnew : q.argument "after" = none) (hlast : Reachable last)
    (h : s.entityConnection below e via q path = .ok c) :
    s.entityConnection below e via (q.after last) path =
      .ok { c with page := { c.page with skip := skipAfter last } } := by
  simp only [entityConnection, Asked.after, connectionWhere_after, except_bind_ok,
    except_pure_ok] at h ⊢
  obtain ⟨items, hitems, parts, hparts, node, hnode, edge, hedge, scope, hscope, arrangement,
    harrangement, rfl⟩ := h
  exact ⟨items, hitems, parts, hparts, node, hnode, edge, hedge, scope, hscope, _,
    connectionArrangement_after hnew hlast harrangement, rfl⟩

theorem compositeConnection_after {composite : Composite} {c : CompositeConnection Field}
    (hnew : q.argument "after" = none) (hlast : Reachable last)
    (h : s.compositeConnection below composite via q path = .ok c) :
    s.compositeConnection below composite via (q.after last) path =
      .ok { c with page := { c.page with skip := skipAfter last } } := by
  obtain ⟨⟨nodePath, kept, edge, sort, page⟩, items, branches, hparts, hitems, hbranches, rfl⟩ :=
    compositeConnection_iff.mp h
  obtain ⟨asked, arrangement, hasked, hpath, hkept, hedge, harrangement, hsort, hpage⟩ := hparts
  refine compositeConnection_iff.mpr
    ⟨⟨nodePath, kept, edge, sort, { page with skip := skipAfter last }⟩, items, branches,
      ⟨asked, _, ?_, hpath, hkept, hedge,
      connectionArrangement_after hnew hlast harrangement, hsort, ?_⟩, hitems, hbranches, rfl⟩
  · exact (connectionWhere_after ..).trans hasked
  · simp only at hpage
    rw [hpage]

/-- A connection that is read from the start is read after every cursor. -/
theorem connectionOf_after {target : Target} {l : Lookup Field}
    (hnew : q.argument "after" = none) (hlast : Reachable last)
    (h : s.connectionOf below target via q path = .ok l) :
    s.connectionOf below target via (q.after last) path = .ok (l.startingAt (skipAfter last)) := by
  cases target with
  | entity e =>
    obtain ⟨c, hc, rfl⟩ := (except_map_ok ..).mp h
    exact (except_map_ok ..).mpr ⟨_, entityConnection_after hnew hlast hc, rfl⟩
  | composite composite =>
    obtain ⟨c, hc, rfl⟩ := (except_map_ok ..).mp h
    exact (except_map_ok ..).mpr ⟨_, compositeConnection_after hnew hlast hc, rfl⟩

/-- The target that a request names is read as a connection. -/
theorem operation_connection {r : Request} {o : Operation} (hkind : r.operation = .connection)
    (h : s.operation r = .ok o) :
    ∃ target l, ofSchema (s.schema.target r.entity) = .ok target ∧
      s.connectionOf (s.reader r.selection r.on) target none ⟨r.args, r.selection, r.on⟩ r.entity =
        .ok l ∧ o = .lookup l := by
  simp only [operation, except_bind_ok] at h
  obtain ⟨target, htarget, h⟩ := h
  cases target with
  | entity e =>
    simp only [entityOperation, hkind] at h
    obtain ⟨l, hl, rfl⟩ := (except_map_ok ..).mp h
    exact ⟨.entity e, l, htarget, hl, rfl⟩
  | composite c =>
    simp only [compositeOperation, hkind] at h
    obtain ⟨l, hl, rfl⟩ := (except_map_ok ..).mp h
    exact ⟨.composite c, l, htarget, hl, rfl⟩

theorem operation_after {r : Request} {l : Lookup Field} (hkind : r.operation = .connection)
    (hnew : nonNull? (Entries.get? r.args "after") = none) (hlast : Reachable last)
    (h : s.operation r = .ok (.lookup l)) :
    s.operation (r.after last) = .ok (.lookup (l.startingAt (skipAfter last))) := by
  obtain ⟨target, l', htarget, hl, heq⟩ := operation_connection hkind h
  cases heq
  have hafter := connectionOf_after (q := ⟨r.args, r.selection, r.on⟩) hnew hlast hl
  have hname : (r.after last).entity = r.entity := rfl
  simp only [operation, except_bind_ok, hname]
  refine ⟨target, htarget, ?_⟩
  cases target with
  | entity e =>
    simp only [entityOperation, Request.after, hkind]
    exact (except_map_ok ..).mpr ⟨_, hafter, rfl⟩
  | composite c =>
    simp only [compositeOperation, Request.after, hkind]
    exact (except_map_ok ..).mpr ⟨_, hafter, rfl⟩

end Setup

end GraphSelection.Resolve
