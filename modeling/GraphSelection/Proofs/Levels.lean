import GraphSelection.Proofs.Restated.Documents
import GraphSelection.Proofs.Spelled.Forms

/-!
Levels of reading. Two levels that read objects alike up to a height read the entries of a higher
object alike, since what stands in an entry is lower than the object. So an object is read alike
at every depth that reaches its height, and its entries are read with its own reader again.
-/
namespace GraphSelection

section Steps

variable {ε α β : Type}

/-- What follows a step matters on the results of the step only. -/
theorem bind_congr_ok {x : Except ε α} {f g : α → Except ε β}
    (h : ∀ a, x = .ok a → f a = g a) : (x >>= f) = x >>= g := by
  cases x with
  | error e => rfl
  | ok a => exact h a rfl

theorem mapM_congr_mem {xs : List α} {f g : α → Except ε β} (h : ∀ x ∈ xs, f x = g x) :
    xs.mapM f = xs.mapM g := by
  induction xs with
  | nil => rfl
  | cons x rest ih =>
    rw [List.mapM_cons, List.mapM_cons, h x List.mem_cons_self,
      ih fun y hy => h y (List.mem_cons_of_mem _ hy)]

theorem mem_indexed {xs : List α} {entry : Nat × α} (h : entry ∈ Resolve.indexed xs) :
    entry.2 ∈ xs :=
  (List.of_mem_zip h).2

end Steps

namespace Resolve

open Plan

theorem asRecord_ok {value : Doc} {path : String} {members : Doc.Members} :
    asRecord value path = .ok members ↔ value = .record members := by
  cases value <;> simp [asRecord]

/-- Two levels read objects alike up to a height. -/
def Level.SameTo (n : Nat) (below' below : Level) : Prop :=
  ∀ keys members path, Doc.membersHeight members ≤ n →
    below' keys members path = below keys members path

section Narrowing

variable {n : Nat} {schema : Schema} {c : Composite} {path : String}

theorem nodePart_height {node : Option Doc} {found : Option Doc.Members}
    (hnode : ∀ v ∈ node, v.height ≤ n) (h : Reader.nodePart node path = .ok found) :
    ∀ members ∈ found, Doc.membersHeight members ≤ n := by
  unfold Reader.nodePart at h
  split at h
  · cases h
    simp
  · cases h
    simp
  · rename_i v hnull
    obtain ⟨members, hmembers, rfl⟩ := (except_map_ok ..).mp h
    intro members' hmem
    cases hmem
    have hheight := hnode v rfl
    rw [asRecord_ok.mp hmembers] at hheight
    exact hheight

theorem keptMember_height {members : Doc.Members} {e : Entity} {kept : List Kept}
    (hmembers : Doc.membersHeight members ≤ n) (h : keptMember members path e = .ok kept) :
    ∀ k ∈ kept, ∀ own ∈ k.2, Doc.membersHeight own ≤ n := by
  unfold keptMember at h
  split at h
  · cases h
    simp
  · cases h
    simp
  · rename_i value hnull hfound
    simp only [except_bind_ok, except_pure_ok] at h
    obtain ⟨own, hown, rfl⟩ := h
    have hlt := height_lt_of_mem (Entries.mem_of_get? hfound)
    rw [asRecord_ok.mp hown] at hlt
    have hle : Doc.membersHeight own ≤ n := hlt.le.trans hmembers
    simpa using hle

/-- What is left for a constituent is no higher than what is asked of the composite. -/
theorem narrow_height {members : Option Doc.Members} {kept : List Kept}
    (hmembers : ∀ own ∈ members, Doc.membersHeight own ≤ n)
    (h : narrow schema c members path = .ok kept) :
    ∀ k ∈ kept, ∀ own ∈ k.2, Doc.membersHeight own ≤ n := by
  have hwhole : ∀ entities : List Entity, ∀ k ∈ entities.map fun e => ((e, none) : Kept),
      ∀ own ∈ k.2, Doc.membersHeight own ≤ n := by
    intro entities k hk own hown
    obtain ⟨e, _, rfl⟩ := List.mem_map.mp hk
    cases hown
  simp only [narrow, except_bind_ok] at h
  obtain ⟨entities, _, h⟩ := h
  split at h
  · cases h
    exact hwhole entities
  · rename_i members
    have hheight := hmembers members rfl
    split at h
    · cases h
      exact hwhole entities
    · split at h
      · unfold narrowUnion at h
        split at h
        · cases h
        · simp only [except_bind_ok, except_pure_ok] at h
          obtain ⟨each, heach, rfl⟩ := h
          intro k hk
          obtain ⟨one, hone, hk⟩ := List.mem_flatten.mp hk
          obtain ⟨e, _, hkept⟩ := mem_of_mapM_ok heach one hone
          exact keptMember_height hheight hkept k hk
      · simp only [narrowInterface, except_bind_ok, except_pure_ok] at h
        obtain ⟨_, _, rfl⟩ := h
        intro k hk own hown
        obtain ⟨e, _, rfl⟩ := List.mem_map.mp hk
        simp only at hown
        split at hown
        · cases hown
        · cases hown
          exact (membersHeight_swapErase _).trans ((membersHeight_swapErase _).trans hheight)

end Narrowing

namespace Reader

variable {r : Reader} {n : Nat} {below' below : Level} {relationship : Relationship}
  {path : String}

theorem optionally_same (hsame : Level.SameTo n below' below) {keys : Keys}
    {members : Option Doc.Members} (hmembers : ∀ own ∈ members, Doc.membersHeight own ≤ n) :
    optionally below' keys members path = optionally below keys members path := by
  cases members with
  | none => rfl
  | some members => exact hsame _ _ _ (hmembers members rfl)

theorem edgePart_same (hsame : Level.SameTo n below' below) {edge : Option Doc}
    (hedge : ∀ v ∈ edge, v.height ≤ n) :
    r.edgePart below' relationship edge path = r.edgePart below relationship edge path := by
  unfold edgePart
  split
  · rfl
  · rfl
  · rename_i value hnull
    split
    · rfl
    · refine bind_congr_ok fun members hmembers => hsame _ _ _ ?_
      have hheight := hedge value rfl
      rwa [asRecord_ok.mp hmembers] at hheight

theorem related_same (hsame : Level.SameTo n below' below) (quantifier : Quantifier)
    {node edge : Option Doc} (hnode : ∀ v ∈ node, v.height ≤ n)
    (hedge : ∀ v ∈ edge, v.height ≤ n) :
    r.related below' relationship quantifier node edge path =
      r.related below relationship quantifier node edge path := by
  unfold related
  refine bind_congr_ok fun members hmembers => bind_congr_ok fun target _ => ?_
  have hheights := nodePart_height hnode hmembers
  split
  · rw [optionally_same hsame hheights, edgePart_same hsame hedge]
  · refine bind_congr_ok fun kept hkept => ?_
    have hrests := narrow_height hheights hkept
    rw [edgePart_same hsame hedge]
    congr 1
    refine mapM_congr_mem fun k hk => ?_
    simp only [optionally_same hsame (hrests k hk)]

theorem related_some_same (hsame : Level.SameTo n below' below) (quantifier : Quantifier)
    {value : Doc} (hvalue : value.height ≤ n) :
    r.related below' relationship quantifier (some value) none path =
      r.related below relationship quantifier (some value) none path :=
  related_same hsame quantifier (by simpa using hvalue) (by simp)

theorem related_none_same (hsame : Level.SameTo n below' below) (quantifier : Quantifier) :
    r.related below' relationship quantifier none none path =
      r.related below relationship quantifier none none path :=
  related_same hsame quantifier (by simp) (by simp)

theorem connected_same (hsame : Level.SameTo n below' below) (quantifier : Quantifier)
    {value : Doc} (hvalue : value.height ≤ n) :
    r.connected below' relationship quantifier value path =
      r.connected below relationship quantifier value path := by
  unfold connected
  split
  · exact related_none_same hsame quantifier
  · refine bind_congr_ok fun members hmembers => ?_
    rw [asRecord_ok.mp hmembers] at hvalue
    have hpart : ∀ key, ∀ v ∈ members.get? key, v.height ≤ n := by
      intro key v hv
      have hlt := height_lt_of_mem (Entries.mem_of_get? hv)
      have hheight : (Doc.record members).height = Doc.membersHeight members := rfl
      simp only at hlt
      omega
    split
    · rfl
    · exact related_same hsame quantifier (hpart _) (hpart _)

theorem relatedOutcome_same (hsame : Level.SameTo n below' below) {value : Doc}
    (hvalue : value.height ≤ n) :
    r.relatedOutcome below' relationship value path =
      r.relatedOutcome below relationship value path := by
  unfold relatedOutcome
  split
  · rw [related_none_same hsame]
  · rename_i members
    split
    · congr 1
      refine mapM_congr_mem fun e he => bind_congr_ok fun q _ => related_some_same hsame q ?_
      exact (height_lt_of_mem he).le.trans hvalue
    · rw [related_some_same hsame _ hvalue]
  · rfl

theorem connectionPart_same (hsame : Level.SameTo n below' below) (key : String) {inner : Doc}
    (hinner : inner.height ≤ n) :
    r.connectionPart below' relationship path key inner =
      r.connectionPart below relationship path key inner := by
  unfold connectionPart
  split
  · rfl
  · exact bind_congr_ok fun q _ => by rw [connected_same hsame q hinner]

theorem connectionOutcome_same (hsame : Level.SameTo n below' below) {value : Doc}
    (hvalue : value.height ≤ n) :
    r.connectionOutcome below' relationship value path =
      r.connectionOutcome below relationship value path := by
  unfold connectionOutcome
  split
  · rw [related_none_same hsame]
  · rename_i members
    split
    · congr 1
      refine mapM_congr_mem fun e he => connectionPart_same hsame e.1 ?_
      exact (height_lt_of_mem he).le.trans hvalue
    · rw [connected_same hsame _ hvalue]
  · rfl

theorem formOutcome_same (hsame : Level.SameTo n below' below) (owner key : String) {value : Doc}
    (hvalue : value.height ≤ n) (form : KeyForm) :
    r.formOutcome below' owner key value path form =
      r.formOutcome below owner key value path form := by
  cases form with
  | related _ => exact relatedOutcome_same hsame hvalue
  | quantified _ q _ => rw [formOutcome, related_some_same hsame q hvalue, formOutcome]
  | connection _ => rw [formOutcome, connectionOutcome_same hsame hvalue, formOutcome]
  | connected _ q _ => rw [formOutcome, connected_same hsame q hvalue, formOutcome]
  | own _ _ => rfl
  | compared _ _ _ _ => rfl
  | aggregate _ => rfl
  | unknown => rfl

theorem operands_same (hsame : Level.SameTo n below' below) (keys : Keys) {value : Doc}
    (hvalue : value.height ≤ n) :
    operands below' keys value path = operands below keys value path := by
  unfold operands
  split
  · rename_i items
    congr 1
    refine mapM_congr_mem fun entry hentry => bind_congr_ok fun members hmembers => ?_
    have hitem := height_le_of_mem (mem_indexed hentry)
    rw [asRecord_ok.mp hmembers] at hitem
    exact hsame _ _ _ (Nat.le_trans hitem hvalue)
  · rfl

theorem outcome_same (hsame : Level.SameTo n below' below) (keys : Keys) (key : String)
    {value : Doc} (hvalue : value.height ≤ n) :
    r.outcome below' keys path key value = r.outcome below keys path key value := by
  simp only [outcome]
  split
  · rw [operands_same hsame keys hvalue]
  · rw [operands_same hsame keys hvalue]
  · refine bind_congr_ok fun members hmembers => ?_
    rw [asRecord_ok.mp hmembers] at hvalue
    rw [hsame _ _ _ hvalue]
  · rw [formOutcome_same hsame _ _ hvalue]

/-- The entries of an object are read alike when its values are no higher. -/
theorem entries_same (hsame : Level.SameTo n below' below) (keys : Keys) {members : Doc.Members}
    (hmembers : ∀ e ∈ members, e.2.height ≤ n) :
    r.entries below' keys path members = r.entries below keys path members := by
  induction members with
  | nil => rfl
  | cons first rest ih =>
    obtain ⟨key, value⟩ := first
    rw [entries, entries, entry_eq, entry_eq,
      outcome_same hsame keys key (hmembers _ List.mem_cons_self),
      ih fun e he => hmembers e (List.mem_cons_of_mem _ he)]

/-- Two depths that both reach the height of an object read it alike. -/
theorem conditionAt_same (r : Reader) (d d' : Nat) :
    Level.SameTo (min d d') (r.conditionAt d') (r.conditionAt d) := by
  induction d, d' using heights_induction with
  | empty d d' hzero =>
    intro keys members path hheight
    have hnil : members = [] := by
      cases members with
      | nil => rfl
      | cons first rest =>
        have hlt := height_lt_of_mem (List.mem_cons_self (a := first) (l := rest))
        omega
    subst hnil
    cases d <;> cases d' <;> rfl
  | level d d' ih =>
    intro keys members path hheight
    have hvalues : ∀ e ∈ members, e.2.height ≤ min d d' := by
      intro e he
      have hlt := height_lt_of_mem he
      omega
    rw [conditionAt, conditionAt, entries_same ih keys hvalues]

/-- An object is read alike at every depth that reaches its height. -/
theorem conditionAt_of_height_le {keys : Keys} {members : Doc.Members} {d : Nat}
    (h : Doc.membersHeight members ≤ d) :
    r.conditionAt d keys members path = r.condition keys members path :=
  conditionAt_same r _ d keys members path (by omega)

/-- The entries of an object are read with the reader of the object itself. -/
theorem condition_entries (r : Reader) (keys : Keys) (members : Doc.Members) (path : String) :
    r.condition keys members path = (do
      let (parts, _) ← (r.entries r.condition keys path members).run []
      return Condition.allOf parts) := by
  have hnext : r.condition keys members path =
      r.conditionAt (Doc.membersHeight members + 1) keys members path :=
    (conditionAt_of_height_le (Nat.le_succ _)).symm
  have hsame : Level.SameTo (Doc.membersHeight members)
      (r.conditionAt (Doc.membersHeight members)) r.condition :=
    fun _ _ _ hheight => conditionAt_of_height_le hheight
  rw [hnext, conditionAt, entries_same hsame keys fun e he => (height_lt_of_mem he).le]

end Reader

namespace AggregationKeys

variable {k : AggregationKeys} {n : Nat}
  {below' below : Doc.Members → String → Result (Option Condition)} {path : String}

/-- An entry of an aggregation object is read alike when its value is no higher. -/
theorem entry_same
    (hsame : ∀ members path, Doc.membersHeight members ≤ n →
      below' members path = below members path)
    (key : String) {value : Doc} (hvalue : value.height ≤ n) :
    k.entry below' path key value = k.entry below path key value := by
  have hitems : ∀ items : List Doc, value = .list items → ∀ here : String,
      items.mapM (fun item => do
        let members ← asRecord item here
        below' members here) =
      items.mapM (fun item => do
        let members ← asRecord item here
        below members here) := by
    rintro items rfl here
    refine mapM_congr_mem fun item hitem => bind_congr_ok fun members hmembers => ?_
    have hheight := height_le_of_mem hitem
    rw [asRecord_ok.mp hmembers] at hheight
    exact hsame _ _ (Nat.le_trans hheight hvalue)
  unfold entry
  simp only
  split
  · split
    · rw [hitems _ rfl]
    · rfl
  · split
    · rw [hitems _ rfl]
    · rfl
  · refine bind_congr_ok fun members hmembers => ?_
    rw [asRecord_ok.mp hmembers] at hvalue
    rw [hsame _ _ hvalue]
  all_goals rfl

theorem conditionAt_same (k : AggregationKeys) (d d' : Nat) (members : Doc.Members)
    (path : String) (h : Doc.membersHeight members ≤ min d d') :
    k.conditionAt d' members path = k.conditionAt d members path := by
  induction d, d' using heights_induction generalizing members path with
  | empty d d' hzero =>
    have hnil : members = [] := by
      cases members with
      | nil => rfl
      | cons first rest =>
        have hlt := height_lt_of_mem (List.mem_cons_self (a := first) (l := rest))
        omega
    subst hnil
    cases d <;> cases d' <;> rfl
  | level d d' ih =>
    have hentries : ∀ e ∈ members, k.entry (k.conditionAt d') path e.1 e.2 =
        k.entry (k.conditionAt d) path e.1 e.2 := by
      intro e he
      have hlt := height_lt_of_mem he
      exact entry_same ih e.1 (by omega)
    rw [conditionAt, conditionAt, mapM_congr_mem hentries]

/-- The entries of an aggregation object are read with the reader of the object itself. -/
theorem condition_entries (k : AggregationKeys) (members : Doc.Members) (path : String) :
    k.condition members path = (do
      let parts ← members.mapM fun (key, value) => k.entry k.condition path key value
      return Condition.allOf parts.flatten) := by
  have hnext : k.condition members path =
      k.conditionAt (Doc.membersHeight members + 1) members path :=
    conditionAt_same k _ _ members path (by omega)
  have hentries : ∀ e ∈ members,
      k.entry (k.conditionAt (Doc.membersHeight members)) path e.1 e.2 =
        k.entry k.condition path e.1 e.2 := by
    intro e he
    refine entry_same (n := Doc.membersHeight members) (fun inner path hinner => ?_) e.1
      (height_lt_of_mem he).le
    exact conditionAt_same k _ _ inner path (by omega)
  rw [hnext, conditionAt, mapM_congr_mem hentries]

end AggregationKeys

end Resolve

end GraphSelection
