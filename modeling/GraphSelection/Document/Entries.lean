/-!
Named values in the order in which their names were first given.
-/
namespace GraphSelection

/-- Named values; a name found twice counts with its first value. -/
abbrev Entries (α : Type) := List (String × α)

namespace Entries

variable {α β : Type}

def get? (es : Entries α) (key : String) : Option α := List.lookup key es

def has (es : Entries α) (key : String) : Bool := (es.get? key).isSome

def keys (es : Entries α) : List String := es.map Prod.fst

def values (es : Entries α) : List α := es.map Prod.snd

/-- A known name keeps its place and takes the new value; a new name goes to the end. -/
def put : Entries α → String → α → Entries α
  | [], key, value => [(key, value)]
  | (k, v) :: rest, key, value =>
      if k = key then (k, value) :: rest else (k, v) :: put rest key value

/-- Repeated names are merged: the first place, the last value. -/
def merge (es : Entries α) : Entries α := es.foldl (fun acc (k, v) => acc.put k v) []

/-- Takes a name out; the last entry moves into the place that it leaves. -/
def swapErase : Entries α → String → Entries α
  | [], _ => []
  | (k, v) :: rest, key =>
      if k = key then
        match rest.getLast? with
        | none => []
        | some last => last :: rest.dropLast
      else (k, v) :: swapErase rest key

def mapValues (f : String → α → β) (es : Entries α) : Entries β := es.map fun (k, v) => (k, f k v)

theorem keys_put_of_mem (es : Entries α) (key : String) (value : α) (h : key ∈ es.keys) :
    (es.put key value).keys = es.keys := by
  induction es with
  | nil => simp [keys] at h
  | cons e rest ih =>
    obtain ⟨k, v⟩ := e
    by_cases hk : k = key
    · simp [put, keys, hk]
    · have hmem : key ∈ keys rest := by
        simp only [keys, List.map_cons, List.mem_cons] at h
        exact h.resolve_left (fun e => hk e.symm)
      simpa [put, keys, hk] using ih hmem

theorem keys_put_of_not_mem (es : Entries α) (key : String) (value : α) (h : key ∉ es.keys) :
    (es.put key value).keys = es.keys ++ [key] := by
  induction es with
  | nil => rfl
  | cons e rest ih =>
    obtain ⟨k, v⟩ := e
    simp only [keys, List.map_cons, List.mem_cons, not_or] at h
    have hk : ¬ k = key := fun e => h.1 e.symm
    simpa [put, keys, hk] using ih h.2

theorem mem_of_get? {es : Entries α} {key : String} {value : α} (h : es.get? key = some value) :
    (key, value) ∈ es := by
  obtain ⟨before, after, rfl, _⟩ := List.lookup_eq_some_iff.mp h
  simp

theorem mem_values_of_get? {es : Entries α} {key : String} {value : α}
    (h : es.get? key = some value) : value ∈ es.values :=
  List.mem_map.mpr ⟨(key, value), mem_of_get? h, rfl⟩

end Entries

end GraphSelection
