import GraphSelection.Proofs.Formed.Basic
import GraphSelection.Proofs.Minting
import GraphSelection.Proofs.Runs

/-!
What a step of building draws and what it makes. A step draws the names and the parameters that the
steps it is made of draw, in their order; no step takes anything from the supply in another way. So
a parameter that is made early is known ever after, and what a step makes may be judged by the
parameters that are known at the end.
-/
namespace GraphSelection.Program

open Cypher Minting

/-- The step runs from the first supply to the second with this result, and draws these names, for
variables and for parameters alike. -/
inductive Draws : {α : Type} → Build α → Supply → α → Supply → List String → Prop
  | fresh (hint : String) (h : hint ∈ hints) (s : Supply) :
      Draws (fresh hint) s (s.name hint) { s with next := s.next + 1 } [s.name hint]
  | param (value : Doc) (s : Supply) :
      Draws (param value) s (.param (s.name "param"))
        { next := s.next + 1, params := s.params ++ [(s.name "param", value)] }
        [s.name "param"]
  /-- A step that leaves the supply as it is. -/
  | still {α : Type} {x : Build α} {s : Supply} {a : α} (h : x s = .ok (a, s)) : Draws x s a s []
  | bind {α β : Type} {x : Build α} {f : α → Build β} {s t u : Supply} {a : α} {b : β}
      {names more : List String} (hx : Draws x s a t names) (hf : Draws (f a) t b u more) :
      Draws (x >>= f) s b u (names ++ more)

/-- What is drawn between two supplies: each name has the next number, and the parameters that are
added are among the names, in their order. -/
structure Drawn (s t : Supply) (names : List String) : Prop where
  next : t.next = s.next + names.length
  numbered : ∀ i (h : i < names.length), Minted (s.next + i) names[i]
  params : ∃ more, t.params = s.params ++ more ∧ more.keys.Sublist names ∧
    ∀ key ∈ more.keys, ∃ n : Nat, key = "param" ++ toString n

theorem drawn_nil (s : Supply) : Drawn s s [] where
  next := rfl
  numbered i h := absurd h (Nat.not_lt_zero i)
  params := ⟨[], by simp, List.nil_sublist _, fun _ h => absurd h List.not_mem_nil⟩

theorem Drawn.append {s t u : Supply} {names more : List String} (h : Drawn s t names)
    (h' : Drawn t u more) : Drawn s u (names ++ more) where
  next := by
    rw [h'.next, h.next, List.length_append]
    omega
  numbered i hi := by
    by_cases hlt : i < names.length
    · rw [List.getElem_append_left hlt]
      exact h.numbered i hlt
    · rw [List.getElem_append_right (by omega)]
      have hnum := h'.numbered (i - names.length) (by rw [List.length_append] at hi; omega)
      rwa [h.next, Nat.add_assoc, Nat.add_sub_cancel' (by omega)] at hnum
  params := by
    obtain ⟨first, hfirst, hsub, hform⟩ := h.params
    obtain ⟨second, hsecond, hsub', hform'⟩ := h'.params
    refine ⟨first ++ second, by rw [hsecond, hfirst, List.append_assoc], ?_, ?_⟩
    · rw [Entries.keys, List.map_append]
      exact hsub.append hsub'
    · intro key hkey
      rw [Entries.keys, List.map_append] at hkey
      rcases List.mem_append.mp hkey with hkey | hkey
      · exact hform key hkey
      · exact hform' key hkey

theorem drawn_single {s t : Supply} {hint : String} (h : hint ∈ hints) (hnext : t.next = s.next + 1)
    (hparams : t.params = s.params) : Drawn s t [s.name hint] where
  next := by simpa using hnext
  numbered i hi := by
    obtain rfl : i = 0 := by simpa using hi
    exact minted_name s hint h
  params := ⟨[], by simp [hparams], List.nil_sublist _, fun _ h => absurd h List.not_mem_nil⟩

theorem drawn_param (s : Supply) (value : Doc) :
    Drawn s { next := s.next + 1, params := s.params ++ [(s.name "param", value)] }
      [s.name "param"] where
  next := rfl
  numbered i hi := by
    obtain rfl : i = 0 := by simpa using hi
    exact minted_name s "param" (by decide)
  params := by
    refine ⟨[(s.name "param", value)], rfl, List.Sublist.refl _, fun key hkey => ?_⟩
    have hkey : key = s.name "param" := List.mem_singleton.mp hkey
    exact ⟨s.next, hkey⟩

theorem Draws.drawn {α : Type} {x : Build α} {s t : Supply} {a : α} {names : List String}
    (h : Draws x s a t names) : Drawn s t names := by
  induction h with
  | fresh hint hmem s => exact drawn_single hmem rfl rfl
  | param value s => exact drawn_param s value
  | still hrun => exact drawn_nil _
  | bind hx hf ihx ihf => exact ihx.append ihf

section Steps

variable {α β : Type} {policy : Policy} {p : α → Prop} {q : β → Prop}

/-- The step draws what its steps draw, and what it makes is as asked as soon as the policy knows
all parameters that are made up to its end. -/
structure Grants (policy : Policy) (p : α → Prop) (x : Build α) : Prop where
  draws : ∀ s a t, x s = .ok (a, t) → ∃ names, Draws x s a t names
  run : ∀ s a t, x s = .ok (a, t) → (∀ key ∈ t.params.keys, policy.params key) → p a

theorem grants_still {x : Build α} (h : ∀ s a t, x s = .ok (a, t) → s = t ∧ p a) :
    Grants policy p x where
  draws s a t hrun := by
    obtain ⟨rfl, _⟩ := h s a t hrun
    exact ⟨[], .still hrun⟩
  run s a t hrun _ := (h s a t hrun).2

theorem grants_pure {a : α} (h : p a) : Grants policy p (pure a) := by
  refine grants_still fun s b t hrun => ?_
  obtain ⟨rfl, rfl⟩ := (pure_ok a b s t).mp hrun
  exact ⟨rfl, h⟩

theorem grants_fail (f : Failure) : Grants policy p (fail f) :=
  grants_still fun s a t hrun => ((fail_ok f s t a).mp hrun).elim

theorem grants_lift {x : Except Failure α} (h : ∀ a, x = .ok a → p a) :
    Grants policy p (liftM x : Build α) := by
  refine grants_still fun s a t hrun => ?_
  obtain ⟨hx, rfl⟩ := (lift_ok x s t a).mp hrun
  exact ⟨rfl, h a hx⟩

theorem grants_fresh {hint : String} (h : hint ∈ hints) :
    Grants policy (fun _ => True) (fresh hint) where
  draws s a t hrun := by
    obtain ⟨rfl, rfl⟩ := (fresh_ok hint a s t).mp hrun
    exact ⟨_, .fresh hint h s⟩
  run _ _ _ _ _ := trivial

theorem grants_param (value : Doc) : Grants policy (fun e => e.Obeys policy) (param value) where
  draws s a t hrun := by
    obtain ⟨rfl, rfl⟩ := (param_ok value a s t).mp hrun
    exact ⟨_, .param value s⟩
  run s a t hrun hknown := by
    obtain ⟨rfl, rfl⟩ := (param_ok value a s t).mp hrun
    exact (obeys_param _).mpr (hknown _ (by simp [Entries.keys]))

/-- What a step makes is known to be as asked only at the end, so it is a premise of what the
steps after it make. -/
theorem Grants.bind {x : Build α} {f : α → Build β} (hx : Grants policy p x)
    (hf : ∀ a, Grants policy (fun b => p a → q b) (f a)) : Grants policy q (x >>= f) where
  draws s b u hrun := by
    obtain ⟨a, t, ha, hb⟩ := (bind_ok x f s u b).mp hrun
    obtain ⟨names, hnames⟩ := hx.draws s a t ha
    obtain ⟨more, hmore⟩ := (hf a).draws t b u hb
    exact ⟨names ++ more, .bind hnames hmore⟩
  run s b u hrun hknown := by
    obtain ⟨a, t, ha, hb⟩ := (bind_ok x f s u b).mp hrun
    obtain ⟨more, hmore⟩ := (hf a).draws t b u hb
    obtain ⟨added, hparams, _⟩ := hmore.drawn.params
    refine (hf a).run t b u hb hknown (hx.run s a t ha fun key hkey => hknown key ?_)
    rw [hparams, Entries.keys, List.map_append]
    exact List.mem_append_left _ hkey

/-- A step of which only its result matters. -/
theorem Grants.skip {x : Build α} {f : α → Build β} (hx : Grants policy p x)
    (hf : ∀ a, Grants policy q (f a)) : Grants policy q (x >>= f) :=
  hx.bind fun a => ⟨(hf a).draws, fun s b t hrun hknown _ => (hf a).run s b t hrun hknown⟩

theorem Grants.mono {x : Build α} {p' : α → Prop} (h : Grants policy p x)
    (himp : ∀ a, p a → p' a) : Grants policy p' x :=
  ⟨h.draws, fun s a t hrun hknown => himp a (h.run s a t hrun hknown)⟩

/-- A part of a predicate is as asked, and the calls before it write nothing. -/
structure Admits (policy : Policy) (p : α → Prop) (x : Predicate α) : Prop where
  run : ∀ q : Subqueries, Grants policy
    (fun r => StillList policy q.calls → p r.1 ∧ StillList policy r.2.calls) (x q)

theorem admits_pure {a : α} (h : p a) : Admits policy p (pure a) :=
  ⟨fun q => grants_pure (a := (a, q)) fun hq => ⟨h, hq⟩⟩

theorem Admits.bind {x : Predicate α} {f : α → Predicate β} (hx : Admits policy p x)
    (hf : ∀ a, Admits policy (fun b => p a → q b) (f a)) : Admits policy q (x >>= f) :=
  ⟨fun s => Grants.bind (f := fun r => f r.1 r.2) (hx.run s) fun r =>
    ((hf r.1).run r.2).mono fun _ hr' hr hs =>
      have hfirst := hr hs
      have hsecond := hr' hfirst.2
      ⟨hsecond.1 hfirst.1, hsecond.2⟩⟩

theorem admits_lift {x : Build α} (h : Grants policy p x) :
    Admits policy p (liftM x : Predicate α) :=
  ⟨fun q => Grants.bind (f := fun a => pure (a, q)) h fun _ => grants_pure fun ha hq => ⟨ha, hq⟩⟩

theorem Admits.skip {x : Predicate α} {f : α → Predicate β} (hx : Admits policy p x)
    (hf : ∀ a, Admits policy q (f a)) : Admits policy q (x >>= f) :=
  hx.bind fun a => ⟨fun s => ((hf a).run s).mono fun _ h hs => ⟨fun _ => (h hs).1, (h hs).2⟩⟩

theorem Admits.gathered {x : Predicate α} (h : Admits policy p x) :
    Grants policy (fun r => p r.1 ∧ StillList policy r.2) (gathered x) :=
  (h.run {}).bind fun _ => grants_pure fun h => h stillList_nil

theorem predicate_get_bind {β : Type} (f : Subqueries → Predicate β) (q : Subqueries) :
    ((get : Predicate Subqueries) >>= f) q = f q q :=
  rfl

theorem predicate_lift_bind {α β : Type} (x : Build α) (f : α → Predicate β) (q : Subqueries) :
    ((liftM x : Predicate α) >>= f) q = x >>= fun a => f a q := by
  change ((x >>= fun a => pure (a, q)) >>= fun r => f r.1 r.2 : Build _) = _
  rw [bind_assoc]
  simp only [pure_bind]

theorem shared_known {key name : String} (call : String → Build Clause) {q : Subqueries}
    (h : q.known.get? key = some name) : shared key call q = pure (name, q) := by
  rw [shared, predicate_get_bind, h]
  rfl

theorem shared_new {key : String} (call : String → Build Clause) {q : Subqueries}
    (h : q.known.get? key = none) : shared key call q = (do
      let name ← fresh "var"
      let clause ← call name
      return (name, { known := q.known ++ [(key, name)], calls := q.calls ++ [clause] })) := by
  rw [shared, predicate_get_bind, h]
  change (liftM (fresh "var") >>= fun name => liftM (call name) >>= _ : Predicate String) q = _
  rw [predicate_lift_bind]
  congr 1
  funext name
  rw [predicate_lift_bind]
  rfl

theorem admits_shared (key : String) {call : String → Build Clause}
    (h : ∀ name, Grants policy (Clause.Still policy) (call name)) :
    Admits policy (fun _ => True) (shared key call) := by
  constructor
  intro q
  cases hknown : q.known.get? key with
  | some name =>
    rw [shared_known call hknown]
    exact grants_pure fun hq => ⟨trivial, hq⟩
  | none =>
    rw [shared_new call hknown]
    refine (grants_fresh (by decide)).skip fun name => (h name).bind fun clause => ?_
    exact grants_pure fun hclause hq => ⟨trivial, by simpa using ⟨hq, hclause⟩⟩

end Steps

end GraphSelection.Program
