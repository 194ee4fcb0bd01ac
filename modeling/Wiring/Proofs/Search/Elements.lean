import Wiring.Proofs.Fit.Reflexive
import Wiring.Proofs.Search.Isolation
import Wiring.Proofs.Search.Sealed
import Wiring.Proofs.Session.Gathering

namespace Wiring.Session

open Search Vocabulary

variable {E : Environment} {S S' T : Session} {scope : ScopeId} {scopes : List ScopeId}
  {ty element t : Ty} {statics : List Classifier} {o : ScopeId × Producer} {p : Producer}
  {made : Option InjectableId}

/-! ### What searches keep -/

abbrev SameTables (S S' : Session) : Prop :=
  S'.memo.elements = S.memo.elements ∧ S'.memo.framework = S.memo.framework

/-- A step that leaves the two tables alone leaves them right. -/
theorem Gathered.after {α : Type} {step : SessionM α} {Q : α → Session → Prop} (h : Gathered E S)
    (hstep : Obeys S.SameTables S step Q) : Gathered E (step.run S).2 :=
  h.grow hstep.grows hstep.keeps.1 hstep.keeps.2

/-- The additions of scopes leave them alone. -/
theorem calm_sameTables (E : Environment) (S₀ : Session) : Calm E S₀.SameTables where
  rememberTypeScope _ h := h
  rememberChild _ h := h
  build _ _ _ h := h

theorem upkeep_gathered (hK : E.catalog.Coherent) :
    Upkeep E fun S => Planted S ∧ Gathered E S := by
  have hplanted := (scopeInvariant_planted E).upkeep
  constructor
  · -- a lookup of candidates changes neither table
    intro S scope hs hS hscope ty statics
    have hlookup := candidatesIn_keeps (E := E) (I := S.SameTables) (fun _ h => h) (fun _ h => h) ty
      statics (S.ancestors scope) ⟨rfl, rfl⟩
    exact ⟨hplanted.candidates hs hS.1 hscope ty statics, hS.2.after (.get hlookup)⟩
  · exact fun hs hS ty => ⟨hplanted.typeScope hs hS.1 ty,
      hS.2.after ((calm_sameTables E _).typeScope hs ⟨rfl, rfl⟩ ty)⟩
  · exact fun hs hS hscope hc => ⟨hplanted.dependencyScope hs hS.1 hscope hc,
      hS.2.after ((calm_sameTables E _).dependencyScope hs ⟨rfl, rfl⟩ hscope hc)⟩
  · exact fun hs hS hscope ty => ⟨hplanted.framework hs hS.1 hscope ty,
      (gathered_framework hK hs hS.1 hscope ty hS.2).keeps⟩
  · exact fun e hS => ⟨hplanted.byType e hS.1,
      hS.2.grow (Extends.of_same rfl rfl fun _ _ => id) rfl rfl⟩
  · exact fun e hS => ⟨hplanted.byCandidate e hS.1,
      hS.2.grow (Extends.of_same rfl rfl fun _ _ => id) rfl rfl⟩

theorem gathered_addScope (hS : Gathered E S) (position : Position) :
    Gathered E ((addScope E position).run S).2 :=
  hS.after (Obeys.addScope (I := S.SameTables) ⟨rfl, rfl⟩
    ⟨extends_build E position S, ⟨rfl, rfl⟩, trivial⟩)

theorem MadeOf.gathered (h : MadeOf (fun _ => True) E S) (hK : E.catalog.Coherent) :
    Planted S ∧ Gathered E S :=
  (h.upheld (upkeep_gathered hK) (fun _ position hs hS =>
    ⟨(scopeInvariant_planted E).addScope hs hS.1 position, gathered_addScope hS.2 position⟩)
    ⟨planted_empty, gathered_empty⟩).2

theorem MadeOf.listed (h : MadeOf (fun _ => True) E S) (hK : E.catalog.Coherent) : Listed E S :=
  (h.upheld (upkeep_listed hK) (fun _ position _ h => listed_addScope hK h position) listed_empty).2

/-! ### The way back -/

/-- Of elements with keys of their own all but the one with a given key are passed over. -/
theorem filterMap_eq_toList {α β κ : Type} {f : α → Option β} (key : α → κ) {xs : List α} {x : α}
    (hdistinct : xs.Pairwise fun y z => key y ≠ key z) (hx : x ∈ xs)
    (hf : ∀ y, key y ≠ key x → f y = none) : xs.filterMap f = (f x).toList := by
  obtain ⟨before, after, rfl⟩ := List.append_of_mem hx
  obtain ⟨-, hafter, hbefore⟩ := List.pairwise_append.1 hdistinct
  have hskip : ∀ ys : List α, (∀ y ∈ ys, key y ≠ key x) → ys.filterMap f = [] :=
    fun ys hys => List.filterMap_eq_nil_iff.2 fun y hy => hf y (hys y hy)
  rw [List.filterMap_append, List.filterMap_cons,
    hskip before fun y hy => hbefore y hy x (List.mem_cons_self ..),
    hskip after fun y hy => ((List.pairwise_cons.1 hafter).1 y hy).symm]
  cases f x <;> rfl

/-- A type with the key of a producer is given by no other one. -/
theorem Marked.offersIn_eq (h : Marked (S.visibleIn scopes)) (ho : o ∈ S.visibleIn scopes)
    (hk : t.instanceKey = o.2.ty.instanceKey) : S.offersIn E t statics scopes =
      ((offer? E t statics o.2).map fun q => (o.1, q)).toList := by
  rw [Session.offersIn_eq]
  refine filterMap_eq_toList (fun o => o.2.ty.instanceKey) h.distinct ho fun o' hne => ?_
  have hsome := h.key o ho
  rw [← hk] at hne hsome
  have hother : ¬ (t.instanceKey = none ∨ o'.2.ty.instanceKey = t.instanceKey) := by
    rintro (hnone | hsame)
    · rw [hnone] at hsome
      cases hsome
    · exact hne hsame
  rw [offer?, if_neg hother]
  rfl

/-- A producer whose type has static parameters only gives what it adds to a collection. -/
theorem exists_offer_of_closed (hK : E.catalog.Coherent) (hd : Catalog.Distinct p.ty)
    (hclosed : ∀ c ∈ E.catalog.parametersIn p.ty, statics.contains c = true)
    (h : p.elementType? E.catalog statics element = some t) :
    ∃ q, offer? E t statics p = some q := by
  obtain ⟨m, hm, rfl⟩ := Option.map_eq_some_iff.1 h
  have hsame : p.ty.substitute m = p.ty := by
    rcases Option.or_eq_some_iff.1 hm with hm | ⟨-, hm⟩
    · exact Fit.substitute_of_fit hK (Catalog.ok_of_toOption hm) hclosed
    · obtain ⟨view, -, hm⟩ := Option.bind_eq_some_iff.1 hm
      obtain ⟨argument, -, hm⟩ := Option.bind_eq_some_iff.1 hm
      exact Fit.substitute_of_fit hK (Catalog.ok_of_toOption hm) hclosed
  rw [hsame, offer?, if_pos (Or.inr rfl), Fit.fit_same (Fit.sameness_eq E.catalog) statics rfl hd]
  exact ⟨_, rfl⟩

/-! ### Collections -/

def contributors (E : Environment) (S : Session) (scope : ScopeId) (element : Ty) :
    List (ScopeId × Producer) :=
  -- The producers around a scope that add something to a collection of `element`, from the outside
  -- in.
  (S.visibleIn (S.ancestors scope)).filter fun o =>
    (o.2.elementType? E.catalog (S.scope scope).statics element).isSome

structure Backed (E : Environment) (S : Session) (scope : ScopeId) (element t : Ty)
    (o : ScopeId × Producer) : Prop where
  -- The type is what the producer adds to a collection of `element`, with the instance key of the
  -- producer. Whenever it is looked up in the scope, the producer is all that is found, and it is
  -- found if its type fits.
  type : ∃ u, o.2.elementType? E.catalog (S.scope scope).statics element = some u ∧ (t == u) = true
  key : o.2.ty.instanceKey.isSome = true ∧ t.instanceKey = o.2.ty.instanceKey
  lookup : ∀ T, Later E S T → ∀ found T',
    (candidates E scope t (S.scope scope).statics).run T = (found, T') →
      List.Forall₂ T'.Realizes found
        ((offer? E t (S.scope scope).statics o.2).map fun q => (o.1, q)).toList

/-- What is kept of a list, with what it is kept for. -/
theorem forall₂_filterMap_filter {α β : Type} (f : α → Option β) (xs : List α) :
    List.Forall₂ (fun y x => x ∈ xs ∧ f x = some y) (xs.filterMap f)
      (xs.filter fun x => (f x).isSome) := by
  induction xs with
  | nil => exact .nil
  | cons x xs ih =>
    have hrest := ih.imp fun _ _ h => And.intro (List.mem_cons_of_mem x h.1) h.2
    cases hx : f x with
    | none => rwa [List.filterMap_cons_none hx, List.filter_cons_of_neg (by simp [hx])]
    | some y =>
      rw [List.filterMap_cons_some hx, List.filter_cons_of_pos (by simp [hx])]
      exact .cons ⟨List.mem_cons_self .., hx⟩ hrest

/-- A type with the key of a producer leads back to it. -/
theorem lookup_marked (hS : MadeOf (fun _ => True) E S) (hK : E.catalog.Coherent)
    (hscope : scope < S.scopes.size) (ho : o ∈ S.visibleIn (S.ancestors scope))
    (hk : t.instanceKey = o.2.ty.instanceKey) (hT : Later E S T) {found : List InjectableId}
    {T' : Session} (hrun : (candidates E scope t statics).run T = (found, T')) :
    List.Forall₂ T'.Realizes found ((offer? E t statics o.2).map fun q => (o.1, q)).toList := by
  have hs := hS.reachable.sound_everything
  have hmade := hT.madeOf hS
  have hgrows := (hT.keeps hS.reachable hS.indexed).grows
  have hscopes := lt_of_mem_ancestors hs.nested hscope
  have hlists : Obeys (Listed E) T (candidates E scope t statics) fun found T' =>
      Lists E T' (T.ancestors scope) t statics found :=
    .get (listed_candidatesIn hK t statics hmade.reachable.sound_everything
      (Or.inr ⟨scope, hgrows.lt_scopes hscope, rfl⟩) (hmade.listed hK))
  have hlater := hgrows.trans hlists.grows
  have hexactly := hlists.result.exactly t statics BEq.rfl BEq.rfl
  rw [hrun] at hlater hexactly
  have hmarked := (hS.gathered hK).1.marked hs.nested hscope
  rwa [hgrows.ancestors hscope, offersIn_of_grows hlater hscopes,
    hmarked.offersIn_eq ho hk] at hexactly

theorem Gathers.backed (hS : MadeOf (fun _ => True) E S) (hK : E.catalog.Coherent)
    (hscope : scope < S.scopes.size) {found : List Ty}
    (h : S.Gathers E (S.ancestors scope) element (S.scope scope).statics found) :
    List.Forall₂ (S.Backed E scope element) found (S.contributors E scope element) := by
  have hmarked := (hS.gathered hK).1.marked hS.reachable.sound_everything.nested hscope
  refine Ty.forall₂_trans_of ?_ (Ty.forall₂_of_beq h) (forall₂_filterMap_filter _ _)
  rintro t u o htu ⟨ho, hu⟩
  have hsome := hmarked.key o ho
  have hk : t.instanceKey = o.2.ty.instanceKey :=
    (Ty.parts_of_beq htu).instanceKey.trans (o.2.instanceKey_elementType hsome hu)
  exact {
    type := ⟨u, hu, htu⟩
    key := ⟨hsome, hk⟩
    lookup := fun T hT found T' hrun => lookup_marked hS hK hscope ho hk hT hrun }

/-- What a session that has come about by use makes for a collection type: nothing if no producer
around adds anything, and otherwise a collection with an element for each producer that does, from the
outside in. An element has the instance key of its producer, and a lookup of it finds this producer if
the type of the producer fits the element, and nothing else. -/
theorem collection_exact (hS : MadeOf (fun _ => True) E S) (hK : E.catalog.Coherent)
    (hscope : scope < S.scopes.size) (hc : E.catalog.Collects ty element)
    (hkey : ty.instanceKey = none) (hrun : (framework? E scope ty).run S = (made, S')) :
    (made = none ↔ S.contributors E scope element = []) ∧
    ∀ c, made = some c → ∃ ty' found,
      S'.injectable c = { owner := scope, form := .collection ty' found } ∧ (ty' == ty) = true ∧
      List.Forall₂ (S.Backed E scope element) found (S.contributors E scope element) := by
  have hs := hS.reachable.sound_everything
  obtain ⟨hplanted, hgathered⟩ := hS.gathered hK
  have hstep := gathered_framework hK hs hplanted hscope ty hgathered
  have hgrows := hstep.grows
  have hmade := hstep.result hkey element hc
  rw [hrun] at hgrows hmade
  -- the scopes are what they were, so they contribute what they contributed
  have hback : ∀ found, S'.Gathers E (S'.ancestors scope) element (S'.scope scope).statics found →
      List.Forall₂ (S.Backed E scope element) found (S.contributors E scope element) := by
    intro found h
    rw [hgrows.ancestors hscope, hgrows.scope scope hscope, Gathers,
      contributionsIn_of_grows hgrows (lt_of_mem_ancestors hs.nested hscope)] at h
    exact Gathers.backed hS hK hscope h
  cases hmade with
  | nothing h =>
    have hempty := List.forall₂_nil_left_iff.1 (hback [] h)
    exact ⟨⟨fun _ => hempty, fun _ => rfl⟩, fun c h => by cases h⟩
  | @collection c ty' found _ hform ht hne h =>
    have hbacked := hback found h
    have hsome : S.contributors E scope element ≠ [] := by
      intro hempty
      rw [hempty] at hbacked
      exact hne (List.forall₂_nil_right_iff.1 hbacked)
    refine ⟨⟨fun hnone => absurd hnone (Option.some_ne_none c), fun h => absurd h hsome⟩, ?_⟩
    rintro _ ⟨⟩
    exact ⟨ty', found, hform, ht, hbacked⟩

/-- If the type of the producer leaves no type parameters open, a lookup of what it adds finds just one
candidate, and that is the producer. -/
theorem closed_element_found (hS : MadeOf (fun _ => True) E S) (hK : E.catalog.Coherent)
    (hscope : scope < S.scopes.size) (ho : o ∈ S.visibleIn (S.ancestors scope))
    (hd : Catalog.Distinct o.2.ty)
    (hclosed : ∀ c ∈ E.catalog.parametersIn o.2.ty, (S.scope scope).statics.contains c = true)
    (hadds : o.2.elementType? E.catalog (S.scope scope).statics element = some t)
    (hT : Later E S T) {found : List InjectableId} {T' : Session}
    (hrun : (candidates E scope t (S.scope scope).statics).run T = (found, T')) :
    ∃ c q, found = [c] ∧ offer? E t (S.scope scope).statics o.2 = some q ∧
      T'.Realizes c (o.1, q) := by
  have hmarked := (hS.gathered hK).1.marked hS.reachable.sound_everything.nested hscope
  have hk := o.2.instanceKey_elementType (hmarked.key o ho) hadds
  have hback := lookup_marked hS hK hscope ho hk hT hrun
  obtain ⟨q, hq⟩ := exists_offer_of_closed hK hd hclosed hadds
  rw [hq] at hback
  obtain ⟨c, rest, hc, hrest, rfl⟩ := List.forall₂_cons_right_iff.1 hback
  rw [List.forall₂_nil_right_iff.1 hrest]
  exact ⟨c, q, rfl, hq, hc⟩

/-! ### A class that is a collection twice -/

def collectionOf (key argument : String) : Ty :=
  { head := .named ⟨key, 0⟩, arguments := [.of ⟨argument, 0⟩] }

def archive : Environment where
  catalog := ⟨[
    ("List", [{ typeParameters := [⟨"List.E", 0⟩], flags := { collection := true } }]),
    ("Set", [{ typeParameters := [⟨"Set.E", 0⟩], flags := { collection := true } }]),
    ("List.E", [{ flags := { typeParameter := true } }]),
    ("Set.E", [{ flags := { typeParameter := true } }]),
    ("Index", [{ supertypes := some [collectionOf "List" "Int", collectionOf "Set" "Name"] }])]⟩
  host := HostTables.host {}

def archived : Session :=
  ((addScope archive {
    name := "archive"
    declarations := [
      { id := "index", ty := .of ⟨"Index", 0⟩ },
      { id := "seven", ty := .of ⟨"Int", 0⟩ }] }).run {}).2

/-- Though an index is a list of integers, it adds nothing to a collection of them: it is looked at
as a set of names. -/
theorem second_collection_missed : MadeOf (fun _ => True) archive archived ∧
    archive.catalog.Coherent ∧
    archive.catalog.isSubtype (.of ⟨"Index", 0⟩) (collectionOf "List" "Int") = true ∧
    (archived.contributors archive 0 (.of ⟨"Int", 0⟩)).map (fun o => o.2.id) = ["seven"] ∧
    (archived.contributors archive 0 (.of ⟨"Name", 0⟩)).map (fun o => o.2.id) = ["index"] := by
  have hsingle : archive.catalog.Single := by decide
  refine ⟨.use .start (.addScope _ rfl fun _ _ => ⟨trivial, fun _ _ => trivial⟩),
    hsingle.coherent, ?_, ?_, ?_⟩ <;> decide +kernel

end Wiring.Session
