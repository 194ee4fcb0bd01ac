import Mathlib.Data.List.Flatten
import Wiring.Proofs.Session.Listing
import Wiring.Proofs.Session.Planted

/-!
A lookup of elements gives what a plain look through the scopes from the outside in gathers: no two
producers have the same instance key, so nothing is dropped as a duplicate.
-/
namespace Wiring

open Ty

section Contributions

variable {K : Catalog} {statics statics' : List Classifier} {element element' ty ty' t : Ty}
  {p : Producer}

/-! ### Element types -/

/-- What stands in the place of a type with an instance key has that key. -/
theorem Ty.instanceKey_substitute {m : Substitution} (hk : t.instanceKey.isSome = true) :
    (t.substitute m).instanceKey = t.instanceKey := by
  obtain ⟨head, as, n, ts, k⟩ := t
  cases head with
  | star => rw [substitute_of_isStar rfl]
  | named c =>
    cases hc : m.get? c with
    | some v =>
      obtain ⟨key, rfl⟩ := Option.isSome_iff_exists.1 hk
      rw [substitute_bound hc]
      rfl
    | none =>
      rcases substitute_unbound hc with ⟨he, -, -⟩ | he <;> rw [he]

theorem Producer.instanceKey_elementType (hk : p.ty.instanceKey.isSome = true)
    (h : p.elementType? K statics element = some t) : t.instanceKey = p.ty.instanceKey := by
  obtain ⟨m, _, rfl⟩ := Option.map_eq_some_iff.1 h
  exact instanceKey_substitute hk

/-- A producer adds equal types to collections of equal types. -/
theorem Producer.elementType_rel (hK : K.Coherent) (ht : (element == element') = true)
    (hs : (statics == statics') = true) (p : Producer) :
    Option.Rel (fun t u => (t == u) = true) (p.elementType? K statics element)
      (p.elementType? K statics' element') := by
  have hfit := fun a => K.fit_congr hK a hs ht
  have hmany : ((do
        let view ← K.collectionView? p.ty
        let argument ← view.arguments.head?
        (K.fit statics argument element).toOption).map Substitution.plain) =
      (do
        let view ← K.collectionView? p.ty
        let argument ← view.arguments.head?
        (K.fit statics' argument element').toOption).map Substitution.plain := by
    simp only [Option.bind_eq_bind, Option.map_bind, Function.comp_def, hfit]
  -- either way to fit gives the same substitution but for spelling, so the first one that fits does
  have hboth := congrArg₂ Option.or (hfit p.ty) hmany
  rw [← Option.map_or, ← Option.map_or] at hboth
  unfold Producer.elementType?
  dsimp only
  revert hboth
  generalize Option.or (K.fit statics p.ty element).toOption _ = x
  generalize Option.or (K.fit statics' p.ty element').toOption _ = y
  intro hboth
  cases x <;> cases y
  · exact .none
  · cases hboth
  · cases hboth
  · exact .some (substitute_beq_of_plain (Option.some.inj hboth) p.ty)

/-! ### Collection types -/

structure Catalog.Collects (K : Catalog) (ty element : Ty) : Prop where
  -- `ty` is a collection of `element`, and not a function.
  function : (K.flagsOf ty).function = false
  collection : (K.flagsOf ty).collection = true
  arguments : ty.arguments = [element]

theorem Catalog.Collects.isStar (h : K.Collects ty element) :
    ty.isStar = false := by
  obtain ⟨head, as, n, ts, k⟩ := ty
  cases head with
  | star => exact absurd h.collection Bool.false_ne_true
  | named c => rfl

/-- Equal types are collections of equal types. -/
theorem Catalog.Collects.congr (h : K.Collects ty element)
    (hK : K.Coherent) (ht : (ty' == ty) = true) :
    ∃ element', K.Collects ty' element' ∧ (element' == element) = true := by
  have hflags : K.flagsOf ty' = K.flagsOf ty := (likeness_beq K).flagsOf_eq hK ht
  have harguments := (parts_of_beq ht).arguments
  rw [h.arguments] at harguments
  obtain ⟨element', _, he, hnil, heq⟩ := List.forall₂_cons_right_iff.1 harguments
  rw [List.forall₂_nil_right_iff.1 hnil] at heq
  exact ⟨element', ⟨hflags ▸ h.function, hflags ▸ h.collection, heq⟩, he⟩

end Contributions

namespace Session

variable {V : Vocabulary} {E : Environment} {S S' : Session} {scope : ScopeId}
  {scopes enclosing : List ScopeId} {element element' ty ty' t : Ty}
  {statics statics' : List Classifier} {found : List Ty}

/-! ### What scopes contribute -/

/-- The producers of some scopes, with the scopes they belong to: scope by scope, the last one of
the list first. -/
def visibleIn (S : Session) (scopes : List ScopeId) : List (ScopeId × Producer) :=
  scopes.reverse.flatMap fun owner => (S.scope owner).injectables.map fun p => (owner, p)

theorem offersIn_eq (E : Environment) (S : Session) (ty : Ty) (statics : List Classifier)
    (scopes : List ScopeId) : S.offersIn E ty statics scopes =
      (S.visibleIn scopes).filterMap fun o => (offer? E ty statics o.2).map fun q => (o.1, q) := by
  simp only [offersIn, visibleIn, List.filterMap_flatMap, List.filterMap_map, List.map_filterMap,
    Function.comp_def]

def contributionsIn (E : Environment) (S : Session) (element : Ty) (statics : List Classifier)
    (scopes : List ScopeId) : List Ty :=
  (S.visibleIn scopes).filterMap fun o => o.2.elementType? E.catalog statics element

theorem visibleIn_of_grows (hS : S.Extends S') (hscopes : ∀ id ∈ scopes, id < S.scopes.size) :
    S'.visibleIn scopes = S.visibleIn scopes := by
  refine List.flatMap_congr fun owner howner => ?_
  rw [hS.scope owner (hscopes owner (List.mem_reverse.1 howner))]

theorem visibleIn_cons (S : Session) (scope : ScopeId) (enclosing : List ScopeId) :
    S.visibleIn (scope :: enclosing) =
      S.visibleIn enclosing ++ (S.scope scope).injectables.map fun p => (scope, p) := by
  rw [visibleIn, List.reverse_cons, List.flatMap_append, List.flatMap_singleton, visibleIn]

theorem contributionsIn_of_grows (hS : S.Extends S') (hscopes : ∀ id ∈ scopes, id < S.scopes.size) :
    S'.contributionsIn E element statics scopes = S.contributionsIn E element statics scopes := by
  rw [contributionsIn, visibleIn_of_grows hS hscopes, contributionsIn]

theorem contributionsIn_cons (E : Environment) (S : Session) (element : Ty)
    (statics : List Classifier) (scope : ScopeId) (enclosing : List ScopeId) :
    S.contributionsIn E element statics (scope :: enclosing) =
      S.contributionsIn E element statics enclosing ++
        (S.scope scope).injectables.filterMap (Producer.elementType? E.catalog statics element) := by
  rw [contributionsIn, visibleIn_cons, List.filterMap_append, List.filterMap_map, contributionsIn]
  rfl

/-- For an equal type the contributions are equal. -/
theorem contributionsIn_beq (hK : E.catalog.Coherent) (ht : (element == element') = true)
    (hs : (statics == statics') = true) :
    (S.contributionsIn E element statics scopes ==
      S.contributionsIn E element' statics' scopes) = true := by
  apply beq_of_forall₂
  refine List.rel_filterMap (R := Eq) ?_ (List.forall₂_same.2 fun _ _ => rfl)
  rintro o _ rfl
  exact o.2.elementType_rel hK ht hs

/-! ### Instance keys -/

structure Marked (visible : List (ScopeId × Producer)) : Prop where
  -- All producers have instance keys, and no two the same.
  key : ∀ o ∈ visible, o.2.ty.instanceKey.isSome = true
  distinct : visible.Pairwise fun o o' => o.2.ty.instanceKey ≠ o'.2.ty.instanceKey

theorem Marked.sublist {visible visible' : List (ScopeId × Producer)} (h : Marked visible)
    (hsub : visible'.Sublist visible) : Marked visible' where
  key o ho := h.key o (hsub.subset ho)
  distinct := h.distinct.sublist hsub

/-- A scope and those around it, from the outside in, are in the order of their places. -/
theorem ancestors_sublist (hS : ∀ id < S.scopes.size, S.Nested id) (hscope : scope < S.scopes.size) :
    (S.ancestors scope).reverse.Sublist (List.range (scope + 1)) := by
  induction scope using Nat.strongRecOn with
  | ind scope ih =>
    rw [ancestors, List.reverse_cons, List.range_succ]
    refine List.Sublist.append_right ?_ [scope]
    rcases hS scope hscope with he | ⟨parent, hlt, he⟩
    · rw [he]
      exact List.nil_sublist _
    · rw [he]
      exact (ih parent hlt (Nat.lt_trans hlt hscope)).trans (List.range_sublist.2 hlt)

theorem producers_eq (S : Session) : S.producers =
    (List.range S.scopes.size).flatMap fun id => (S.scope id).injectables := by
  have hscopes : S.scopes.toList = (List.range S.scopes.size).map S.scope := by
    apply List.ext_getElem
    · simp
    · intro i hi hi'
      simp [Session.scope, Array.getD, (Array.length_toList ▸ hi : i < S.scopes.size)]
  rw [producers, hscopes, List.flatMap_map]

/-- What is visible in a scope has keys of its own, as all producers have. -/
theorem Planted.marked (h : Planted S) (hS : ∀ id < S.scopes.size, S.Nested id)
    (hscope : scope < S.scopes.size) : Marked (S.visibleIn (S.ancestors scope)) := by
  have hmap : (S.visibleIn (S.ancestors scope)).map Prod.snd =
      (S.ancestors scope).reverse.flatMap fun id => (S.scope id).injectables := by
    simp [visibleIn, List.map_flatMap, Function.comp_def]
  have hsub : ((S.visibleIn (S.ancestors scope)).map Prod.snd).Sublist S.producers := by
    rw [hmap, producers_eq]
    exact ((ancestors_sublist hS hscope).trans (List.range_sublist.2 hscope)).flatMap _
  constructor
  · intro o ho
    obtain ⟨key, hkey, -⟩ := h.keys o.2 (hsub.subset (List.mem_map_of_mem ho))
    rw [hkey]
    rfl
  · have hunique := h.unique.sublist hsub
    rw [List.pairwise_map] at hunique
    exact hunique

/-- The contributions have the keys of their producers, so no two of them are equal. -/
theorem Marked.contributions (h : Marked (S.visibleIn scopes)) :
    (S.contributionsIn E element statics scopes).Pairwise
      fun t u => t.instanceKey ≠ u.instanceKey := by
  refine List.pairwise_filterMap.2 (h.distinct.imp_of_mem ?_)
  intro o o' ho ho' hne t ht u hu
  rw [Producer.instanceKey_elementType (h.key o ho) ht,
    Producer.instanceKey_elementType (h.key o' ho') hu]
  exact hne

/-- Types with keys of their own are all added. -/
theorem insertNew_eq_append (own found : List Ty)
    (h : (found ++ own).Pairwise fun t u => t.instanceKey ≠ u.instanceKey) :
    own.foldl (fun found t => if found.contains t then found else found ++ [t]) found =
      found ++ own := by
  induction own generalizing found with
  | nil => exact (List.append_nil found).symm
  | cons t own ih =>
    have hnew : found.contains t = false := by
      refine Bool.eq_false_iff.2 fun hc => ?_
      obtain ⟨u, hu, htu⟩ := List.contains_iff_exists_mem_beq.1 hc
      exact (List.pairwise_append.1 h).2.2 u hu t (List.mem_cons_self ..)
        (parts_of_beq htu).instanceKey.symm
    rw [List.append_cons] at h
    rw [List.foldl_cons, if_neg (by rw [hnew]; exact Bool.false_ne_true), ih _ h, ← List.append_cons]

/-! ### Tables -/

abbrev Gathers (E : Environment) (S : Session) (scopes : List ScopeId) (element : Ty)
    (statics : List Classifier) (found : List Ty) : Prop :=
  (found == S.contributionsIn E element statics scopes) = true

inductive Aggregates (E : Environment) (S : Session) (scope : ScopeId) (ty element : Ty) :
    Option InjectableId → Prop
  -- What a session has for a collection of `element` in a scope: the collection of all that the
  -- scope and those around it contribute, or nothing if they contribute nothing.
  | nothing (h : S.Gathers E (S.ancestors scope) element (S.scope scope).statics []) :
      Aggregates E S scope ty element none
  | collection {c : InjectableId} {ty' : Ty} {found : List Ty} (hc : c < S.injectables.size)
      (hform : S.injectable c = { owner := scope, form := .collection ty' found })
      (ht : (ty' == ty) = true) (hne : found ≠ [])
      (h : S.Gathers E (S.ancestors scope) element (S.scope scope).statics found) :
      Aggregates E S scope ty element (some c)

theorem Gathers.congr (hK : E.catalog.Coherent) (h : S.Gathers E scopes element statics found)
    (ht : (element == element') = true) (hs : (statics == statics') = true) :
    S.Gathers E scopes element' statics' found :=
  BEq.trans h (contributionsIn_beq hK ht hs)

/-- What is gathered has keys of its own, as the contributions have. -/
theorem Gathers.distinct (h : S.Gathers E scopes element statics found)
    (hm : Marked (S.visibleIn scopes)) :
    found.Pairwise fun t u => t.instanceKey ≠ u.instanceKey := by
  have hkeys : found.map Ty.instanceKey =
      (S.contributionsIn E element statics scopes).map Ty.instanceKey := by
    rw [← List.forall₂_eq_eq_eq, List.forall₂_map_left_iff, List.forall₂_map_right_iff]
    exact (forall₂_of_beq h).imp fun _ _ he => (parts_of_beq he).instanceKey
  have hdistinct : (found.map Ty.instanceKey).Pairwise (· ≠ ·) :=
    hkeys ▸ List.pairwise_map.2 hm.contributions
  exact List.pairwise_map.1 hdistinct

theorem Gathers.mono (h : S.Gathers E scopes element statics found) (hS : S.Extends S')
    (hscopes : ∀ id ∈ scopes, id < S.scopes.size) : S'.Gathers E scopes element statics found := by
  rw [Gathers, contributionsIn_of_grows hS hscopes]
  exact h

/-- What is gathered in a scope is the same later on. -/
theorem gathers_of_grows (hS : S.Extends S') (hscopes : ∀ id ∈ S.ancestors scope, id < S.scopes.size)
    (h : S.Gathers E (S.ancestors scope) element (S.scope scope).statics found) :
    S'.Gathers E (S'.ancestors scope) element (S'.scope scope).statics found := by
  have hscope := hscopes scope (List.mem_cons_self ..)
  rw [hS.ancestors hscope, hS.scope scope hscope]
  exact h.mono hS hscopes

theorem Aggregates.mono {made : Option InjectableId} (h : S.Aggregates E scope ty element made)
    (hS : S.Extends S') (hscopes : ∀ id ∈ S.ancestors scope, id < S.scopes.size) :
    S'.Aggregates E scope ty element made := by
  cases h with
  | nothing h => exact .nothing (gathers_of_grows hS hscopes h)
  | collection hc hform ht hne h =>
    exact .collection (hS.lt_injectables hc) ((hS.injectable _ hc).trans hform) ht hne
      (gathers_of_grows hS hscopes h)

theorem Aggregates.congr {made : Option InjectableId} (hK : E.catalog.Coherent)
    (h : S.Aggregates E scope ty element made) (ht : (ty == ty') = true)
    (he : (element == element') = true) : S.Aggregates E scope ty' element' made := by
  cases h with
  | nothing h => exact .nothing (h.congr hK he BEq.rfl)
  | collection hc hform ht' hne h =>
    exact .collection hc hform (BEq.trans ht' ht) hne (h.congr hK he BEq.rfl)

structure Gathered (E : Environment) (S : Session) : Prop where
  -- Every entry of the two tables is of what its scope and those around it contribute.
  elements : ∀ e ∈ S.memo.elements, (∀ id ∈ S.ancestors e.1.1, id < S.scopes.size) ∧
    S.Gathers E (S.ancestors e.1.1) e.1.2.1 e.1.2.2 e.2
  framework : ∀ e ∈ S.memo.framework, (∀ id ∈ S.ancestors e.1.1, id < S.scopes.size) ∧
    ∀ element, E.catalog.Collects e.1.2 element → S.Aggregates E e.1.1 e.1.2 element e.2

theorem gathered_empty : Gathered E {} where
  elements := List.forall_mem_nil _
  framework := List.forall_mem_nil _

/-- Entries are right in later sessions, and so are the tables if nothing but right entries is added
to them. -/
theorem Gathered.change (h : Gathered E S) (hS : S.Extends S')
    (helements : ∀ e ∈ S'.memo.elements, e ∈ S.memo.elements ∨
      (∀ id ∈ S.ancestors e.1.1, id < S.scopes.size) ∧
        S.Gathers E (S.ancestors e.1.1) e.1.2.1 e.1.2.2 e.2)
    (hframework : ∀ e ∈ S'.memo.framework, e ∈ S.memo.framework ∨
      (∀ id ∈ S.ancestors e.1.1, id < S.scopes.size) ∧
        ∀ element, E.catalog.Collects e.1.2 element → S.Aggregates E e.1.1 e.1.2 element e.2) :
    Gathered E S' where
  elements e he := by
    obtain ⟨hscopes, hgathers⟩ := (helements e he).elim (h.elements e) id
    rw [hS.ancestors (hscopes _ (List.mem_cons_self ..))]
    exact ⟨fun id hid => hS.lt_scopes (hscopes id hid), hgathers.mono hS hscopes⟩
  framework e he := by
    obtain ⟨hscopes, haggregates⟩ := (hframework e he).elim (h.framework e) id
    rw [hS.ancestors (hscopes _ (List.mem_cons_self ..))]
    exact ⟨fun id hid => hS.lt_scopes (hscopes id hid),
      fun element hc => (haggregates element hc).mono hS hscopes⟩

theorem Gathered.grow (h : Gathered E S) (hS : S.Extends S')
    (helements : S'.memo.elements = S.memo.elements)
    (hframework : S'.memo.framework = S.memo.framework) : Gathered E S' :=
  h.change hS (fun _ he => Or.inl (helements ▸ he)) fun _ he => Or.inl (hframework ▸ he)

/-! ### Lookup -/

theorem gathered_elementsIn (hK : E.catalog.Coherent) (element : Ty) (statics : List Classifier)
    (hs : Sound V E S) (hl : S.Lineage scopes) (hm : Marked (S.visibleIn scopes))
    (hS : Gathered E S) :
    Obeys (Gathered E) S (elementsIn E element statics scopes) fun found S' =>
      S'.Gathers E scopes element statics found := by
  -- from the inside out, with what the scopes around contribute already in place
  induction scopes with
  | nil => exact Obeys.pure hS BEq.rfl
  | cons scope enclosing ih =>
    obtain ⟨hscope, hancestors, hrest⟩ := lineage_cons hs hl
    have hscopes : ∀ id ∈ scope :: enclosing, id < S.scopes.size := by
      rw [hancestors]
      exact lt_of_mem_ancestors hs.nested hscope
    have hmrest : Marked (S.visibleIn enclosing) := by
      rw [visibleIn_cons] at hm
      exact hm.sublist (List.sublist_append_left _ _)
    rw [elementsIn]
    apply Obeys.get
    split
    · next found hfound =>
      obtain ⟨⟨⟨scope', element', statics'⟩, found'⟩, he, hk, rfl⟩ := mem_of_lookup hfound
      obtain ⟨hsame, harguments⟩ := of_beq_pair (k := (element, statics)) (l := (element', statics')) hk
      obtain ⟨ht, hst⟩ := Bool.and_eq_true_iff.1
        (show (element == element' && statics == statics') = true from harguments)
      subst hsame
      -- the entry may have been made for an equal type
      rw [hancestors]
      exact Obeys.pure hS ((hS.elements _ he).2.congr hK (BEq.symm ht) (BEq.symm hst))
    · apply Obeys.bind (ih hrest hmrest)
      intro inherited S₁ h₁ hS₁ hinherited
      apply Obeys.get
      dsimp only
      generalize hown : (S₁.scope scope).injectables.filterMap
        (Producer.elementType? E.catalog statics element) = own
      have hscopes₁ : ∀ id ∈ scope :: enclosing, id < S₁.scopes.size := fun id hid =>
        h₁.lt_scopes (hscopes id hid)
      have hgathers : S₁.Gathers E (scope :: enclosing) element statics (inherited ++ own) := by
        rw [Gathers, contributionsIn_cons, hown]
        exact beq_of_forall₂ (List.rel_append (forall₂_of_beq hinherited)
          (List.forall₂_same.2 fun _ _ => BEq.rfl))
      have hmarked : Marked (S₁.visibleIn (scope :: enclosing)) := by
        rw [visibleIn_of_grows h₁ hscopes]
        exact hm
      rw [insertNew_eq_append own inherited (hgathers.distinct hmarked)]
      let S₂ : Session := { S₁ with memo := { S₁.memo with
        elements := ((scope, element, statics), inherited ++ own) :: S₁.memo.elements } }
      have h₂ : S₁.Extends S₂ := Extends.of_same rfl rfl fun _ _ => id
      have hnew : (∀ id ∈ S₁.ancestors scope, id < S₁.scopes.size) ∧
          S₁.Gathers E (S₁.ancestors scope) element statics (inherited ++ own) := by
        rw [h₁.ancestors hscope, ← hancestors]
        exact ⟨hscopes₁, hgathers⟩
      have hS₂ : Gathered E S₂ := hS₁.change h₂
        (List.forall_mem_cons.2 ⟨Or.inr hnew, fun _ he => Or.inl he⟩) fun _ he => Or.inl he
      exact ⟨h₂, hS₂, hgathers.mono h₂ hscopes₁⟩

/-! ### What a session makes -/

def Collected (E : Environment) (S : Session) (scope : ScopeId) (ty : Ty) (form : Option Form) : Prop :=
  -- For a collection type this is the form of what is made: the collection of what is gathered, if
  -- anything is.
  ∀ element, E.catalog.Collects ty element → ∃ found,
    S.Gathers E (S.ancestors scope) element (S.scope scope).statics found ∧
    form = if found.isEmpty then none else some (.collection ty found)

theorem gathered_synthesize (hK : E.catalog.Coherent) (hs : Sound V E S) (hp : Planted S)
    (hscope : scope < S.scopes.size) (ty : Ty) (hS : Gathered E S) :
    Obeys (Gathered E) S (synthesize? E scope ty) fun form S' => S'.Collected E scope ty form := by
  unfold synthesize?
  dsimp only
  -- only the branch of collections can make one; in the others `ty` is no collection of `element`
  split
  · next hfunction =>
    refine Obeys.pure hS fun element hc => ?_
    rw [hc.function] at hfunction
    cases hfunction
  · split
    · next argument hargument =>
      split
      · apply Obeys.get
        apply Obeys.bind (Obeys.get (gathered_elementsIn hK argument _ hs
          (Or.inr ⟨scope, hscope, rfl⟩) (hp.marked hs.nested hscope) hS))
        intro found S' hgrows hS' hgathers
        refine Obeys.pure hS' fun element hc => ⟨found, ?_, rfl⟩
        obtain rfl : argument = element := by
          rw [hc.arguments] at hargument
          exact (List.cons.inj hargument).1.symm
        rw [hgrows.ancestors hscope, hgrows.scope scope hscope]
        exact hgathers
      · next hcollection =>
        have hnot : ∀ element, ¬ E.catalog.Collects ty element := fun _ hc =>
          hcollection hc.collection
        split
        · exact Obeys.pure hS fun element hc => absurd hc (hnot element)
        · exact Obeys.pure hS fun element hc => absurd hc (hnot element)
    · next hother =>
      exact Obeys.pure hS fun element hc => absurd hc.arguments (hother element)

/-- If no form is made, nothing has been gathered. -/
theorem Collected.aggregates_none (h : S.Collected E scope ty none)
    (hc : E.catalog.Collects ty element) : S.Aggregates E scope ty element none := by
  obtain ⟨found, hgathers, he⟩ := h element hc
  split at he
  · next hempty =>
    rw [List.isEmpty_iff.1 hempty] at hgathers
    exact .nothing hgathers
  · cases he

/-- A form becomes the injectable that is pushed next. -/
theorem Collected.aggregates_push {form : Form} (h : S.Collected E scope ty (some form))
    (hscopes : ∀ id ∈ S.ancestors scope, id < S.scopes.size) (hc : E.catalog.Collects ty element) :
    Session.Aggregates E { S with injectables := S.injectables.push { owner := scope, form } } scope ty
      element (some S.injectables.size) := by
  obtain ⟨found, hgathers, he⟩ := h element hc
  split at he
  · cases he
  · next hne =>
    obtain rfl := Option.some.inj he
    have hgrows := extends_pushInjectable S { owner := scope, form := .collection ty found }
    exact .collection (lt_size_push _ _) (getD_push_size _ _ _) BEq.rfl
      (fun h => hne (List.isEmpty_iff.2 h)) (gathers_of_grows hgrows hscopes hgathers)

/-- What is made may be remembered. -/
theorem gathered_rememberFramework (made : Option InjectableId) (hS : Gathered E S)
    (hscopes : ∀ id ∈ S.ancestors scope, id < S.scopes.size)
    (hmade : ∀ element, E.catalog.Collects ty element → S.Aggregates E scope ty element made) :
    Obeys (Gathered E) S (do
        remember fun memo => { memo with framework := ((scope, ty), made) :: memo.framework }
        pure made)
      fun made S' => ∀ element, E.catalog.Collects ty element →
        S'.Aggregates E scope ty element made := by
  have hgrows : S.Extends { S with memo := { S.memo with
      framework := ((scope, ty), made) :: S.memo.framework } } :=
    Extends.of_same rfl rfl fun _ _ => id
  refine ⟨hgrows, hS.change hgrows (fun _ he => Or.inl he) ?_,
    fun element hc => (hmade element hc).mono hgrows hscopes⟩
  exact List.forall_mem_cons.2 ⟨Or.inr ⟨hscopes, hmade⟩, fun _ he => Or.inl he⟩

theorem gathered_framework (hK : E.catalog.Coherent) (hs : Sound V E S) (hp : Planted S)
    (hscope : scope < S.scopes.size) (ty : Ty) (hS : Gathered E S) :
    Obeys (Gathered E) S (framework? E scope ty) fun made S' => ty.instanceKey = none →
      ∀ element, E.catalog.Collects ty element → S'.Aggregates E scope ty element made := by
  unfold framework?
  split
  · next hnothing =>
    refine Obeys.pure hS fun hkey element hc => ?_
    rw [hkey, hc.isStar] at hnothing
    cases hnothing
  · apply Obeys.get
    split
    · next known hknown =>
      obtain ⟨⟨⟨scope', ty'⟩, made⟩, he, hk, rfl⟩ := mem_of_lookup hknown
      obtain ⟨hsame, ht⟩ := of_beq_pair (k := ty) (l := ty') hk
      subst hsame
      -- the entry may have been made for an equal type
      refine Obeys.pure hS fun _ element hc => ?_
      obtain ⟨element', hc', helement⟩ := hc.congr hK (BEq.symm ht)
      exact ((hS.framework _ he).2 element' hc').congr hK (BEq.symm ht) helement
    · apply Obeys.bind (gathered_synthesize hK hs hp hscope ty hS)
      intro form S₁ h₁ hS₁ hform
      have hscopes₁ : ∀ id ∈ S₁.ancestors scope, id < S₁.scopes.size := by
        rw [h₁.ancestors hscope]
        exact fun id hid => h₁.lt_scopes (lt_of_mem_ancestors hs.nested hscope id hid)
      split
      · next form =>
        let S₂ : Session := { S₁ with injectables := S₁.injectables.push { owner := scope, form } }
        have h₂ : S₁.Extends S₂ := extends_pushInjectable S₁ _
        have hpush : Obeys (Gathered E) S₁ (some <$> pushInjectable { owner := scope, form })
            fun made S' => made = some S₁.injectables.size ∧ S' = S₂ :=
          Obeys.map ⟨h₂, hS₁.grow h₂ rfl rfl, rfl, rfl⟩
        apply Obeys.bind hpush
        rintro _ _ _ hS₂ ⟨rfl, rfl⟩
        have hremember := gathered_rememberFramework (some S₁.injectables.size) hS₂
          (fun id hid => h₂.lt_scopes (hscopes₁ id hid)) fun _ hc => hform.aggregates_push hscopes₁ hc
        exact hremember.imp fun _ _ _ _ h _ => h
      · have hremember := gathered_rememberFramework none hS₁ hscopes₁ fun _ hc =>
          hform.aggregates_none hc
        exact hremember.imp fun _ _ _ _ h _ => h

end Session
end Wiring
