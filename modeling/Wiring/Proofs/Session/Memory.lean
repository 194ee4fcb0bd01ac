import Wiring.Proofs.Session.Blind
import Wiring.Proofs.Session.Invariants
import Wiring.Proofs.Session.Steps
import Wiring.Proofs.Types.Equality

namespace Wiring

/-! ### Tables -/

section Tables

variable {κ α : Type} [BEq κ] {table table' table'' : List (κ × α)} {k l : κ} {a : α}

theorem lookup_congr [PartialEquivBEq κ] (h : (k == l) = true) (table : List (κ × α)) :
    table.lookup k = table.lookup l := by
  induction table with
  | nil => rfl
  | cons e table ih =>
    obtain ⟨key, x⟩ := e
    rw [List.lookup_cons, List.lookup_cons, BEq.congr_left h, ih]

def Holds (table table' : List (κ × α)) : Prop :=
  ∀ k a, table.lookup k = some a → table'.lookup k = some a

theorem Holds.refl (table : List (κ × α)) : Holds table table :=
  fun _ _ h => h

theorem Holds.trans (h : Holds table table') (h' : Holds table' table'') : Holds table table'' :=
  fun k a hk => h' k a (h k a hk)

theorem Holds.lookup_eq_none (h : Holds table table') (hk : table'.lookup k = none) :
    table.lookup k = none := by
  cases hl : table.lookup k with
  | none => rfl
  | some a =>
    rw [h k a hl] at hk
    cases hk

/-- A new entry does no harm to what a table gives that had none for its key. -/
theorem Holds.cons [PartialEquivBEq κ] (h : Holds table table') (hk : table.lookup k = none)
    (a : α) : Holds table ((k, a) :: table') := by
  intro l b hl
  rw [List.lookup_cons]
  cases hkl : l == k with
  | false => exact h l b hl
  | true =>
    rw [lookup_congr hkl, hk] at hl
    cases hl

end Tables

namespace Session

variable {E : Environment} {S₀ S S' S'' T : Session} {α : Type} {scope : ScopeId}
  {c : InjectableId} {ty ty' : Ty} {statics : List Classifier}

structure Keeps (S T : Session) : Prop where
  -- `T` is a later session, in which the lookups made up to `S` give what they gave.
  grows : S.Extends T
  candidates : Holds S.memo.candidates T.memo.candidates := by exact Holds.refl _
  framework : Holds S.memo.framework T.memo.framework := by exact Holds.refl _
  typeScopes : Holds S.typeScopes T.typeScopes := by exact Holds.refl _

theorem Keeps.refl (S : Session) : S.Keeps S where
  grows := Extends.refl S

theorem Keeps.trans (h : S.Keeps S') (h' : S'.Keeps S'') : S.Keeps S'' where
  grows := h.grows.trans h'.grows
  candidates := h.candidates.trans h'.candidates
  framework := h.framework.trans h'.framework
  typeScopes := h.typeScopes.trans h'.typeScopes

/-- Results are no lookups. -/
theorem keeps_withResults (S : Session) (r : Results) : S.Keeps (S.withResults r) where
  grows := Extends.of_same rfl rfl fun _ _ => id

structure Found (S : Session) (step again : SessionM α) : Prop where
  -- What the step gives, `again` gives without a change in every session that keeps the lookups
  -- made up to the end of the step.
  keeps : S.Keeps (step.run S).2
  again : ∀ T, (step.run S).2.Keeps T → again.run T = ((step.run S).1, T)

theorem run_get {β : Type} {f : Session → SessionM β} {r : β × Session} (h : (f S).run S = r) :
    (MonadState.get >>= f).run S = r :=
  h

/-! ### Candidates -/

theorem keeps_pushInjectable (hS : S₀.Keeps S) (i : Injectable) :
    Obeys S₀.Keeps S (pushInjectable i) fun _ _ => True where
  grows := extends_pushInjectable S i
  keeps := hS.trans { grows := extends_pushInjectable S i }
  result := trivial

theorem keeps_candidatesIn (E : Environment) (ty : Ty) (statics : List Classifier)
    (scopes : List ScopeId) (hS : S₀.Keeps S) :
    Obeys S₀.Keeps S (candidatesIn E ty statics scopes) fun found S' =>
      ∀ scope ∈ scopes.head?, S'.memo.candidates.lookup (scope, ty, statics) = some found := by
  induction scopes generalizing S with
  | nil => exact Obeys.pure hS fun _ h => by cases h
  | cons scope enclosing ih =>
    rw [candidatesIn]
    apply Obeys.get
    split
    · next found hfound =>
      refine Obeys.pure hS ?_
      rintro _ ⟨⟩
      exact hfound
    · next hmiss =>
      -- what is not there now was not there in `S₀`, so no entry of `S₀` is hidden by a new one
      have hnew := hS.candidates.lookup_eq_none hmiss
      apply Obeys.bind (ih hS)
      intro inherited S₁ _ hS₁ _
      apply Obeys.get
      apply Obeys.bind (Obeys.mapM (R := fun _ _ => True) hS₁
        (fun p _ S hS => keeps_pushInjectable hS _) fun _ _ _ _ h => h)
      intro own S₂ _ hS₂ _
      have hgrows : S₂.Extends { S₂ with memo := { S₂.memo with
          candidates := ((scope, ty, statics), inherited ++ own) :: S₂.memo.candidates } } :=
        Extends.of_same rfl rfl fun _ _ => id
      refine ⟨hgrows, ?_, ?_⟩
      · exact { hS₂ with
          grows := hS₂.grows.trans hgrows
          candidates := hS₂.candidates.cons hnew _ }
      · rintro _ ⟨⟩
        exact lookup_self _ _ _

theorem keeps_candidates (E : Environment) (scope : ScopeId) (ty : Ty) (statics : List Classifier)
    (hS : S₀.Keeps S) :
    Obeys S₀.Keeps S (candidates E scope ty statics) fun found S' =>
      S'.memo.candidates.lookup (scope, ty, statics) = some found :=
  Obeys.get ((keeps_candidatesIn E ty statics (S.ancestors scope) hS).imp
    fun _ _ _ _ h => h scope rfl)

theorem run_candidates {found : List InjectableId}
    (h : T.memo.candidates.lookup (scope, ty, statics) = some found) :
    (candidates E scope ty statics).run T = (found, T) := by
  apply run_get
  rw [ancestors, candidatesIn]
  apply run_get
  split
  · next hfound =>
    rw [h] at hfound
    cases hfound
    rfl
  · next hmiss =>
    rw [h] at hmiss
    cases hmiss

theorem beq_pair (scope : ScopeId) (h : (ty' == ty) = true) :
    ((scope, ty') == (scope, ty)) = true := by
  change (scope == scope && ty' == ty) = true
  simp [h]

theorem beq_triple (scope : ScopeId) (h : (ty' == ty) = true) (statics : List Classifier) :
    ((scope, ty', statics) == (scope, ty, statics)) = true := by
  change (scope == scope && (ty' == ty && statics == statics)) = true
  simp [h]

/-- The candidates for a type are the same later on, for every equal type. -/
theorem found_candidates (E : Environment) (scope : ScopeId) (statics : List Classifier)
    (h : (ty' == ty) = true) (S : Session) :
    Found S (candidates E scope ty statics) (candidates E scope ty' statics) := by
  have hrun := keeps_candidates E scope ty statics (Keeps.refl S)
  refine ⟨hrun.keeps, fun T hT => run_candidates ?_⟩
  rw [lookup_congr (beq_triple scope h statics)]
  exact hT.candidates _ _ hrun.result

/-! ### Scopes that a session adds by itself -/

theorem keeps_build (E : Environment) (position : Position) (hS : S₀.Keeps S) :
    Obeys S₀.Keeps S (build E position) fun _ S' =>
      S'.memo = S.memo ∧ S'.typeScopes = S.typeScopes :=
  ⟨extends_build E position S, hS.trans { grows := extends_build E position S }, rfl, rfl⟩

theorem keeps_addScope (E : Environment) (position : Position) (S : Session) :
    S.Keeps ((addScope E position).run S).2 :=
  (Obeys.addScope (Keeps.refl S)
    ((keeps_build E position (Keeps.refl S)).imp fun _ _ _ _ _ => trivial)).keeps

def modulesOf (E : Environment) (ty : Ty) : List Classifier :=
  ty.covering.filter fun c => !E.catalog.isTypeParameter c

/-- Equal types have their declarations in the same modules. -/
theorem modulesOf_beq (hK : E.catalog.ParametersByKey) (h : (ty' == ty) = true) :
    (modulesOf E ty' == modulesOf E ty) = true := by
  refine beq_of_forall₂ (List.rel_filter ?_ (Ty.covering_beq h))
  intro c d hcd
  have hsame := hK c d (Classifier.beq_iff_key_eq.1 hcd)
  change (!E.catalog.isTypeParameter c) = true ↔ (!E.catalog.isTypeParameter d) = true
  rw [hsame]

theorem keeps_typeScope (E : Environment) (ty : Ty) (hS : S₀.Keeps S) :
    Obeys S₀.Keeps S (typeScope E ty) fun found S' =>
      S'.typeScopes.lookup (modulesOf E ty) = some found := by
  have hremember : ∀ (found : Option ScopeId) {S : Session}, S₀.Keeps S →
      S₀.typeScopes.lookup (modulesOf E ty) = none →
      Obeys S₀.Keeps S (do
          modify fun S => { S with typeScopes := (modulesOf E ty, found) :: S.typeScopes }
          pure found)
        fun found S' => S'.typeScopes.lookup (modulesOf E ty) = some found := by
    intro found S hS hnew
    have hgrows : S.Extends { S with typeScopes := (modulesOf E ty, found) :: S.typeScopes } :=
      Extends.of_same rfl rfl fun _ _ => id
    refine ⟨hgrows, ?_, lookup_self _ _ _⟩
    exact { hS with
      grows := hS.grows.trans hgrows
      typeScopes := hS.typeScopes.cons hnew _ }
  -- a module without declarations has no scope, which is remembered too
  unfold typeScope
  dsimp only
  apply Obeys.get
  split
  · next known hknown => exact Obeys.pure hS hknown
  · next hmiss =>
    have hnew := hS.typeScopes.lookup_eq_none hmiss
    split
    · exact hremember none hS hnew
    · apply Obeys.bind (Obeys.map (R := fun _ _ => True)
        ((keeps_build E _ hS).imp fun _ _ _ _ _ => trivial))
      intro found S' _ hS' _
      exact hremember found hS' hnew

theorem run_typeScope {found : Option ScopeId}
    (h : T.typeScopes.lookup (modulesOf E ty) = some found) :
    (typeScope E ty).run T = (found, T) := by
  unfold modulesOf at h
  unfold typeScope
  dsimp only
  apply run_get
  split
  · next hfound =>
    rw [h] at hfound
    cases hfound
    rfl
  · next hmiss =>
    rw [h] at hmiss
    cases hmiss

/-- The type scope of a type is the same later on, for every equal type. -/
theorem found_typeScope (hK : E.catalog.ParametersByKey) (h : (ty' == ty) = true) (S : Session) :
    Found S (typeScope E ty) (typeScope E ty') := by
  have hrun := keeps_typeScope E ty (Keeps.refl S)
  refine ⟨hrun.keeps, fun T hT => run_typeScope ?_⟩
  rw [lookup_congr (modulesOf_beq hK h)]
  exact hT.typeScopes _ _ hrun.result

theorem keeps_dependencyScope (E : Environment) (scope : ScopeId) (c : InjectableId)
    (hS : S₀.Keeps S) :
    Obeys S₀.Keeps S (dependencyScope E scope c) fun inner S' =>
      if (childPosition? E scope (S.injectable c).form).isNone then inner = scope
      else S'.memo.childScopes.lookup (scope, c) = some inner := by
  unfold dependencyScope
  apply Obeys.get
  split
  · next hnone => exact Obeys.pure hS (by rw [hnone]; rfl)
  · next position hposition =>
    rw [hposition]
    split
    · next child hchild => exact Obeys.pure hS hchild
    · next hmiss =>
      apply Obeys.bind (keeps_build E position hS)
      rintro child S₁ _ hS₁ ⟨hmemo, _⟩
      have hgrows := extends_rememberChild child
        (hmemo ▸ hmiss : S₁.memo.childScopes.lookup (scope, c) = none)
      exact ⟨hgrows, hS₁.trans { grows := hgrows }, lookup_self _ _ _⟩

/-- The scope for the dependencies of a candidate is the same later on. -/
theorem found_dependencyScope (E : Environment) (scope : ScopeId) (hc : c < S.injectables.size) :
    Found S (dependencyScope E scope c) (dependencyScope E scope c) := by
  have hrun := keeps_dependencyScope E scope c (Keeps.refl S)
  refine ⟨hrun.keeps, fun T hT => ?_⟩
  have hsame : T.injectable c = S.injectable c := calc
    T.injectable c = ((dependencyScope E scope c).run S).2.injectable c :=
      hT.grows.injectable c (hrun.grows.lt_injectables hc)
    _ = S.injectable c := hrun.grows.injectable c hc
  have hinner := hrun.result
  unfold dependencyScope
  apply run_get
  rw [hsame]
  split
  · next hnone =>
    rw [hnone] at hinner
    exact congrArg (·, T) hinner.symm
  · next position hposition =>
    rw [hposition] at hinner
    -- a child that was built is remembered, and what is remembered of children stays
    have hlookup := hT.grows.children _ _ hinner
    split
    · next child hchild =>
      rw [hlookup] at hchild
      cases hchild
      rfl
    · next hmiss =>
      rw [hlookup] at hmiss
      cases hmiss

/-! ### Injectables that a session makes -/

def makesNothing (ty : Ty) : Bool :=
  ty.instanceKey.isSome || ty.isStar

theorem makesNothing_beq (h : (ty' == ty) = true) : makesNothing ty' = makesNothing ty := by
  unfold makesNothing
  rw [(Ty.parts_of_beq h).instanceKey, Ty.isStar_of_beq h]

theorem keeps_framework (E : Environment) (scope : ScopeId) (ty : Ty) (hS : S₀.Keeps S) :
    Obeys S₀.Keeps S (framework? E scope ty) fun made S' =>
      if makesNothing ty then made = none
      else S'.memo.framework.lookup (scope, ty) = some made := by
  have hremember : ∀ (made : Option InjectableId) {S : Session}, S₀.Keeps S →
      S₀.memo.framework.lookup (scope, ty) = none →
      Obeys S₀.Keeps S (do
          remember fun memo => { memo with framework := ((scope, ty), made) :: memo.framework }
          pure made)
        fun made S' => S'.memo.framework.lookup (scope, ty) = some made := by
    intro made S hS hnew
    have hgrows : S.Extends { S with memo := { S.memo with
        framework := ((scope, ty), made) :: S.memo.framework } } :=
      Extends.of_same rfl rfl fun _ _ => id
    refine ⟨hgrows, ?_, lookup_self _ _ _⟩
    exact { hS with
      grows := hS.grows.trans hgrows
      framework := hS.framework.cons hnew _ }
  -- what is made may be nothing, which is remembered like everything else
  unfold framework?
  change Obeys S₀.Keeps S (if makesNothing ty then _ else _) _
  split
  · next hnothing => exact Obeys.pure hS rfl
  · apply Obeys.get
    split
    · next known hknown => exact Obeys.pure hS hknown
    · next hmiss =>
      have hnew := hS.framework.lookup_eq_none hmiss
      have helements : ∀ element statics scopes,
          Obeys S₀.Keeps S (elementsIn E element statics scopes) fun _ _ => True := fun _ _ _ =>
        elementsIn_keeps (fun _ hS => hS.trans { grows := Extends.of_same rfl rfl fun _ _ => id })
          _ _ _ hS
      apply Obeys.bind (Obeys.synthesize hS fun _ => Obeys.get (helements _ _ _))
      intro form S₁ _ hS₁ _
      split
      · apply Obeys.bind (Obeys.map (R := fun _ _ => True) (keeps_pushInjectable hS₁ _))
        exact fun made S₂ _ hS₂ _ => hremember made hS₂ hnew
      · exact hremember none hS₁ hnew

/-- What a session makes for a type is the same later on, for every equal type. -/
theorem found_framework (E : Environment) (scope : ScopeId) (h : (ty' == ty) = true) (S : Session) :
    Found S (framework? E scope ty) (framework? E scope ty') := by
  have hrun := keeps_framework E scope ty (Keeps.refl S)
  refine ⟨hrun.keeps, fun T hT => ?_⟩
  have hmade := hrun.result
  rw [← makesNothing_beq h] at hmade
  unfold framework?
  change StateT.run (if makesNothing ty' then _ else _) T = _
  split
  · next hnothing =>
    rw [if_pos hnothing] at hmade
    exact congrArg (·, T) hmade.symm
  · next hmaybe =>
    rw [if_neg hmaybe] at hmade
    -- the key of the later lookup is only equal to the one that is remembered
    have hlookup := hT.framework _ _ hmade
    rw [← lookup_congr (beq_pair scope h)] at hlookup
    apply run_get
    split
    · next known hknown =>
      rw [hlookup] at hknown
      cases hknown
      rfl
    · next hmiss =>
      rw [hlookup] at hmiss
      cases hmiss

end Session
end Wiring
