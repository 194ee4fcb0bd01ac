import Wiring.Session.Derived
import Wiring.Session.Framework
import Wiring.Session.Lookup

namespace Wiring

abbrev Results :=
  List ((ScopeId × Ty) × Except Failure Resolved) ×
    List ((ScopeId × InjectableId) × Except Failure Resolved)

namespace Session

variable {E : Environment} {α β : Type}

def results (S : Session) : Results :=
  (S.memo.byType, S.memo.byCandidate)

def withResults (S : Session) (r : Results) : Session :=
  { S with memo := { S.memo with byType := r.1, byCandidate := r.2 } }

theorem withResults_results (S : Session) : S.withResults S.results = S :=
  rfl

@[simp] theorem withResults_withResults (S : Session) (r r' : Results) :
    (S.withResults r).withResults r' = S.withResults r' :=
  rfl

def Blind (step : SessionM α) : Prop :=
  ∀ S r, step.run (S.withResults r) = ((step.run S).1, (step.run S).2.withResults r)

namespace Blind

variable {step : SessionM α} {f : α → SessionM β}

theorem results_eq (h : Blind step) (S : Session) : (step.run S).2.results = S.results := by
  have hself := h S S.results
  rw [withResults_results] at hself
  rw [hself]
  rfl

theorem pure (a : α) : Blind (Pure.pure a) :=
  fun _ _ => rfl

theorem bind (h : Blind step) (hf : ∀ a, Blind (f a)) : Blind (step >>= f) := by
  intro S r
  rw [StateT.run_bind, h S r]
  exact hf _ _ r

theorem map {g : α → β} (h : Blind step) : Blind (g <$> step) := by
  intro S r
  rw [StateT.run_map, h S r]
  rfl

/-- What comes next may depend on the session, if not on its results. -/
theorem get {f : Session → SessionM β} (hsame : ∀ S r, f (S.withResults r) = f S)
    (hf : ∀ S, Blind (f S)) : Blind (MonadState.get >>= f) := by
  intro S r
  change (f (S.withResults r)).run (S.withResults r) = _
  rw [hsame S r]
  exact hf S S r

theorem mapM {f : α → SessionM β} (hf : ∀ a, Blind (f a)) (xs : List α) : Blind (xs.mapM f) := by
  induction xs with
  | nil => exact pure []
  | cons x xs ih =>
    rw [List.mapM_cons]
    exact bind (hf x) fun _ => bind ih fun _ => pure _

theorem remember {f : Memo → Memo} (hf : ∀ (S : Session) r,
      { S.withResults r with memo := f (S.withResults r).memo } =
        ({ S with memo := f S.memo } : Session).withResults r) : Blind (Session.remember f) :=
  fun S r => congrArg (((), ·)) (hf S r)

end Blind

theorem blind_pushInjectable (i : Injectable) : Blind (pushInjectable i) :=
  fun _ _ => rfl

theorem blind_build (E : Environment) (position : Position) : Blind (build E position) :=
  fun _ _ => rfl

theorem blind_addScope (E : Environment) (position : Position) : Blind (addScope E position) := by
  unfold addScope
  refine Blind.get (fun _ _ => rfl) fun S => ?_
  split
  · exact Blind.pure _
  · exact Blind.map (blind_build E position)

theorem blind_candidatesIn (E : Environment) (ty : Ty) (statics : List Classifier)
    (scopes : List ScopeId) : Blind (candidatesIn E ty statics scopes) := by
  induction scopes with
  | nil => exact Blind.pure []
  | cons scope enclosing ih =>
    rw [candidatesIn]
    refine Blind.get (fun _ _ => rfl) fun S => ?_
    split
    · exact Blind.pure _
    · apply Blind.bind ih
      intro inherited
      refine Blind.get (fun _ _ => rfl) fun S => ?_
      apply Blind.bind (Blind.mapM (fun p => blind_pushInjectable _) _)
      exact fun own => Blind.bind (Blind.remember fun _ _ => rfl) fun _ => Blind.pure _

theorem blind_candidates (E : Environment) (scope : ScopeId) (ty : Ty) (statics : List Classifier) :
    Blind (candidates E scope ty statics) :=
  Blind.get (fun _ _ => rfl) fun _ => blind_candidatesIn E ty statics _

theorem blind_elementsIn (E : Environment) (element : Ty) (statics : List Classifier)
    (scopes : List ScopeId) : Blind (elementsIn E element statics scopes) := by
  induction scopes with
  | nil => exact Blind.pure []
  | cons scope enclosing ih =>
    rw [elementsIn]
    refine Blind.get (fun _ _ => rfl) fun S => ?_
    split
    · exact Blind.pure _
    · apply Blind.bind ih
      intro inherited
      refine Blind.get (fun _ _ => rfl) fun S => ?_
      exact Blind.bind (Blind.remember fun _ _ => rfl) fun _ => Blind.pure _

theorem blind_typeScope (E : Environment) (ty : Ty) : Blind (typeScope E ty) := by
  have hremember : ∀ (classifiers : List Classifier) (found : Option ScopeId), Blind (do
      modify fun S => { S with typeScopes := (classifiers, found) :: S.typeScopes }
      pure found) := fun _ _ _ _ => rfl
  unfold typeScope
  refine Blind.get (fun _ _ => rfl) fun S => ?_
  split
  · exact Blind.pure _
  · dsimp only
    split
    · exact hremember _ none
    · exact Blind.bind (Blind.map (blind_build E _)) fun found => hremember _ found

theorem blind_dependencyScope (E : Environment) (scope : ScopeId) (c : InjectableId) :
    Blind (dependencyScope E scope c) := by
  unfold dependencyScope
  refine Blind.get (fun _ _ => rfl) fun S => ?_
  split
  · exact Blind.pure scope
  · split
    · exact Blind.pure _
    · apply Blind.bind (blind_build E _)
      exact fun child => Blind.bind (Blind.remember fun _ _ => rfl) fun _ => Blind.pure child

theorem blind_synthesize (E : Environment) (scope : ScopeId) (ty : Ty) :
    Blind (synthesize? E scope ty) := by
  unfold synthesize?
  dsimp only
  split
  · exact Blind.pure _
  · split
    · next argument _ =>
      split
      · refine Blind.get (fun _ _ => rfl) fun S => ?_
        have helements : Blind (elements E scope argument (S.scope scope).statics) :=
          Blind.get (fun _ _ => rfl) fun _ => blind_elementsIn E argument _ _
        exact Blind.bind helements fun _ => Blind.pure _
      · split
        · exact Blind.pure _
        · exact Blind.pure _
    · exact Blind.pure _

theorem blind_framework (E : Environment) (scope : ScopeId) (ty : Ty) :
    Blind (framework? E scope ty) := by
  have hremember : ∀ made : Option InjectableId, Blind (do
      remember fun memo => { memo with framework := ((scope, ty), made) :: memo.framework }
      pure made) := fun _ _ _ => rfl
  unfold framework?
  split
  · exact Blind.pure none
  · refine Blind.get (fun _ _ => rfl) fun S => ?_
    split
    · exact Blind.pure _
    · apply Blind.bind (blind_synthesize E scope ty)
      intro form
      split
      · exact Blind.bind (Blind.map (blind_pushInjectable _)) hremember
      · exact Blind.bind (Blind.pure none) hremember

end Session
end Wiring
