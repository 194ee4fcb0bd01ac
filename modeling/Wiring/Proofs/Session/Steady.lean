import Wiring.Proofs.Search.Legality

namespace Wiring.Session

open Vocabulary

variable {E : Environment} {I : Session → Prop} {S : Session} {scope : ScopeId}
  {c : InjectableId}

/-- The scope of dependencies keeps what bears with new scopes and with what they are for. -/
theorem dependencyScope_keeps
    (hchild : ∀ {S : Session} e, I S →
      I { S with memo := { S.memo with childScopes := e :: S.memo.childScopes } })
    (hbuild : ∀ {S : Session} (position : Position), Sound everything E S →
      (∀ parent, position.parent = some parent → parent < S.scopes.size) → I S →
        I ((Session.build E position).run S).2)
    (hs : Sound everything E S) (hS : I S) (hscope : scope < S.scopes.size)
    (hc : c < S.injectables.size) :
    Obeys I S (Session.dependencyScope E scope c) fun _ _ => True := by
  unfold Session.dependencyScope
  apply Obeys.get
  split
  · exact Obeys.pure hS trivial
  · next position hposition =>
    have hparent := (childPosition_spec (hs.injectables c hc) hposition).1
    split
    · exact Obeys.pure hS trivial
    · next hmiss =>
      -- the position of a child has the scope itself as its parent
      have hvalid : ∀ parent, position.parent = some parent → parent < S.scopes.size := by
        intro parent hp
        rw [hparent] at hp
        cases hp
        exact hscope
      have hbuilt : Obeys I S (Session.build E position) fun _ S' => S'.memo = S.memo :=
        ⟨extends_build E position S, hbuild position hs hvalid hS, rfl⟩
      apply Obeys.bind hbuilt
      intro child S₁ _ hS₁ hmemo
      have hnone : S₁.memo.childScopes.lookup (scope, c) = none := by
        rw [hmemo]
        exact hmiss
      exact ⟨extends_rememberChild child hnone, hchild _ hS₁, trivial⟩

structure Calm (E : Environment) (I : Session → Prop) : Prop where
  -- An invariant that is kept when a scope is built, at the top or inside of one that exists, and
  -- when it is remembered which type or which candidate a scope is for.
  rememberTypeScope : ∀ {S : Session} e, I S → I { S with typeScopes := e :: S.typeScopes }
  rememberChild : ∀ {S : Session} e, I S →
    I { S with memo := { S.memo with childScopes := e :: S.memo.childScopes } }
  build : ∀ {S : Session} (position : Position), Sound everything E S →
    (∀ parent, position.parent = some parent → parent < S.scopes.size) → I S →
      I ((Session.build E position).run S).2

namespace Calm

theorem typeScope (hI : Calm E I) (hs : Sound everything E S) (hS : I S) (ty : Ty) :
    Obeys I S (Session.typeScope E ty) fun _ _ => True := by
  have hremember : ∀ (classifiers : List Classifier) (found : Option ScopeId) {S : Session}, I S →
      Obeys I S (do
          modify fun S => { S with typeScopes := (classifiers, found) :: S.typeScopes }
          pure found)
        fun _ _ => True := fun _ _ _ hS =>
    ⟨Extends.of_same rfl rfl fun _ _ => id, hI.rememberTypeScope _ hS, trivial⟩
  unfold Session.typeScope
  dsimp only
  apply Obeys.get
  split
  · exact Obeys.pure hS trivial
  · split
    · exact hremember _ none hS
    · -- a type scope is at the top
      have hbuilt : ∀ position : Position, position.parent = none →
          Obeys I S (Session.build E position) fun _ _ => True := fun position hnone =>
        ⟨extends_build E position S, hI.build position hs (fun _ h => by rw [hnone] at h; cases h) hS,
          trivial⟩
      apply Obeys.bind (Obeys.map (R := fun _ _ => True) (hbuilt _ rfl))
      exact fun found S' _ hS' _ => hremember _ found hS'

theorem dependencyScope (hI : Calm E I) (hs : Sound everything E S) (hS : I S)
    (hscope : scope < S.scopes.size) (hc : c < S.injectables.size) :
    Obeys I S (Session.dependencyScope E scope c) fun _ _ => True :=
  dependencyScope_keeps hI.rememberChild hI.build hs hS hscope hc

end Calm

/-- What is made for a type keeps what bears with new injectables and with what is remembered of
elements and of what is made. -/
theorem framework_keeps
    (hpush : ∀ {S : Session} i, I S → I { S with injectables := S.injectables.push i })
    (helements : ∀ {S : Session} e, I S →
      I { S with memo := { S.memo with elements := e :: S.memo.elements } })
    (scope : ScopeId) (ty : Ty)
    (hframework : ∀ {S : Session} (made : Option InjectableId), I S →
      I { S with memo := { S.memo with framework := ((scope, ty), made) :: S.memo.framework } })
    (hS : I S) : Obeys I S (Session.framework? E scope ty) fun _ _ => True := by
  have hremember : ∀ (made : Option InjectableId) {S : Session}, I S →
      Obeys I S (do
          remember fun memo => { memo with framework := ((scope, ty), made) :: memo.framework }
          pure made)
        fun _ _ => True := fun _ _ hS =>
    ⟨Extends.of_same rfl rfl fun _ _ => id, hframework _ hS, trivial⟩
  unfold Session.framework?
  split
  · exact Obeys.pure hS trivial
  · apply Obeys.get
    split
    · exact Obeys.pure hS trivial
    · apply Obeys.bind (Obeys.synthesize hS fun _ => Obeys.get (elementsIn_keeps helements _ _ _ hS))
      intro form S₁ _ hS₁ _
      split
      · next form =>
        have hpushed : Obeys I S₁ (pushInjectable { owner := scope, form }) fun _ _ => True :=
          ⟨extends_pushInjectable S₁ _, hpush _ hS₁, trivial⟩
        apply Obeys.bind (Obeys.map (R := fun _ _ => True) hpushed)
        exact fun made S₂ _ hS₂ _ => hremember made hS₂
      · exact hremember none hS₁

structure Steady (E : Environment) (I : Session → Prop) : Prop extends Calm E I where
  -- An invariant that is also kept when an injectable is added and when anything is remembered but
  -- candidates and results.
  push : ∀ {S : Session} i, I S → I { S with injectables := S.injectables.push i }
  rememberElements : ∀ {S : Session} e, I S →
    I { S with memo := { S.memo with elements := e :: S.memo.elements } }
  rememberFramework : ∀ {S : Session} e, I S →
    I { S with memo := { S.memo with framework := e :: S.memo.framework } }

theorem Steady.framework (hI : Steady E I) (scope : ScopeId) (ty : Ty) (hS : I S) :
    Obeys I S (Session.framework? E scope ty) fun _ _ => True :=
  framework_keeps hI.push hI.rememberElements scope ty (fun _ => hI.rememberFramework _) hS

/-- A lookup of candidates keeps what bears with new injectables and with what it remembers. -/
theorem candidatesIn_keeps
    (hpush : ∀ {S : Session} i, I S → I { S with injectables := S.injectables.push i })
    (hremember : ∀ {S : Session} e, I S →
      I { S with memo := { S.memo with candidates := e :: S.memo.candidates } })
    (ty : Ty) (statics : List Classifier) (scopes : List ScopeId) (hS : I S) :
    Obeys I S (candidatesIn E ty statics scopes) fun _ _ => True := by
  induction scopes generalizing S with
  | nil => exact Obeys.pure hS trivial
  | cons scope enclosing ih =>
    rw [candidatesIn]
    apply Obeys.get
    split
    · exact Obeys.pure hS trivial
    · apply Obeys.bind (ih hS)
      intro inherited S₁ _ hS₁ _
      apply Obeys.get
      have hproduced : ∀ p S, I S →
          Obeys I S (pushInjectable { owner := scope, form := .produced p }) fun _ _ => True :=
        fun p S hS => ⟨extends_pushInjectable S _, hpush _ hS, trivial⟩
      apply Obeys.bind (Obeys.mapM (R := fun _ _ => True) hS₁ (fun p _ => hproduced p)
        fun _ _ _ _ h => h)
      intro own S₂ _ hS₂ _
      exact ⟨Extends.of_same rfl rfl fun _ _ => id, hremember _ hS₂, trivial⟩

def NoTypeScopes (S : Session) : Prop :=
  ∀ e ∈ S.typeScopes, e.2 = none

/-- Where no declarations come with types no type scope is found. -/
theorem typeScope_none (hnone : ∀ c, E.host.typeScopeDeclarations c = []) (h : S.NoTypeScopes)
    (ty : Ty) : Obeys NoTypeScopes S (Session.typeScope E ty) fun found _ =>
      found = none := by
  unfold Session.typeScope
  dsimp only
  apply Obeys.get
  split
  · next known hknown =>
    obtain ⟨e, he, -, rfl⟩ := mem_of_lookup hknown
    exact Obeys.pure h (h e he)
  · split
    · exact ⟨Extends.of_same rfl rfl fun _ _ => id, List.forall_mem_cons.2 ⟨rfl, h⟩, rfl⟩
    · next hsome => simp [List.flatMap, hnone] at hsome

end Wiring.Session
