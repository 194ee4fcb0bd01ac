import Wiring.Proofs.Session.Growth
import Wiring.Resolution

namespace Wiring

/-- A property of every node of a resolution tree. -/
inductive Resolved.Everywhere (P : Resolved → Prop) : Resolved → Prop
  | node {v : Resolved} (here : P v)
      (values : ∀ r w, (r, some w) ∈ v.dependencies → Everywhere P w) : Everywhere P v

theorem Resolved.Everywhere.imp {P Q : Resolved → Prop} {v : Resolved} (hPQ : ∀ v, P v → Q v)
    (h : Everywhere P v) : Everywhere Q v := by
  induction h with
  | node here _ ih => exact node (hPQ _ here) ih

def Injectable.Reifies (K : Catalog) (statics : List Classifier) (i : Injectable) : Prop :=
  -- The type arguments of an injectable may be known when the program runs, as far as the producer
  -- wants that, where only the reified ones of the static type parameters are.
  ∀ p, i.producer? = some p → ∀ parameter ∈ p.declaration.typeParameters,
    (K.flags parameter).reified = true → ∀ argument, p.typeArguments.get? parameter = some argument →
      ∀ c ∈ K.parametersIn argument, statics.contains c = true → (K.flags c).reified = true

namespace Session

variable {E : Environment} {S S' : Session} {scope inner : ScopeId} {c : InjectableId}
  {v : Resolved}

def Fills (S : Session) (scope : ScopeId) (c : InjectableId) (inner : ScopeId) : Prop :=
  -- `inner` is where the dependencies of a candidate are resolved when it is resolved in `scope`:
  -- the child scope made for the two if it is a provider or a component, `scope` itself if not.
  if (S.injectable c).hasChildScope = true then
    S.memo.childScopes.lookup (scope, c) = some inner ∧ (S.scope inner).parent = some scope
  else inner = scope

theorem Fills.mono (h : S.Fills scope c inner) (hc : c < S.injectables.size)
    (hS : S.Extends S') : S'.Fills scope c inner := by
  unfold Fills at h ⊢
  rw [hS.injectable c hc]
  split at h
  · next hchild =>
    rw [if_pos hchild]
    refine ⟨hS.children _ _ h.1, ?_⟩
    rw [hS.scope inner (lt_of_parent h.2)]
    exact h.2
  · next hchild =>
    rw [if_neg hchild]
    exact h

structure LegalAt (E : Environment) (S : Session) (v : Resolved) : Prop where
  -- The root of a tree is legal: its candidate may be called from its scope, has no reified type
  -- parameter that stands for something erased, and is visible there; each dependency has a slot,
  -- the required ones have values, and the values are resolved where they have to be.
  candidate : v.candidate < S.injectables.size
  scope : v.scope < S.scopes.size
  callable : E.host.canCall (S.scope v.scope).callContext
    (S.injectable v.candidate).callContext = true
  reified : (S.injectable v.candidate).Reifies E.catalog (S.scope v.scope).statics
  visible : S.Around v.scope (S.injectable v.candidate).owner ∨
    (S.scope (S.injectable v.candidate).owner).isTypeScope = true
  slots : v.dependencies.map (·.1) = (S.injectable v.candidate).dependencies E.catalog
  required : ∀ r, (r, none) ∈ v.dependencies → r.required = false
  inner : ∀ r w, (r, some w) ∈ v.dependencies → S.Fills v.scope v.candidate w.scope

/-- All nodes of a tree are legal. -/
abbrev Legal (E : Environment) (S : Session) (v : Resolved) : Prop :=
  v.Everywhere (LegalAt E S)

theorem LegalAt.mono (h : LegalAt E S v) (hS : S.Extends S') : LegalAt E S' v := by
  have hi := hS.injectable v.candidate h.candidate
  have hs := hS.scope v.scope h.scope
  refine ⟨hS.lt_injectables h.candidate, hS.lt_scopes h.scope, ?_, ?_, ?_, ?_, h.required,
    fun r w hw => (h.inner r w hw).mono h.candidate hS⟩
  · rw [hi, hs]
    exact h.callable
  · rw [hi, hs]
    exact h.reified
  · rw [hi]
    refine h.visible.imp (fun ha => ha.mono hS) fun ht => ?_
    rw [hS.scope _ (lt_of_isTypeScope ht)]
    exact ht
  · rw [hi]
    exact h.slots

theorem Legal.mono (h : Legal E S v) (hS : S.Extends S') : Legal E S' v :=
  h.imp fun _ hv => hv.mono hS

end Session

end Wiring
