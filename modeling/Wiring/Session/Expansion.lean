import Wiring.Fit
import Wiring.Session

/-!
All that follows from the declarations of a scope: the declarations themselves, the results of
producers whose tag lifts them, the members of everything whose type is a scope of declarations, and
the outputs of spreading rules, until nothing new comes up.
-/
namespace Wiring

def Catalog.liftedResult? (K : Catalog) (t : Ty) : Option Ty :=
  if (K.flagsOf t).function && (K.functionParameters t).isEmpty
      && t.tags.any fun tag => (K.flagsOf tag).liftsResult then
    K.functionReturn? t
  else none

namespace Producer

/-- What tells collected producers apart: the declaration, its type arguments, the type but for its
instance key, and whether it is a lifted result. -/
abbrev Identity := String × Substitution × Ty × Bool

def identity (p : Producer) : Identity :=
  (p.id, p.typeArguments, p.ty.withoutInstanceKey, p.lifted)

def isRule (K : Catalog) (p : Producer) : Bool :=
  match p.declaration.spreadConstraint? K with
  | some (parameter, _) => !p.typeArguments.contains parameter
  | none => false

def members (E : Environment) (p : Producer) : List Producer :=
  if p.ty.nullable || E.catalog.isParameter p.ty then []
  else
    let declarations := (E.host.membersOf p.ty.classifier).filter (·.isValid E.catalog)
    declarations.map fun d =>
      (((ofDeclaration d).substitute (E.catalog.argumentsOf p.ty)).withReceiver p.ty).derivedFrom p

def spread? (K : Catalog) (statics : List Classifier) (rule candidate : Producer) :
    Option Producer := do
  -- What a spreading rule makes of a candidate whose type matches its pattern. It is one step
  -- further than the rule and the candidate.
  let (parameter, bound) ← rule.declaration.spreadConstraint? K
  let pattern := bound.substitute rule.typeArguments
  let m ← (K.fit statics candidate.ty pattern).toOption
  let output := rule.substitute (m.insert parameter candidate.ty)
  pure (if candidate.chainLength < rule.chainLength then output.derived
    else output.derivedFrom candidate)

end Producer

structure Expansion where
  injectables : List Producer := []
  spreading : List Producer := []
  seen : List Producer.Identity := []
  -- The rules, by declaration and type arguments, with the candidate types they have been applied
  -- to.
  processed : List (String × Substitution × Ty) := []
  nextInstanceKey : Nat

namespace Expansion

def collectWithin (E : Environment) : (steps : Nat) → Producer → Expansion → Expansion
  -- Take in a producer and all that it brings by lifting and membership, which are one step further
  -- each; `steps` says how many steps may still be made.
  | 0, _, x => x
  | steps + 1, p, x =>
    if x.seen.contains p.identity then x
    else
      let x := { x with seen := p.identity :: x.seen }
      -- a rule gives nothing by itself: its open parameter has to be filled first
      if p.isRule E.catalog then { x with spreading := x.spreading ++ [p] }
      else
        -- with the key a request can name this very producer among those of its type
        let p := p.withType (p.ty.withInstanceKey (some x.nextInstanceKey))
        let x := { x with
          injectables := x.injectables ++ [p]
          nextInstanceKey := x.nextInstanceKey + 1 }
        let x := match E.catalog.liftedResult? p.ty with
          | some result => collectWithin E steps (p.lift result) x
          | none => x
        (p.members E).foldl (fun x member => collectWithin E steps member x) x

def collect (E : Environment) (x : Expansion) (p : Producer) : Expansion :=
  collectWithin E (E.config.maxExpansionDepth + 1 - p.chainLength) p x

structure Inherited where
  -- The rules and candidates that the scopes around bring in.
  rules : List Producer := []
  candidates : List Producer := []

def pairs (inherited : Inherited) (x : Expansion) : List (Producer × Producer) :=
  (x.spreading.flatMap fun rule =>
      (inherited.candidates ++ x.injectables).map fun candidate => (rule, candidate))
    ++ inherited.rules.flatMap fun rule => x.injectables.map fun candidate => (rule, candidate)

def apply (K : Catalog) (statics : List Classifier) :
    List Producer × Expansion → Producer × Producer → List Producer × Expansion
  | (outputs, x), (rule, candidate) =>
    let use := (rule.id, rule.typeArguments, candidate.ty)
    if x.processed.contains use then (outputs, x)
    else
      -- a use that gives nothing is not tried again either
      let x := { x with processed := use :: x.processed }
      match rule.spread? K statics candidate with
      | some output => (outputs ++ [output], x)
      | none => (outputs, x)

def saturate (E : Environment) (statics : List Classifier) (inherited : Inherited) :
    (rounds : Nat) → Expansion → Expansion
  | 0, x => x
  | rounds + 1, x =>
    let (outputs, x) := (x.pairs inherited).foldl (apply E.catalog statics) ([], x)
    if outputs.isEmpty then x
    else saturate E statics inherited rounds (outputs.foldl (collect E) x)

/-- Expand declarations. An output of the n-th round is at least n steps away from them, so none is
taken in after as many rounds as steps are allowed, and the round after the next has no output. -/
def ofDeclarations (E : Environment) (statics : List Classifier) (inherited : Inherited)
    (declarations : List Declaration) (nextInstanceKey : Nat) : Expansion :=
  saturate E statics inherited (E.config.maxExpansionDepth + 2)
    ((declarations.map Producer.ofDeclaration).foldl (collect E) { nextInstanceKey })

end Expansion

structure Position where
  name : String
  parent : Option ScopeId := none
  owner : Option String := none
  -- What is visible here and not in the parent.
  declarations : List Declaration := []
  typeParameters : List Classifier := []
  callContext : CallContext := .default
  isTypeScope : Bool := false

namespace Session

def inherited (S : Session) (scopes : List ScopeId) : Expansion.Inherited where
  rules := scopes.flatMap fun id => (S.scope id).spreading
  candidates := scopes.flatMap fun id => (S.scope id).injectables

def build (E : Environment) (position : Position) : SessionM ScopeId := do
  let S ← get
  let enclosing := match position.parent with
    | some parent => S.ancestors parent
    | none => []
  let around := match position.parent with
    | some parent => (S.scope parent).statics
    | none => []
  let statics := position.typeParameters.foldl
    (fun statics c => if statics.contains c then statics else statics ++ [c]) around
  let x := Expansion.ofDeclarations E statics (S.inherited enclosing) position.declarations
    S.nextInstanceKey
  set { S with nextInstanceKey := x.nextInstanceKey }
  pushScope {
    name := position.name
    enclosing
    owner := position.owner
    callContext := position.callContext
    isTypeScope := position.isTypeScope
    statics
    injectables := x.injectables
    spreading := x.spreading }

def check (K : Catalog) (S : Session) (position : Position) : Except ModelError Unit := do
  match position.parent with
  | some parent => if S.scopes.size ≤ parent then throw (.unknownScope parent)
  | none => pure ()
  match position.typeParameters.find? fun p => !K.isTypeParameter p with
  | some p => throw (.notATypeParameter p.key)
  | none => position.declarations.forM (Declaration.validate K)

def addScope (E : Environment) (position : Position) : SessionM (Except ModelError ScopeId) := do
  match check E.catalog (← get) position with
  | .error e => pure (.error e)
  | .ok () => .ok <$> build E position

end Session
end Wiring
