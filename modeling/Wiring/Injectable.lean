import Wiring.Host
import Wiring.Request

namespace Wiring

abbrev ScopeId := Nat

abbrev InjectableId := Nat

def scopeText (id : ScopeId) : String :=
  "s" ++ toString id

def injectableText (id : InjectableId) : String :=
  "i" ++ toString id

inductive Form where
  -- A producer, specialized to the request.
  | produced (producer : Producer)
  -- A collection of everything that fits its element type.
  | collection (ty : Ty) (elements : List Ty)
  -- A function that makes its result on demand; what it is called with becomes injectable in a
  -- scope of its own.
  | provider (ty : Ty)
  -- Evidence of a type argument.
  | witness (ty : Ty)
  -- An aggregate of its members.
  | component (ty : Ty) (members : List Member)

structure Injectable where
  -- The scope that the injectable belongs to.
  owner : ScopeId
  form : Form

instance : Inhabited Injectable := ⟨0, .provider .star⟩

inductive Origin where
  | declaration (id : String)
  | collection (classifier : Classifier)
  | provider (classifier : Classifier)
  | witness (classifier : Classifier)
  | component (classifier : Classifier)
deriving BEq

structure Usage where
  -- What two injectables that stand for the same value have in common.
  origin : Origin
  typeArguments : Substitution
  ty : Ty
deriving BEq

namespace Injectable

def ty (i : Injectable) : Ty :=
  match i.form with
  | .produced p => p.ty
  | .collection ty _ | .provider ty | .witness ty | .component ty _ => ty

def producer? (i : Injectable) : Option Producer :=
  match i.form with
  | .produced p => some p
  | _ => none

def declaredType (i : Injectable) : Ty :=
  match i.form with
  | .produced p => if p.lifted then p.ty else p.declaration.ty
  | _ => i.ty

def callContext (i : Injectable) : CallContext :=
  -- The context that the injectable may be used from. What a session makes itself may be used from
  -- everywhere.
  match i.form with
  | .produced p => p.declaration.callContext
  | _ => .default

def module? (i : Injectable) : Option Nat :=
  i.producer?.map (·.declaration.module)

def importPath? (i : Injectable) : Option String :=
  i.producer?.bind (·.declaration.importPath)

def chainLength (i : Injectable) : Nat :=
  (i.producer?.map Producer.chainLength).getD 0

def hasChildScope (i : Injectable) : Bool :=
  match i.form with
  | .provider _ | .component _ _ => true
  | _ => false

def origin (i : Injectable) : Origin :=
  match i.form with
  | .produced p => .declaration p.id
  | .collection ty _ => .collection ty.classifier
  | .provider ty => .provider ty.classifier
  | .witness ty => .witness ty.classifier
  | .component ty _ => .component ty.classifier

def usage (i : Injectable) : Usage where
  origin := i.origin
  typeArguments := (i.producer?.map Producer.typeArguments).getD .empty
  ty := i.ty.withoutInstanceKey

def witnessed (K : Catalog) (ty : Ty) : List Classifier :=
  -- The type parameters in what `ty` is evidence of that need evidence themselves. Reified ones
  -- carry it.
  match ty.arguments.head? with
  | some t => (K.parametersIn t).filter fun p => !(K.flags p).reified
  | none => []

def partRequests (callable : String) (parts : List (String × Ty)) : List Request :=
  parts.mapIdx fun i (name, ty) => { ty, callable, name, slot := .value i }

def frameworkId (K : Catalog) (kind : String) (ty : Ty) : String :=
  syntheticId kind (K.text ty.withoutInstanceKey)

def dependencies (K : Catalog) (i : Injectable) : List Request :=
  match i.form with
  | .produced p => Request.parametersOf p
  | .collection ty elements =>
    partRequests (frameworkId K "collection" ty)
      (elements.mapIdx fun i element => ("element" ++ toString i, element))
  | .provider ty =>
    partRequests (frameworkId K "provider" ty)
      ((K.functionReturn? ty).toList.map fun result => ("result", result))
  | .witness ty =>
    partRequests (frameworkId K "witness" ty)
      ((witnessed K ty).map fun p => (p.key, { head := ty.head, arguments := [.of p] }))
  | .component ty members =>
    partRequests (frameworkId K "component" ty) (members.map fun m => (m.name, m.ty))

def dependencyCount (K : Catalog) (i : Injectable) : Nat :=
  match i.form with
  | .produced p => p.parameterTypes.length
  | .collection _ elements => elements.length
  | .provider _ => 1
  | .witness ty => (witnessed K ty).length
  | .component _ members => members.length

def text (K : Catalog) (i : Injectable) : String :=
  match i.form with
  | .produced p => p.text K
  | .collection ty elements =>
    "collection " ++ K.text ty ++ " of " ++ toString elements.length ++ " elements"
  | .provider ty => "provider " ++ K.text ty
  | .witness ty => "witness " ++ K.text ty
  | .component ty _ => "component " ++ K.text ty

end Injectable
end Wiring
