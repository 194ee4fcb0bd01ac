import Wiring.Fit.Bindings
import Wiring.Fit.Walk
import Wiring.Subtyping

/-!
Fitting a candidate type to a requested type: is there a substitution that makes the candidate
assignable to the request, and which one? The type parameters of both sides are variables, except
for the static ones, which are visible where the request is made and stay symbolic there.
-/
namespace Wiring
namespace Fit

def variablesOf (K : Catalog) (statics : List Classifier) (candidate requested : Ty) :
    List Classifier :=
  ((K.parametersIn candidate ++ K.parametersIn requested).filter
    fun p => !statics.contains p).eraseDups

/-- More levels than the walk takes. Between two of its bindings each level goes down into one of
the types or into the value of a variable, there are fewer bindings than variables, and all values
are parts of the request and of the candidate as the request views it. -/
def depth (K : Catalog) (vars : List Classifier) (candidate requested : Ty) : Nat :=
  let view := (K.view? candidate requested.classifier).getD candidate
  4 * (vars.length + 1) * (vars.length + 1) * (candidate.size + view.size + requested.size + 1)

/-- The bindings read as a substitution: a bound variable stands for its value, and a variable
without a value for the representative of its class. -/
def readOff {U : UnionFind} (vars : List Classifier) (b : U.Table) : Substitution :=
  vars.foldl (fun m v =>
    match U.value? b v with
    | some value => m.insert v value
    | none =>
      let r := U.representative b v
      if r == v then m else m.insert v (.of r)) .empty

def close : (rounds : Nat) → Substitution → Substitution
  | 0, m => m
  | rounds + 1, m =>
    let next := m.map (·.substitute m)
    if next == m then m else close rounds next

def isOpen (K : Catalog) (vars : List Classifier) (m : Substitution) (t : Ty) : Bool :=
  (K.parametersIn t).any fun p => vars.contains p && !m.contains p

def violatedBound? (K : Catalog) (vars : List Classifier) (m : Substitution)
    (parameter : Classifier) (argument : Ty) : Option Ty :=
  -- The first upper bound of `parameter` that its argument violates. Bounds that mention unbound
  -- variables are not looked at.
  if isOpen K vars m argument then none
  else
    ((K.declaredSupertypes parameter).map (·.substitute m)).find? fun bound =>
      !isOpen K vars m bound && !K.isSubtype argument bound

def checkBounds (K : Catalog) (vars : List Classifier) (m : Substitution) :
    Except Misfit Substitution :=
  match m.bindings.findSome? fun (parameter, argument) =>
    (violatedBound? K vars m parameter argument).map (Misfit.bound parameter argument) with
  | some reason => .error reason
  | none => .ok m

def solution {U : UnionFind} (K : Catalog) (vars : List Classifier) (b : U.Table) :
    Except Misfit Substitution :=
  checkBounds K vars (close (vars.length + 1) (readOff vars b))

def within (U : UnionFind) (K : Catalog) (depth : Nat) (statics : List Classifier)
    (candidate requested : Ty) : Option (Except Misfit Substitution) :=
  let vars := variablesOf K statics candidate requested
  match walk K vars depth .covariant candidate requested U.start with
  | .ok b => some (solution K vars b)
  | .error (.misfit reason) => some (.error reason)
  | .error .tooDeep => none

end Fit

def Catalog.fit (K : Catalog) (statics : List Classifier) (candidate requested : Ty) :
    Except Misfit Substitution :=
  -- The substitution under which `candidate` is assignable to `requested`. Hardly a walk is deep,
  -- so the sizes of the types are looked at only for one that is.
  match Fit.within Bindings.byRank K (1 <<< 16) statics candidate requested with
  | some result => result
  | none =>
    let depth := Fit.depth K (Fit.variablesOf K statics candidate requested) candidate requested
    (Fit.within Bindings.byRank K depth statics candidate requested).getD
      (.error (.classifier candidate requested))

end Wiring
