import Wiring.CallContext
import Wiring.ModelError
import Wiring.Substitution

namespace Wiring

structure Flags where
  typeParameter : Bool := false
  -- A type parameter whose argument is known when the program runs.
  reified : Bool := false
  -- An object with a single instance.
  singleton : Bool := false
  -- A further name of another type.
  typeAlias : Bool := false
  tag : Bool := false
  -- A type parameter whose bound is the pattern that a spreading rule matches.
  spreadConstraint : Bool := false
  -- The type above all types.
  top : Bool := false
  -- A function type, whose last argument is what it returns.
  function : Bool := false
  -- A tag by which the result of a producer without parameters becomes injectable too.
  liftsResult : Bool := false
  -- The type of many values, filled with every element that can be found.
  collection : Bool := false
  -- The type of evidence for a type argument.
  witness : Bool := false
  -- An aggregate, each member of which is a dependency.
  component : Bool := false
deriving DecidableEq, Repr, Inhabited

structure Entry where
  -- The description of a classifier. The supertypes stand over its type parameters; those of a type
  -- parameter are its upper bounds.
  typeParameters : List Classifier := []
  supertypes : Option (List Ty) := none
  flags : Flags := {}
  callContext : CallContext := .default
deriving Inhabited

structure Catalog where
  -- For each key its descriptions, by revision.
  entries : List (String × List Entry) := []
deriving Inhabited

namespace Catalog

def revisions (K : Catalog) (key : String) : List Entry :=
  (K.entries.lookup key).getD []

/-- The description of `c`. A revision that the catalog does not have reads as the first one, and
a key that it does not have as a plain class. -/
def entry (K : Catalog) (c : Classifier) : Entry :=
  let revisions := K.revisions c.key
  ((revisions[c.revision]?).or revisions.head?).getD {}

def record (key : String) (revisions : List Entry) :
    List (String × List Entry) → List (String × List Entry)
  | [] => [(key, revisions)]
  | (k, es) :: rest =>
    if k = key then (k, revisions) :: rest else (k, es) :: record key revisions rest

def describe (K : Catalog) (key : String) (entry : Entry) : Classifier × Catalog :=
  let revisions := K.revisions key
  (⟨key, revisions.length⟩, ⟨record key (revisions ++ [entry]) K.entries⟩)

def supplySupertypes (K : Catalog) (c : Classifier) (supertypes : List Ty) : Bool × Catalog :=
  let revisions := K.revisions c.key
  match revisions[c.revision]? with
  | none => (false, K)
  | some e =>
    if e.supertypes.isSome then (false, K)
    else
      let e := { e with supertypes := some supertypes }
      (true, ⟨record c.key (revisions.set c.revision e) K.entries⟩)

def Coherent (K : Catalog) : Prop :=
  -- Descriptions that agree for all revisions of a key: the declarations of the program have not
  -- changed while it was read.
  ∀ c d : Classifier, c.key = d.key → K.entry c = K.entry d

def typeParameters (K : Catalog) (c : Classifier) : List Classifier :=
  (K.entry c).typeParameters

def flags (K : Catalog) (c : Classifier) : Flags :=
  (K.entry c).flags

def callContext (K : Catalog) (c : Classifier) : CallContext :=
  (K.entry c).callContext

def declaredSupertypes (K : Catalog) (c : Classifier) : List Ty :=
  (K.entry c).supertypes.getD []

def isTypeParameter (K : Catalog) (c : Classifier) : Bool :=
  (K.flags c).typeParameter

def flagsOf (K : Catalog) (t : Ty) : Flags :=
  match t.head with
  | .star => {}
  | .named c => K.flags c

def isParameter (K : Catalog) (t : Ty) : Bool :=
  (K.flagsOf t).typeParameter

def apply (K : Catalog) (c : Classifier) (arguments : List Ty) : Except ModelError Ty :=
  let expected := (K.typeParameters c).length
  if expected = arguments.length then .ok { head := .named c, arguments }
  else .error (.argumentCount c.key expected arguments.length)

def parametersIn (K : Catalog) (t : Ty) : List Classifier :=
  (t.classifiers.filter K.isTypeParameter).eraseDups

def functionParameters (K : Catalog) (t : Ty) : List Ty :=
  if (K.flagsOf t).function then t.arguments.dropLast else []

def functionReturn? (K : Catalog) (t : Ty) : Option Ty :=
  if (K.flagsOf t).function then t.arguments.getLast? else none

def argumentsOf (K : Catalog) (t : Ty) : Substitution :=
  match t.head with
  | .star => .empty
  | .named c => .ofArguments (K.typeParameters c) t.arguments

end Catalog
end Wiring
