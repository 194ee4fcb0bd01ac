import Wiring.Catalog

namespace Wiring.Catalog

/-- The direct supertypes of `t`: those declared for its classifier, with its arguments in the place
of the parameters. They take over its tags and its nullability. -/
def supertypes (K : Catalog) (t : Ty) : List Ty :=
  match t.head with
  | .star => []
  | .named c =>
    let arguments := K.argumentsOf t
    (K.declaredSupertypes c).map fun s => (s.substitute arguments).above t

def weight (K : Catalog) : Nat :=
  Ty.totalSize (K.entries.flatMap fun (_, revisions) =>
    revisions.flatMap fun e => e.supertypes.getD [])

def unvisited (visited : List Classifier) : List Ty → List Ty
  | [] => []
  | t :: ts =>
    if visited.contains t.classifier then unvisited visited ts
    else t :: unvisited (t.classifier :: visited) ts

def searchAbove (K : Catalog) (goal : Classifier) :
    (fuel : Nat) → (visited : List Classifier) → (level : List Ty) → Option (Ty × Nat)
  -- Search above the types of `level`, one level after the other, for a type with classifier
  -- `goal`; the number counts the levels.
  | 0, _, _ => none
  | fuel + 1, visited, level =>
    let above := level.flatMap K.supertypes
    -- of several paths on one level the first declared one counts
    match above.find? (·.classifier == goal) with
    | some found => some (found, 1)
    | none =>
      let next := unvisited visited above
      if next.isEmpty then none
      else
        (K.searchAbove goal fuel (next.map Ty.classifier ++ visited) next).map fun (found, n) =>
          (found, n + 1)

/-- The nearest supertype of `t` with classifier `goal`, and how many steps it is away. A level has
something above it only if one of its classifiers is in the catalog, and no level has a classifier of
another one, so there are hardly more levels than entries. -/
def nearest? (K : Catalog) (t : Ty) (goal : Classifier) : Option (Ty × Nat) :=
  if t.classifier == goal then some (t, 0)
  else K.searchAbove goal (K.entries.length + 2) [t.classifier] [t]

def view? (K : Catalog) (t : Ty) (goal : Classifier) : Option Ty :=
  (K.nearest? t goal).map (·.1)

def distance? (K : Catalog) (t : Ty) (goal : Classifier) : Option Nat :=
  (K.nearest? t goal).map (·.2)

def isCollection (K : Catalog) (t : Ty) : Bool :=
  (K.flagsOf t).collection && t.arguments.length == 1

def searchCollection (K : Catalog) :
    (fuel : Nat) → (visited : List Classifier) → (pending : List Ty) → Option Ty
  -- Search the types of `pending`, and above each of them, for a collection. What is above a type
  -- comes before the rest of `pending`, the last supertype first.
  | 0, _, _ => none
  | _, _, [] => none
  | fuel + 1, visited, t :: pending =>
    if K.isCollection t then some t
    else if visited.contains t.classifier then K.searchCollection fuel visited pending
    else
      K.searchCollection fuel (t.classifier :: visited) ((K.supertypes t).reverse ++ pending)

def collectionView? (K : Catalog) (t : Ty) : Option Ty :=
  -- `t` as a collection, by itself or through its supertypes. Every declared supertype is looked at
  -- once at most.
  if K.isCollection t then some t
  else K.searchCollection (K.weight + 1) [t.classifier] (K.supertypes t).reverse

end Wiring.Catalog
