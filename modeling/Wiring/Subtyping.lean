import Wiring.Supertypes

/-!
Subtyping: whether a type can be used where another one is expected.

- A star fits everywhere, and everything fits a star.
- A nullable type is no subtype of one that is not.
- Each tag of the expected type is needed, by a subtype of it; other tags do no harm.
- Everything with the needed tags is a subtype of the top type.
- Otherwise the type is viewed by the expected classifier, and the arguments have to be subtypes of
  each other in both directions.

All of this asks for a number of further subtypings, its premises, which are compared one after the
other. Where classifiers inherit from each other in a circle, or a top type has supertypes, that need
not come to an end, so it is bounded by a depth.
-/
namespace Wiring.Catalog

def tagPremises? (a b : Ty) : Option (List (Ty × Ty)) :=
  b.tags.mapM fun needed => (a.tag? needed.classifier).map fun present => (present, needed)

def argumentPremises? (as bs : List Ty) : Option (List (Ty × Ty)) :=
  if as.length == bs.length then
    some ((as.zip bs).flatMap fun (a, b) => [(a, b), (b, a)])
  else none

/-- What `a` being a subtype of `b` comes down to: pairs of a type and a supertype of it. There is
nothing if `a` is no subtype of `b`, whatever the parts are. -/
def premises? (K : Catalog) (a b : Ty) : Option (List (Ty × Ty)) :=
  if a.isStar || b.isStar then some []
  else if a.nullable && !b.nullable then none
  else do
    let tags ← tagPremises? a b
    if (K.flagsOf b).top then pure tags
    else
      let view ← K.view? a b.classifier
      let arguments ← argumentPremises? view.arguments b.arguments
      pure (tags ++ arguments)

def subtypeWithin (K : Catalog) : (depth : Nat) → Ty → Ty → Option Bool
  -- Whether `a` is a subtype of `b`, unless that takes more than `depth` levels of premises to say.
  | 0, _, _ => none
  | depth + 1, a, b =>
    match K.premises? a b with
    | some premises => premises.allM fun (x, y) => K.subtypeWithin depth x y
    | none => some false

/-- How deep a comparison of `a` and `b` may go. Under acyclic inheritance each level goes down into
the arguments or the tags of `b`, so the sizes bound the levels, as long as a top type has no
supertypes itself. One that has some is expanded where no other type is, and then the levels are not
bounded by the sizes: for these there are more levels than any program comes near. -/
def subtypeDepth (K : Catalog) (a b : Ty) : Nat :=
  (a.size + b.size) * (K.weight + 1) + (1 <<< 24)

def isSubtype (K : Catalog) (a b : Ty) : Bool :=
  (K.subtypeWithin (K.subtypeDepth a b) a b).getD false

end Wiring.Catalog
