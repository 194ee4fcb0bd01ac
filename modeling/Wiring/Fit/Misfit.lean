import Wiring.Catalog.Text

namespace Wiring

inductive Misfit where
  -- The candidate has no view by the classifier of the request, or their arguments differ in
  -- number.
  | classifier (candidate requested : Ty)
  | nullability (candidate requested : Ty)
  -- A tag that one side has and the other one lacks.
  | missingTag (tag : Classifier) (requested : Ty)
  -- A type parameter that would stand for a type in which it occurs.
  | recursiveBinding (parameter : Classifier) (value : Ty)
  -- A type parameter that would stand for a type outside its upper bound.
  | bound (parameter : Classifier) (argument upper : Ty)

namespace Misfit

def message (K : Catalog) : Misfit → String
  | classifier candidate requested =>
    "`" ++ K.text candidate ++ "` is not assignable to `" ++ K.text requested ++ "`"
  | nullability candidate requested =>
    "nullability of `" ++ K.text candidate ++ "` does not fit `" ++ K.text requested ++ "`"
  | missingTag tag requested =>
    "tag `@" ++ tag.key ++ "` of `" ++ K.text requested ++ "` is missing"
  | recursiveBinding parameter value =>
    "`" ++ parameter.key ++ "` occurs in its own binding `" ++ K.text value ++ "`"
  | bound parameter argument upper =>
    "`" ++ parameter.key ++ "` := `" ++ K.text argument ++ "` violates bound `" ++ K.text upper
      ++ "`"

end Misfit
end Wiring
