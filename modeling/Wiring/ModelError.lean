namespace Wiring

inductive ModelError where
  -- A classifier applied to the wrong number of arguments.
  | argumentCount (classifier : String) (expected found : Nat)
  | notATypeParameter (classifier : String)
  | unknownScope (scope : Nat)
  -- A declaration whose spread position lies behind its last type parameter.
  | spreadOutOfRange (declaration : String) (index count : Nat)
deriving DecidableEq, Repr

namespace ModelError

def message : ModelError → String
  | argumentCount classifier expected found =>
    "`" ++ classifier ++ "` expects " ++ toString expected ++ " type arguments, found "
      ++ toString found
  | notATypeParameter classifier => "`" ++ classifier ++ "` is not a type parameter"
  | unknownScope scope => "unknown scope #" ++ toString scope
  | spreadOutOfRange declaration index count =>
    "declaration `" ++ declaration ++ "` names spread parameter " ++ toString index
      ++ " but has " ++ toString count ++ " type parameters"

end ModelError
end Wiring
