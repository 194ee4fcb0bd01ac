import Wiring.Producer

namespace Wiring

structure Request where
  ty : Ty
  -- The id of the callable whose parameter this is.
  callable : String
  -- The type arguments of that callable at the time of the request.
  typeArguments : Substitution := .empty
  name : String
  slot : Slot
  -- A slot that is not required falls back to its declared default.
  required : Bool := true
  inlined : Bool := false

namespace Request

def optional (r : Request) : Request :=
  { r with required := false }

def parametersOf (p : Producer) : List Request :=
  -- One request for each parameter of a producer. A parameter that is not declared is a receiver.
  p.parameterTypes.map fun (slot, ty) =>
    let declared := p.declaration.parameters.find? (·.slot == slot)
    { ty
      callable := p.id
      typeArguments := p.typeArguments
      name := (declared.map Parameter.name).getD "<receiver>"
      slot
      required := !(declared.map Parameter.hasDefault).getD false
      inlined := (declared.map Parameter.isInline).getD false }

def text (K : Catalog) (r : Request) : String :=
  r.callable ++ "(" ++ r.name ++ ": " ++ K.text r.ty ++ ")"

end Request
end Wiring
