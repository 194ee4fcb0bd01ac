import Wiring.Declaration
import Wiring.Catalog.Text

namespace Wiring

structure Producer where
  declaration : Declaration
  ty : Ty
  parameterTypes : List (Slot × Ty)
  -- What the type parameters of the declaration stand for, as far as that is settled.
  typeArguments : Substitution := .empty
  -- How many steps (lifting, membership, spreading) lead from a visible declaration here.
  chainLength : Nat := 0
  -- The declaration gives a function, and the producer the result of that function.
  lifted : Bool := false

namespace Producer

def ofDeclaration (d : Declaration) : Producer where
  declaration := d
  ty := d.ty
  parameterTypes := d.parameters.map fun p => (p.slot, p.ty)

def id (p : Producer) : String :=
  p.declaration.id

def parameterType? (p : Producer) (slot : Slot) : Option Ty :=
  p.parameterTypes.lookup slot

def unbound (p : Producer) : List Classifier :=
  p.declaration.typeParameters.filter fun c => !p.typeArguments.contains c

def substitute (p : Producer) (m : Substitution) : Producer :=
  if m.isEmpty then p
  else
    { p with
      ty := p.ty.substitute m
      parameterTypes := p.parameterTypes.map fun (slot, t) => (slot, t.substitute m)
      typeArguments := (p.typeArguments.compose m).restrict p.declaration.typeParameters }

def withType (p : Producer) (ty : Ty) : Producer :=
  { p with ty }

def derived (p : Producer) : Producer :=
  { p with chainLength := p.chainLength + 1 }

def derivedFrom (p parent : Producer) : Producer :=
  { p with chainLength := parent.chainLength + 1 }

def lift (p : Producer) (result : Ty) : Producer :=
  { p with ty := result, chainLength := p.chainLength + 1, lifted := true }

def withReceiver (p : Producer) (receiver : Ty) : Producer :=
  { p with
    parameterTypes :=
      (.receiver, receiver) :: p.parameterTypes.filter fun (slot, _) => slot != .receiver }

def text (K : Catalog) (p : Producer) : String :=
  p.id ++ ": " ++ K.text p.ty

end Producer
end Wiring
