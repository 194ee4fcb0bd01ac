import Wiring.Catalog

namespace Wiring

def syntheticId (owner suffix : String) : String :=
  owner ++ "#" ++ suffix

inductive Slot where
  -- The instance that a member is called on.
  | receiver
  | value (index : Nat)
deriving DecidableEq, Repr

def Slot.text : Slot → String
  | receiver => "receiver"
  | value index => toString index

structure Parameter where
  name : String
  slot : Slot
  ty : Ty
  -- A parameter with a default may stay without a value.
  hasDefault : Bool := false
  isInline : Bool := false

/-- A declaration is known by its id: two with one id are the same. -/
structure Declaration where
  id : String
  ty : Ty
  parameters : List Parameter := []
  typeParameters : List Classifier := []
  callContext : CallContext := .default
  module : Nat := 0
  -- The import by which the declaration is visible, if it is not visible by itself.
  importPath : Option String := none
  -- In a spreading rule, the place of the type parameter whose upper bound is the pattern that
  -- candidate types are matched with.
  spreadParameter : Option Nat := none

namespace Declaration

def name (d : Declaration) : String :=
  String.ofList (d.id.toList.reverse.takeWhile (· != '.')).reverse

def validate (K : Catalog) (d : Declaration) : Except ModelError Unit :=
  match d.typeParameters.find? fun p => !K.isTypeParameter p with
  | some p => .error (.notATypeParameter p.key)
  | none =>
    match d.spreadParameter with
    | some index =>
      if index < d.typeParameters.length then .ok ()
      else .error (.spreadOutOfRange d.id index d.typeParameters.length)
    | none => .ok ()

def isValid (K : Catalog) (d : Declaration) : Bool :=
  (d.validate K).isOk

def spreadConstraint? (K : Catalog) (d : Declaration) : Option (Classifier × Ty) := do
  let index ← d.spreadParameter
  let parameter ← d.typeParameters[index]?
  let bound ← (K.declaredSupertypes parameter).head?
  pure (parameter, bound)

end Declaration
end Wiring
