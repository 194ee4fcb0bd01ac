import Wiring.Catalog

namespace Wiring.Catalog

def coreText (K : Catalog) (c : Classifier) (nullable : Bool) (arguments : List String) : String :=
  if (K.flags c).function then
    let arrow := "(" ++ ", ".intercalate arguments.dropLast ++ ") -> " ++ arguments.getLast?.getD ""
    if nullable then "(" ++ arrow ++ ")" else arrow
  else if arguments.isEmpty then c.key
  else c.key ++ "<" ++ ", ".intercalate arguments ++ ">"

mutual
def text (K : Catalog) : Ty → String
  | ⟨.star, _, _, _, _⟩ => "*"
  | ⟨.named c, arguments, nullable, tags, instanceKey⟩ =>
    String.join ((texts K tags).map fun tag => "@" ++ tag ++ " ")
      ++ coreText K c nullable (texts K arguments)
      ++ (if nullable then "?" else "")
      ++ (match instanceKey with
          | some k => "#" ++ toString k
          | none => "")

def texts (K : Catalog) : List Ty → List String
  | [] => []
  | t :: ts => text K t :: texts K ts
end

theorem texts_eq_map (K : Catalog) (ts : List Ty) : K.texts ts = ts.map K.text := by
  induction ts with
  | nil => rfl
  | cons t ts ih => simp [texts, ih]

end Wiring.Catalog
