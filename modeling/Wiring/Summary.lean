import Wiring.Session
import Wiring.Text.Quoted

namespace Wiring

def Classifier.summary (c : Classifier) : String :=
  "Classifier(" ++ c.key ++ ")"

def Substitution.summary (K : Catalog) (m : Substitution) : String :=
  let entries := m.bindings.map fun (c, t) => Text.quote c.key ++ ": " ++ K.text t
  "\x7b" ++ ", ".intercalate entries ++ "\x7d"

def ScopeId.summary (id : ScopeId) : String :=
  "ScopeId(" ++ toString id ++ ")"

def Scope.summary (id : ScopeId) (s : Scope) : String :=
  let parent := match s.parent with
    | some parent => "Some(" ++ ScopeId.summary parent ++ ")"
    | none => "None"
  "Scope \x7b id: " ++ ScopeId.summary id ++ ", name: " ++ Text.quote s.name
    ++ ", parent: " ++ parent
    ++ ", injectables: " ++ toString s.injectables.length
    ++ ", spreading: " ++ toString s.spreading.length ++ " \x7d"

end Wiring
