namespace Wiring

structure Config where
  -- The longest derivation chain (lifted results, members, spread outputs) that is collected.
  maxExpansionDepth : Nat := 16
  -- Whether the declarations that come with the classifiers of a request are searched when the
  -- scope itself has nothing usable.
  typeScopes : Bool := true
  -- Whether providers, collections, witnesses and components are synthesized.
  frameworkInjectables : Bool := true
deriving DecidableEq, Repr, Inhabited

namespace Config

inductive Value where
  -- A value in a document. No setting takes one of another kind.
  | integer (n : Int)
  | boolean (b : Bool)
  | other
deriving DecidableEq, Repr

/-- What documents parse to, each name with its value, and what files hold, or in the words of the
system why they cannot be read. -/
structure Source where
  parse : String → Option (List (String × Value))
  read : String → Except String String

inductive LoadError where
  | unreadable (path reason : String)
  | malformed
deriving DecidableEq, Repr

def LoadError.message : LoadError → String
  | unreadable path reason => "failed to read " ++ path ++ ": " ++ reason
  | malformed => "failed to parse resolver config"

def set? (config : Config) : String × Value → Option Config
  | ("max_expansion_depth", .integer (.ofNat n)) => some { config with maxExpansionDepth := n }
  | ("type_scopes", .boolean b) => some { config with typeScopes := b }
  | ("framework_injectables", .boolean b) => some { config with frameworkInjectables := b }
  | _ => none

def ofTable? (table : List (String × Value)) : Option Config :=
  table.foldlM set? {}

def ofText (source : Source) (text : String) : Except LoadError Config :=
  match (source.parse text).bind ofTable? with
  | some config => .ok config
  | none => .error .malformed

def ofFile (source : Source) (path : String) : Except LoadError Config :=
  match source.read path with
  | .ok content => ofText source content
  | .error reason => .error (.unreadable path reason)

end Config
end Wiring
