namespace Wiring

inductive CallContext where
  | default
  | composable
  | suspend
deriving DecidableEq, Repr, Inhabited

namespace CallContext

def canCall (caller callee : CallContext) : Bool :=
  callee == default || caller == callee

def text : CallContext → String
  | default => "default"
  | composable => "composable"
  | suspend => "suspend"

end CallContext
end Wiring
