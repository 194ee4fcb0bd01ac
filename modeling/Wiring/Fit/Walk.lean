import Wiring.Fit.Misfit
import Wiring.Fit.UnionFind
import Wiring.Supertypes

/-!
A parameter is bound where it meets a type, and compared with its value where it meets a second
one, so the walk may go on inside of values; it is bounded by a depth. Instance keys play no part.
-/
namespace Wiring

inductive Variance where
  -- The candidate has to be assignable to the request.
  | covariant
  -- Both have to be the same type, as in the position of an argument.
  | invariant
deriving DecidableEq, Repr

namespace Fit

inductive Stop where
  | misfit (reason : Misfit)
  | tooDeep

abbrev Result (U : UnionFind) := Except Stop U.Table

variable {U : UnionFind}

def clash (reason : Misfit) : Result U :=
  .error (.misfit reason)

abbrev Compare (U : UnionFind) := Variance → (candidate requested : Ty) → U.Table → Result U

variable (K : Catalog) (vars : List Classifier)

def asVariable? (t : Ty) : Option Classifier :=
  if K.isParameter t then vars.find? (· == t.classifier) else none

def variablesIn (t : Ty) : List Classifier :=
  (K.parametersIn t).filterMap fun p => vars.find? (· == p)

/-- Whether the class of `v` occurs in `t`, or in the values of what occurs in it. Values do not run
in a circle, so no chain of them is longer than there are variables. -/
def occursWithin (b : U.Table) (v : Classifier) : (depth : Nat) → Ty → Bool
  | 0, _ => true
  | depth + 1, t =>
    (variablesIn K vars t).any fun w =>
      U.joined b w v ||
        match U.value? b w with
        | some inner => occursWithin b v depth inner
        | none => false

def occurs (b : U.Table) (v : Classifier) (t : Ty) : Bool :=
  occursWithin K vars b v (vars.length + 1) t

def unifyVariables (compare : Compare U) (v w : Classifier) (b : U.Table) : Result U :=
  -- Make two variables equal. If both have values, the values have to be the same type, and the
  -- classes stay apart.
  if U.joined b v w then .ok b
  else
    match U.value? b v, U.value? b w with
    -- the values may bind further variables, but the two classes need not become one
    | some x, some y => compare .invariant x y b
    | some x, none =>
      if occurs K vars b w x then clash (.recursiveBinding w x) else .ok (U.join b v w)
    | none, some y =>
      if occurs K vars b v y then clash (.recursiveBinding v y) else .ok (U.join b v w)
    | none, none => .ok (U.join b v w)

def bindVariable (compare : Compare U) (v : Classifier) (value : Ty) (b : U.Table) : Result U :=
  -- a variable with tags or with null is a type of its own and is not equal to the variable
  let bare := value.tags.isEmpty && !value.nullable
  match if bare then asVariable? K vars value else none with
  | some w => unifyVariables K vars compare v w b
  | none =>
    if occurs K vars b v value then clash (.recursiveBinding v value)
    else
      match U.value? b v with
      | some existing => compare .invariant existing value b
      | none => .ok (U.assign b v value)

def unifyRequestedTags (compare : Compare U) (c r : Ty) (b : U.Table) : Result U :=
  r.tags.foldlM (fun b tag =>
    match c.tag? tag.classifier with
    | some present => compare .invariant present tag b
    | none => clash (.missingTag tag.classifier r)) b

def unifyCandidateTags (compare : Compare U) (c r : Ty) (b : U.Table) : Result U :=
  c.tags.foldlM (fun b tag =>
    match r.tag? tag.classifier with
    | some wanted => compare .invariant tag wanted b
    | none => clash (.missingTag tag.classifier r)) b

/-- A variable `v` on the requested side stands for the candidate without the tags that the request
names besides the variable, and without the null that the request adds. -/
def bindRequested (compare : Compare U) (variance : Variance) (v : Classifier) (c r : Ty)
    (b : U.Table) : Result U := do
  -- tags come first: what they bind is known when the variable itself is bound
  let b ← unifyRequestedTags compare c r b
  let value := (c.withoutTags (r.tags.map Ty.classifier)).withoutInstanceKey
  if r.nullable then
    if variance = .invariant ∧ c.nullable = false then clash (.nullability c r)
    else bindVariable K vars compare v (value.withNullability false) b
  else bindVariable K vars compare v value b

/-- A variable `v` on the candidate side stands for the request without the tags that the candidate
has besides the variable, and without the null that the candidate adds. -/
def bindCandidate (compare : Compare U) (v : Classifier) (c r : Ty) (b : U.Table) : Result U := do
  if c.nullable && !r.nullable then clash (.nullability c r)
  else
    let b ← unifyCandidateTags compare c r b
    let value := (r.withoutTags (c.tags.map Ty.classifier)).withoutInstanceKey
    bindVariable K vars compare v (if c.nullable then value.withNullability false else value) b

def nullabilityFits (variance : Variance) (c r : Ty) : Bool :=
  match variance with
  | .covariant => !c.nullable || r.nullable
  | .invariant => c.nullable == r.nullable

def viewFor? (variance : Variance) (c r : Ty) : Option Ty :=
  match variance with
  | .covariant => K.view? c r.classifier
  | .invariant => if c.classifier == r.classifier then some c else none

def unifyConcrete (compare : Compare U) (variance : Variance) (c r : Ty) (b : U.Table) :
    Result U := do
  -- Two types neither of which is a variable. A tag of the candidate that is not requested is a
  -- misfit, except below the top type.
  if !nullabilityFits variance c r then clash (.nullability c r)
  else
    let b ← unifyRequestedTags compare c r b
    -- everything is below the top type, whatever else it is tagged with
    if variance = .covariant ∧ (K.flagsOf r).top = true then pure b
    else
      match c.tags.find? fun tag => (r.tag? tag.classifier).isNone with
      | some extra => clash (.missingTag extra.classifier r)
      | none =>
        match viewFor? K variance c r with
        | none => clash (.classifier c r)
        | some view =>
          if view.arguments.length = r.arguments.length then
            (view.arguments.zip r.arguments).foldlM (fun b (x, y) => compare .invariant x y b) b
          else clash (.classifier c r)

def step (compare : Compare U) : Compare U := fun variance c r b =>
  if c.isStar || r.isStar then .ok b
  else
    match asVariable? K vars c, asVariable? K vars r with
    | some v, some w =>
      -- two variables become equal if nothing else tells the types apart
      if c.tags.isEmpty && r.tags.isEmpty && c.nullable == r.nullable then
        unifyVariables K vars compare v w b
      else bindRequested K vars compare variance w c r b
    | none, some w => bindRequested K vars compare variance w c r b
    | some v, none => bindCandidate K vars compare v c r b
    | none, none => unifyConcrete K compare variance c r b

def walk : (depth : Nat) → Compare U
  | 0 => fun _ _ _ _ => .error .tooDeep
  | depth + 1 => step K vars (walk depth)

end Fit
end Wiring
