import Wiring.Session
import Wiring.Subtyping

/-!
The ranking of candidates. Of two candidates the better one is, by the first of these that tells
them apart:

1. the one that is not from a type scope,
2. the one from the scope that is nested deeper,
3. the one from the current module that needs no import,
4. the one with the more specific type, then with the more specific declared type,
5. the one with fewer dependencies,
6. the one made for the context of the scope that asks, if that is a special one,
7. the one with the shorter chain.

Values whose candidates tie are compared by their dependencies. `lt` means that the first one is
better.
-/
namespace Wiring

def prefer (a b : Bool) : Ordering :=
  match a, b with
  | true, false => .lt
  | false, true => .gt
  | _, _ => .eq

namespace Catalog

def compareHeads (K : Catalog) (a b : Ty) : Ordering :=
  (prefer (!a.isStar) (!b.isStar)).then <|
    (prefer (!a.nullable) (!b.nullable)).then <|
      (prefer (!K.isParameter a) (!K.isParameter b)).then <|
        prefer (K.isSubtype a b) (K.isSubtype b a)

def compareDistances (K : Catalog) (requested a b : Ty) : Ordering :=
  -- Of two types with different classifiers the one that is further below the request is more
  -- specific.
  match K.distance? a requested.classifier, K.distance? b requested.classifier with
  | some m, some n => compare n m
  | _, _ => .eq

mutual
/-- Which of two types is more specific: a type before a star, one that is never null before one
that may be, a proper type before a type parameter, a subtype before its supertype. Otherwise types
with one classifier compare by their arguments, others by how far below the request they are.
Instance keys of the types themselves do not count. -/
def compareTypes (K : Catalog) : (a b requested : Ty) → Ordering
  | ⟨head, as, nullable, tags, _⟩, b, requested =>
    -- keys tell producers apart, not types
    let a : Ty := ⟨head, as, nullable, tags, none⟩
    let b := b.withoutInstanceKey
    if a == b then .eq
    else
      (K.compareHeads a b).then <|
        if a.classifier == b.classifier then
          compareArguments K as b.arguments requested.arguments
        else K.compareDistances requested a b

def compareArguments (K : Catalog) : (as bs requested : List Ty) → Ordering
  -- The first difference among arguments. A request with too few arguments goes on with those of
  -- the first type.
  | a :: as, b :: bs, requested =>
    (compareTypes K a b (requested.head?.getD a)).then
      (compareArguments K as bs requested.tail)
  | _, _, _ => .eq
end

end Catalog

namespace Session

variable (E : Environment) (S : Session)

def isLocal (i : Injectable) : Bool :=
  i.importPath?.isNone &&
    match i.module? with
    | some module => module == E.host.currentModule
    | none => true

def compareCandidates (scope : ScopeId) (requested : Ty) (a b : InjectableId) : Ordering :=
  if a = b then .eq
  else
    let i := S.injectable a
    let j := S.injectable b
    let own := S.scope i.owner
    let other := S.scope j.owner
    let context := (S.scope scope).callContext
    (prefer (!own.isTypeScope) (!other.isTypeScope)).then <|
      (compare other.nesting own.nesting).then <|
        (prefer (isLocal E i) (isLocal E j)).then <|
          (E.catalog.compareTypes i.ty j.ty requested).then <|
            (E.catalog.compareTypes i.declaredType j.declaredType requested).then <|
              (compare (i.dependencyCount E.catalog) (j.dependencyCount E.catalog)).then <|
                (if context = .default then .eq
                  else prefer (i.callContext == context) (j.callContext == context)).then <|
                    compare i.chainLength j.chainLength

def verdict (orders : List Ordering) : Ordering :=
  prefer (orders.contains .lt && !orders.contains .gt) (orders.contains .gt && !orders.contains .lt)

mutual
/-- Which of two values for `requested` is better. If their candidates tie, one is better when it is
better in one dependency at least and worse in none. -/
def compareResolved : (a b : Resolved) → (requested : Ty) → Ordering
  | ⟨candidate, scope, dependencies⟩, b, requested =>
    (S.compareCandidates E scope requested candidate b.candidate).then
      (verdict (compareDependencies dependencies b))

def compareDependencies : List (Request × Option Resolved) → Resolved → List Ordering
  -- How each dependency compares with the one that `b` has in the same slot, if it has one. A value
  -- is better than a default.
  | [], _ => []
  | (request, some v) :: rest, b =>
    match b.dependency? request.slot with
    | some (some w) => compareResolved v w request.ty :: compareDependencies rest b
    | some none => .lt :: compareDependencies rest b
    | none => compareDependencies rest b
  | (request, none) :: rest, b =>
    match b.dependency? request.slot with
    | some (some _) => .gt :: compareDependencies rest b
    | _ => compareDependencies rest b
end

end Session
end Wiring
