import Wiring.Ty

/-!
Union-find, in which a fit records which type parameters it has found equal and what they stand for:
the operations of such a table, and all that is known of them.
-/
namespace Wiring

/-- Equal parameters have one representative, and they have one value or none. Parameters with one key
are one parameter. -/
structure UnionFind where
  Table : Type
  start : Table
  representative : Table → Classifier → Classifier
  value? : Table → Classifier → Option Ty
  -- Give a parameter and all that are equal to it a value.
  assign : Table → Classifier → Ty → Table
  -- Make two parameters equal of which one has no value.
  join : Table → Classifier → Classifier → Table
  representative_start : ∀ v, representative start v = v
  value_start : ∀ v, value? start v = none
  key_representative : ∀ b {v w}, v.key = w.key →
    (representative b v).key = (representative b w).key
  idempotent : ∀ b v, (representative b (representative b v)).key = (representative b v).key
  value_eq : ∀ {b v w}, (representative b v).key = (representative b w).key →
    value? b v = value? b w
  representative_assign : ∀ b v t c, representative (assign b v t) c = representative b c
  value_assign : ∀ {b v t c}, value? (assign b v t) c =
    if representative b c == representative b v then some t else value? b c
  -- Which one of the two stays a representative is left open.
  representative_join : ∀ b v w, ∃ x y, (x = v ∧ y = w ∨ x = w ∧ y = v) ∧
    ∀ c, representative (join b v w) c =
      if representative b c == representative b x then representative b y else representative b c
  value_join : ∀ {b v w}, value? b v = none ∨ value? b w = none → ∀ c, value? (join b v w) c =
    if representative b c == representative b v || representative b c == representative b w then
      (value? b v).or (value? b w)
    else value? b c
  -- Tables that have come about alike, with values that are related. What becomes of them is up to
  -- the keys of parameters only.
  Alike : (Ty → Ty → Prop) → Table → Table → Prop
  alike_start : ∀ {R}, Alike R start start
  alike_representative : ∀ {R b b' v v'}, Alike R b b' → v.key = v'.key →
    (representative b v).key = (representative b' v').key
  alike_value : ∀ {R b b' v v'}, Alike R b b' → v.key = v'.key →
    Option.Rel R (value? b v) (value? b' v')
  alike_assign : ∀ {R b b' v v' t t'}, Alike R b b' → v.key = v'.key → R t t' →
    Alike R (assign b v t) (assign b' v' t')
  alike_join : ∀ {R b b' v v' w w'}, Alike R b b' → v.key = v'.key → w.key = w'.key →
    Alike R (join b v w) (join b' v' w')

namespace UnionFind

variable (U : UnionFind)

def joined (b : U.Table) (v w : Classifier) : Bool :=
  U.representative b v == U.representative b w

theorem value_assign_self (b : U.Table) (v : Classifier) (t : Ty) :
    U.value? (U.assign b v t) v = some t := by
  rw [U.value_assign, if_pos BEq.rfl]

end UnionFind
end Wiring
