namespace Wiring

/-- A declaration may be described more than once, by descriptions read at different times. Each
has a `revision`, which leads to the data of that description and never takes part in a
comparison: two classifiers are the same declaration when their keys agree. -/
structure Classifier where
  key : String
  revision : Nat := 0
deriving Repr, Inhabited

namespace Classifier

instance : BEq Classifier := ⟨fun a b => a.key == b.key⟩

theorem beq_iff_key_eq {a b : Classifier} : (a == b) = true ↔ a.key = b.key :=
  beq_iff_eq (α := String)

theorem beq_congr {a b c d : Classifier} (h : a.key = b.key) (h' : c.key = d.key) :
    (a == c) = (b == d) := by
  rw [Bool.eq_iff_iff, beq_iff_key_eq, beq_iff_key_eq, h, h']

instance : EquivBEq Classifier where
  rfl := beq_iff_key_eq.2 rfl
  symm h := beq_iff_key_eq.2 (beq_iff_key_eq.1 h).symm
  trans h k := beq_iff_key_eq.2 ((beq_iff_key_eq.1 h).trans (beq_iff_key_eq.1 k))

end Classifier
end Wiring
