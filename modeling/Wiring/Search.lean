import Wiring.Session

/-!
The search that fills requests: ranked, depth first, from a request to its candidates and from a
candidate to the requests of its dependencies. A result that was found while a divergence was seen
below it depends on where the search came from, and is not remembered.
-/
namespace Wiring

structure Search where
  -- What a search changes: the session, and the number of divergences it has seen.
  session : Session
  divergences : Nat := 0

/-- Why a search stops without a result: there are too many requests inside of each other, or the sort
makes nothing of how some candidates compare. -/
inductive Stop where
  | tooDeep
  | disorder
deriving DecidableEq, Repr

abbrev SearchM := StateT Search (Except Stop)

theorem bind_eq_ok_iff {ε α β : Type} {x : Except ε α} {f : α → Except ε β} {b : β} :
    x.bind f = .ok b ↔ ∃ a, x = .ok a ∧ f a = .ok b := by
  cases x with
  | error e => exact ⟨fun h => (nomatch h), fun ⟨_, h, _⟩ => (nomatch h)⟩
  | ok a => exact ⟨fun h => ⟨a, rfl, h⟩, fun ⟨_, rfl, h⟩ => h⟩

theorem map_eq_ok_iff {ε α β : Type} {x : Except ε α} {f : α → β} {b : β} :
    x.map f = .ok b ↔ ∃ a, x = .ok a ∧ f a = b := by
  cases x with
  | error e => exact ⟨fun h => (nomatch h), fun ⟨_, h, _⟩ => (nomatch h)⟩
  | ok a =>
    refine ⟨fun h => ⟨a, rfl, Except.ok.inj h⟩, ?_⟩
    rintro ⟨_, ⟨⟩, rfl⟩
    rfl

theorem exists_ok_of_any {ε α : Type} {x : Except ε α} {p : α → Bool}
    (h : x.toOption.any p = true) : ∃ a, x = .ok a ∧ p a = true := by
  cases x with
  | error e => cases h
  | ok a => exact ⟨a, rfl, h⟩

namespace Search

def lift {α : Type} (step : SessionM α) : SearchM α := fun search =>
  let (a, session) := step.run search.session
  .ok (a, { search with session })

def unlessDiverged {α : Type} (compute : SearchM α) (remember : α → Memo → Memo) : SearchM α := do
  let before := (← get).divergences
  let a ← compute
  if (← get).divergences = before then lift (Session.remember (remember a))
  pure a

abbrev Solve :=
  (chain : List InjectableId) → ScopeId → Request → SearchM (Except Failure Resolved)

end Search
end Wiring
