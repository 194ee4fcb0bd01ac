import Wiring.Proofs.Session.Growth
import Wiring.Search
import Wiring.Session.Expansion
import Wiring.Session.Framework

namespace Wiring

variable {I : Session → Prop} {α β : Type}

namespace Session

variable {S : Session}

/-- From `S` the step leads to a later session with the invariant `I`, and what it gives satisfies
`Q`. -/
structure Obeys (I : Session → Prop) (S : Session) (step : SessionM α)
    (Q : α → Session → Prop) : Prop where
  grows : S.Extends (step.run S).2
  keeps : I (step.run S).2
  result : Q (step.run S).1 (step.run S).2

namespace Obeys

variable {step : SessionM α} {f : α → SessionM β} {Q : α → Session → Prop}
  {R : β → Session → Prop}

theorem pure {a : α} (hS : I S) (h : Q a S) : Obeys I S (Pure.pure a) Q :=
  ⟨Extends.refl S, hS, h⟩

theorem get {f : Session → SessionM β} (h : Obeys I S (f S) R) :
    Obeys I S (MonadState.get >>= f) R :=
  ⟨h.grows, h.keeps, h.result⟩

theorem bind (h : Obeys I S step Q)
    (hf : ∀ a S', S.Extends S' → I S' → Q a S' → Obeys I S' (f a) R) :
    Obeys I S (step >>= f) R := by
  have hnext := hf _ _ h.grows h.keeps h.result
  exact ⟨h.grows.trans hnext.grows, hnext.keeps, hnext.result⟩

theorem map {g : α → β} (h : Obeys I S step fun a S' => R (g a) S') :
    Obeys I S (g <$> step) R :=
  ⟨h.grows, h.keeps, h.result⟩

theorem imp {Q' : α → Session → Prop} (h : Obeys I S step Q)
    (hQ : ∀ a S', S.Extends S' → I S' → Q a S' → Q' a S') : Obeys I S step Q' :=
  ⟨h.grows, h.keeps, hQ _ _ h.grows h.keeps h.result⟩

/-- What each of several steps gives is still so after the rest of them. -/
theorem mapM {f : α → SessionM β} {xs : List α} (hS : I S)
    (hf : ∀ x ∈ xs, ∀ S, I S → Obeys I S (f x) R)
    (hR : ∀ b S S', S.Extends S' → R b S → R b S') :
    Obeys I S (xs.mapM f) fun bs S' => ∀ b ∈ bs, R b S' := by
  induction xs generalizing S with
  | nil => exact pure hS (List.forall_mem_nil _)
  | cons x xs ih =>
    rw [List.mapM_cons]
    apply bind (hf x (List.mem_cons_self ..) S hS)
    intro b S₁ _ hS₁ hb
    apply bind (ih hS₁ fun y hy => hf y (List.mem_cons_of_mem x hy))
    intro bs S₂ h₁₂ hS₂ hbs
    exact pure hS₂ (List.forall_mem_cons.2 ⟨hR b S₁ S₂ h₁₂ hb, hbs⟩)

/-- A position is rejected, which changes nothing, or built. -/
theorem addScope {E : Environment} {position : Position} (hS : I S)
    (h : Obeys I S (Session.build E position) fun _ _ => True) :
    Obeys I S (Session.addScope E position) fun _ _ => True := by
  unfold Session.addScope
  apply get
  split
  · exact pure hS trivial
  · exact map ⟨h.grows, h.keeps, trivial⟩

end Obeys

section Elements

variable {E : Environment}

/-- A lookup of elements keeps what bears with what it remembers. -/
theorem elementsIn_keeps
    (helements : ∀ {S : Session} e, I S →
      I { S with memo := { S.memo with elements := e :: S.memo.elements } })
    (element : Ty) (statics : List Classifier)
    (scopes : List ScopeId) (hS : I S) :
    Obeys I S (elementsIn E element statics scopes) fun _ _ => True := by
  induction scopes generalizing S with
  | nil => exact Obeys.pure hS trivial
  | cons scope enclosing ih =>
    rw [elementsIn]
    apply Obeys.get
    split
    · exact Obeys.pure hS trivial
    · apply Obeys.bind (ih hS)
      intro inherited S₁ _ hS₁ _
      exact ⟨Extends.of_same rfl rfl fun _ _ => id, helements _ hS₁, trivial⟩

/-- What is made for a type is made of its elements at most, so it keeps what a lookup of elements keeps. -/
theorem Obeys.synthesize {scope : ScopeId} {ty : Ty} (hS : I S)
    (helements : ∀ element,
      Obeys I S (elements E scope element (S.scope scope).statics) fun _ _ => True) :
    Obeys I S (synthesize? E scope ty) fun _ _ => True := by
  unfold synthesize?
  dsimp only
  split
  · exact pure hS trivial
  · split
    · next argument _ =>
      split
      · apply get
        exact bind (helements argument) fun _ _ _ hS' _ => pure hS' trivial
      · split
        · exact pure hS trivial
        · exact pure hS trivial
    · exact pure hS trivial

end Elements

end Session

namespace Search

open Session

variable {s : Search}

/-- If the step gives something, it leads to a later session with the invariant `I`, and what it
gives satisfies `Q`. -/
def Obeys (I : Session → Prop) (s : Search) (step : SearchM α) (Q : α → Session → Prop) : Prop :=
  ∀ a s', step s = .ok (a, s') → s.session.Extends s'.session ∧ I s'.session ∧ Q a s'.session

namespace Obeys

variable {step : SearchM α} {f : α → SearchM β} {Q : α → Session → Prop} {R : β → Session → Prop}

theorem pure {a : α} (hs : I s.session) (h : Q a s.session) : Obeys I s (Pure.pure a) Q := by
  rintro _ _ ⟨⟩
  exact ⟨Extends.refl _, hs, h⟩

theorem stop {stop : Stop} : Obeys I s (throw stop : SearchM α) Q :=
  fun _ _ h => (nomatch h)

theorem get {f : Search → SearchM β} (h : Obeys I s (f s) R) :
    Obeys I s (MonadState.get >>= f) R :=
  h

theorem bind (h : Obeys I s step Q)
    (hf : ∀ a s', s.session.Extends s'.session → I s'.session → Q a s'.session →
      Obeys I s' (f a) R) : Obeys I s (step >>= f) R := by
  intro b s'' hb
  obtain ⟨⟨a, s'⟩, ha, hb⟩ := bind_eq_ok_iff.1 hb
  obtain ⟨hgrows, hs', hQ⟩ := h a s' ha
  obtain ⟨hgrows', hs'', hR⟩ := hf a s' hgrows hs' hQ b s'' hb
  exact ⟨hgrows.trans hgrows', hs'', hR⟩

theorem map {g : α → β} (h : Obeys I s step fun a S' => R (g a) S') :
    Obeys I s (g <$> step) R := by
  intro b s' hb
  obtain ⟨⟨a, s''⟩, ha, hb⟩ := bind_eq_ok_iff.1 hb
  cases hb
  exact h a _ ha

theorem imp {Q' : α → Session → Prop} (h : Obeys I s step Q)
    (hQ : ∀ a S', s.session.Extends S' → I S' → Q a S' → Q' a S') : Obeys I s step Q' := by
  intro a s' ha
  obtain ⟨hgrows, hs', hq⟩ := h a s' ha
  exact ⟨hgrows, hs', hQ a s'.session hgrows hs' hq⟩

theorem lift {step : SessionM α} (h : Session.Obeys I s.session step Q) :
    Obeys I s (Search.lift step) Q := by
  rintro _ _ ⟨⟩
  exact ⟨h.grows, h.keeps, h.result⟩

/-- Counting a divergence leaves the session as it is. -/
theorem count (hs : I s.session) {f : Search → Search} (hf : (f s).session = s.session) :
    Obeys I s (modify f) fun _ S' => S' = s.session := by
  rintro _ _ ⟨⟩
  rw [hf]
  exact ⟨Extends.refl _, hs, rfl⟩

/-- What has been computed may be remembered if that keeps the invariant. -/
theorem unlessDiverged {remember : α → Memo → Memo} (h : Obeys I s step Q)
    (hr : ∀ a S, I S → Q a S → S.Extends { S with memo := remember a S.memo } ∧
      I { S with memo := remember a S.memo } ∧ Q a { S with memo := remember a S.memo }) :
    Obeys I s (Search.unlessDiverged step remember) Q := by
  unfold Search.unlessDiverged
  apply get
  apply bind h
  intro a s' _ hs' ha
  apply get
  split
  · obtain ⟨hgrows, hkeeps, hnew⟩ := hr a s'.session hs' ha
    have hlift : Obeys I s' (Search.lift (Session.remember (remember a))) fun _ S' => Q a S' := by
      rintro _ _ ⟨⟩
      exact ⟨hgrows, hkeeps, hnew⟩
    exact bind hlift fun _ _ _ hs'' hq => pure hs'' hq
  · exact pure hs' ha

end Obeys
end Search
end Wiring
