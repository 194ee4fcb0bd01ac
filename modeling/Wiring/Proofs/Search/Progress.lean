import Wiring.Proofs.Search.Steps
import Wiring.Proofs.Session.Memory

/-!
How a search goes on. Unlike `Obeys`, `Explores` sees the divergences, on which it depends whether a
result is remembered.
-/
namespace Wiring.Search

open Session

variable {E : Environment} {I : Session → Prop} {s s' s'' : Search} {α β : Type}

structure Onward (I : Session → Prop) (s s' : Search) : Prop where
  -- The search has got from `s` to `s'`.
  divergences : s.divergences ≤ s'.divergences
  keeps : s.session.Keeps s'.session
  holds : I s'.session

/-- If the step gives something, the search goes on with the invariant, and what it gives satisfies
`Q`. -/
def Explores (I : Session → Prop) (s : Search) (step : SearchM α) (Q : α → Search → Prop) : Prop :=
  ∀ a s', step s = .ok (a, s') → Onward I s s' ∧ Q a s'

theorem Onward.refl (h : I s.session) : Onward I s s :=
  ⟨Nat.le_refl _, Keeps.refl _, h⟩

theorem Onward.trans (h : Onward I s s') (h' : Onward I s' s'') : Onward I s s'' :=
  ⟨Nat.le_trans h.divergences h'.divergences, h.keeps.trans h'.keeps, h'.holds⟩

namespace Explores

variable {step : SearchM α} {f : α → SearchM β} {Q Q' : α → Search → Prop} {R : β → Search → Prop}

theorem pure {a : α} (hI : I s.session) (h : Q a s) : Explores I s (Pure.pure a) Q := by
  rintro _ _ ⟨⟩
  exact ⟨.refl hI, h⟩

theorem stop {stop : Stop} : Explores I s (throw stop : SearchM α) Q :=
  fun _ _ h => (nomatch h)

theorem get {f : Search → SearchM β} (h : Explores I s (f s) R) :
    Explores I s (MonadState.get >>= f) R :=
  h

theorem bind (h : Explores I s step Q)
    (hf : ∀ a s', Onward I s s' → Q a s' → Explores I s' (f a) R) :
    Explores I s (step >>= f) R := by
  intro b s'' hb
  obtain ⟨⟨a, s'⟩, ha, hb⟩ := bind_eq_ok_iff.1 hb
  obtain ⟨h₁, hQ⟩ := h a s' ha
  obtain ⟨h₂, hR⟩ := hf a s' h₁ hQ b s'' hb
  exact ⟨h₁.trans h₂, hR⟩

theorem imp (h : Explores I s step Q) (hQ : ∀ a s', Onward I s s' → Q a s' → Q' a s') :
    Explores I s step Q' := by
  intro a s' ha
  obtain ⟨h₁, hq⟩ := h a s' ha
  exact ⟨h₁, hQ a s' h₁ hq⟩

theorem map {g : α → β} (h : Explores I s step fun a s' => R (g a) s') :
    Explores I s (g <$> step) R := by
  intro b s' hb
  obtain ⟨⟨a, s''⟩, ha, hb⟩ := bind_eq_ok_iff.1 hb
  cases hb
  exact h a _ ha

/-- What a step leads to and what it explores hold together. -/
theorem sound {V : Vocabulary} {P : α → Session → Prop} (hl : Leads V E s step P)
    (h : Explores I s step Q) :
    Explores I s step fun a s' => Sound V E s'.session ∧ P a s'.session ∧ Q a s' := by
  intro a s' ha
  obtain ⟨_, hs', hP⟩ := hl a s' ha
  obtain ⟨h₁, hQ⟩ := h a s' ha
  exact ⟨h₁, hs', hP, hQ⟩

/-- A lookup sees no divergence. -/
theorem lift {look : SessionM α} {P : α → Session → Prop}
    (h : Session.Obeys s.session.Keeps s.session look P) (hI : I (look.run s.session).2) :
    Explores I s (Search.lift look) fun a s' => P a s'.session := by
  rintro _ _ ⟨⟩
  exact ⟨⟨Nat.le_refl _, h.keeps, hI⟩, h.result⟩

/-- A lookup that keeps the invariant, and all lookups before it. -/
theorem obeys {look : SessionM α} {P : α → Session → Prop}
    (h : Session.Obeys I s.session look P) (hk : s.session.Keeps (look.run s.session).2) :
    Explores I s (Search.lift look) fun a s' => P a s'.session :=
  lift (P := P) ⟨h.grows, hk, h.result⟩ h.keeps

theorem count (hI : I s.session) : Explores I s
    (modify fun search => { search with divergences := search.divergences + 1 }) fun _ s' =>
      s' = { s with divergences := s.divergences + 1 } := by
  rintro _ _ ⟨⟩
  exact ⟨⟨Nat.le_succ _, Keeps.refl _, hI⟩, rfl⟩

/-- What has been computed is remembered if no divergence was seen, and then it has to be right. -/
theorem unlessDiverged {remember : α → Memo → Memo} (h : Explores I s step Q)
    (hresults : ∀ a (S : Session), ∃ r,
      ({ S with memo := remember a S.memo } : Session) = S.withResults r)
    (hI : ∀ a s', step s = .ok (a, s') → Onward I s s' → Q a s' →
      s'.divergences ≤ s.divergences →
        I { s'.session with memo := remember a s'.session.memo })
    (hQ : ∀ a s' r, step s = .ok (a, s') → Onward I s s' → Q a s' →
      Q a { s' with session := s'.session.withResults r }) :
    Explores I s (Search.unlessDiverged step remember) Q := by
  have hstep : Explores I s step fun a s' => step s = .ok (a, s') ∧ Q a s' :=
    fun a s' ha => ⟨(h a s' ha).1, ha, (h a s' ha).2⟩
  unfold Search.unlessDiverged
  apply get
  apply bind hstep
  rintro a s' h₁ ⟨hrun, ha⟩
  apply get
  -- no divergence was seen on the way: the result is remembered
  split
  · next heq =>
    have hnew := hI a s' hrun h₁ ha (Nat.le_of_eq heq)
    rintro _ _ ⟨⟩
    obtain ⟨r, hr⟩ := hresults a s'.session
    dsimp only
    rw [hr] at hnew ⊢
    exact ⟨⟨Nat.le_refl _, keeps_withResults _ r, hnew⟩, hQ a s' r hrun h₁ ha⟩
  · exact pure h₁.holds ha

end Explores

end Wiring.Search
