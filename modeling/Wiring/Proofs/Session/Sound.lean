import Wiring.Proofs.Session.Coverage
import Wiring.Proofs.Session.Supply

namespace Wiring

structure Vocabulary.CoversScope (V : Vocabulary) (s : Scope) : Prop where
  -- The producers and rules of a scope are covered.
  injectables : ∀ p ∈ s.injectables, V.CoversProducer p
  spreading : ∀ p ∈ s.spreading, V.CoversProducer p

namespace Session

variable {V W : Vocabulary} {E : Environment} {S S' : Session} {scope id : ScopeId}
  {c : InjectableId}

structure Offers (S : Session) (scope : ScopeId) (c : InjectableId) : Prop where
  -- `c` belongs to `scope` or to a scope around it.
  place : scope < S.scopes.size
  candidate : c < S.injectables.size
  owner : (S.injectable c).owner ∈ S.ancestors scope

structure Owns (S : Session) (scope : ScopeId) (c : InjectableId) : Prop where
  -- `c` belongs to `scope`.
  candidate : c < S.injectables.size
  owner : (S.injectable c).owner = scope

structure IsChild (S : Session) (scope id : ScopeId) : Prop where
  -- `id` is a scope inside of `scope`.
  place : id < S.scopes.size
  parent : (S.scope id).parent = some scope

structure IsTypeScope (S : Session) (id : ScopeId) : Prop where
  -- `id` is a type scope, which is inside of no other scope.
  flag : (S.scope id).isTypeScope = true
  enclosing : (S.scope id).enclosing = []

def Remembers (E : Environment) (S : Session) (scope : ScopeId) (result : Except Failure Resolved) :
    Prop :=
  ∀ v, result = .ok v → Legal E S v ∧ v.scope = scope

theorem Offers.mono (h : S.Offers scope c) (hS : S.Extends S') : S'.Offers scope c where
  place := hS.lt_scopes h.place
  candidate := hS.lt_injectables h.candidate
  owner := by
    rw [hS.injectable c h.candidate, hS.ancestors h.place]
    exact h.owner

theorem Owns.mono (h : S.Owns scope c) (hS : S.Extends S') : S'.Owns scope c where
  candidate := hS.lt_injectables h.candidate
  owner := by
    rw [hS.injectable c h.candidate]
    exact h.owner

theorem IsChild.mono (h : S.IsChild scope id) (hS : S.Extends S') : S'.IsChild scope id where
  place := hS.lt_scopes h.place
  parent := by
    rw [hS.scope id h.place]
    exact h.parent

theorem IsTypeScope.mono (h : S.IsTypeScope id) (hS : S.Extends S') : S'.IsTypeScope id := by
  have hs := hS.scope id (lt_of_isTypeScope h.flag)
  exact ⟨by rw [hs]; exact h.flag, by rw [hs]; exact h.enclosing⟩

theorem Remembers.mono {result : Except Failure Resolved} (h : Remembers E S scope result)
    (hS : S.Extends S') : Remembers E S' scope result :=
  fun v hv => ⟨(h v hv).1.mono hS, (h v hv).2⟩

structure Sound (V : Vocabulary) (E : Environment) (S : Session) : Prop where
  -- All that a session holds fits together: scopes are nested, producers and injectables are
  -- covered, and what is remembered is right for where it is remembered.
  nested : ∀ id < S.scopes.size, S.Nested id
  scopes : ∀ id < S.scopes.size, V.CoversScope (S.scope id)
  injectables : ∀ c < S.injectables.size, V.CoversForm (S.injectable c).form
  typeScopes : ∀ e ∈ S.typeScopes, ∀ id, e.2 = some id → S.IsTypeScope id
  candidates : ∀ e ∈ S.memo.candidates, ∀ c ∈ e.2, S.Offers e.1.1 c
  elements : ∀ e ∈ S.memo.elements, V.CoversAll e.2
  framework : ∀ e ∈ S.memo.framework, ∀ c, e.2 = some c → S.Owns e.1.1 c
  children : ∀ e ∈ S.memo.childScopes, S.IsChild e.1.1 e.2
  byType : ∀ e ∈ S.memo.byType, Remembers E S e.1.1 e.2
  byCandidate : ∀ e ∈ S.memo.byCandidate, Remembers E S e.1.1 e.2

structure Change (V : Vocabulary) (E : Environment) (S S' : Session) : Prop where
  -- What may happen to a session: it grows, and what is new in it fits.
  grows : S.Extends S'
  nested : ∀ id < S'.scopes.size, id < S.scopes.size ∨ S'.Nested id := by
    exact fun _ => Or.inl
  scopes : ∀ id < S'.scopes.size, id < S.scopes.size ∨ V.CoversScope (S'.scope id) := by
    exact fun _ => Or.inl
  injectables : ∀ c < S'.injectables.size,
      c < S.injectables.size ∨ V.CoversForm (S'.injectable c).form := by
    exact fun _ => Or.inl
  typeScopes : ∀ e ∈ S'.typeScopes,
      e ∈ S.typeScopes ∨ ∀ id, e.2 = some id → S'.IsTypeScope id := by
    exact fun _ => Or.inl
  candidates : ∀ e ∈ S'.memo.candidates,
      e ∈ S.memo.candidates ∨ ∀ c ∈ e.2, S'.Offers e.1.1 c := by
    exact fun _ => Or.inl
  elements : ∀ e ∈ S'.memo.elements, e ∈ S.memo.elements ∨ V.CoversAll e.2 := by
    exact fun _ => Or.inl
  framework : ∀ e ∈ S'.memo.framework,
      e ∈ S.memo.framework ∨ ∀ c, e.2 = some c → S'.Owns e.1.1 c := by
    exact fun _ => Or.inl
  children : ∀ e ∈ S'.memo.childScopes, e ∈ S.memo.childScopes ∨ S'.IsChild e.1.1 e.2 := by
    exact fun _ => Or.inl
  byType : ∀ e ∈ S'.memo.byType, e ∈ S.memo.byType ∨ Remembers E S' e.1.1 e.2 := by
    exact fun _ => Or.inl
  byCandidate : ∀ e ∈ S'.memo.byCandidate,
      e ∈ S.memo.byCandidate ∨ Remembers E S' e.1.1 e.2 := by
    exact fun _ => Or.inl

theorem Sound.change (h : Sound V E S) (hc : Change V E S S') : Sound V E S' where
  nested id hid := (hc.nested id hid).elim
    (fun hold => (h.nested id hold).mono hold hc.grows) fun hnew => hnew
  scopes id hid := (hc.scopes id hid).elim
    (fun hold => hc.grows.scope id hold ▸ h.scopes id hold) fun hnew => hnew
  injectables c hid := (hc.injectables c hid).elim
    (fun hold => hc.grows.injectable c hold ▸ h.injectables c hold) fun hnew => hnew
  typeScopes e he := (hc.typeScopes e he).elim
    (fun hold id hid => (h.typeScopes e hold id hid).mono hc.grows) fun hnew => hnew
  candidates e he := (hc.candidates e he).elim
    (fun hold c hmem => (h.candidates e hold c hmem).mono hc.grows) fun hnew => hnew
  elements e he := (hc.elements e he).elim (h.elements e) fun hnew => hnew
  framework e he := (hc.framework e he).elim
    (fun hold c hmem => (h.framework e hold c hmem).mono hc.grows) fun hnew => hnew
  children e he := (hc.children e he).elim
    (fun hold => (h.children e hold).mono hc.grows) fun hnew => hnew
  byType e he := (hc.byType e he).elim
    (fun hold => (h.byType e hold).mono hc.grows) fun hnew => hnew
  byCandidate e he := (hc.byCandidate e he).elim
    (fun hold => (h.byCandidate e hold).mono hc.grows) fun hnew => hnew

theorem sound_empty : Sound V E {} where
  nested id h := absurd h (Nat.not_lt_zero id)
  scopes id h := absurd h (Nat.not_lt_zero id)
  injectables c h := absurd h (Nat.not_lt_zero c)
  typeScopes := List.forall_mem_nil _
  candidates := List.forall_mem_nil _
  elements := List.forall_mem_nil _
  framework := List.forall_mem_nil _
  children := List.forall_mem_nil _
  byType := List.forall_mem_nil _
  byCandidate := List.forall_mem_nil _

theorem Sound.widen (h : Sound V E S) (hVW : V.Within W) : Sound W E S :=
  { h with
    scopes := fun id hid =>
      ⟨fun p hp => ((h.scopes id hid).injectables p hp).mono hVW,
        fun p hp => ((h.scopes id hid).spreading p hp).mono hVW⟩
    injectables := fun c hc => (h.injectables c hc).mono hVW
    elements := fun e he t ht => (h.elements e he t ht).mono hVW }

theorem Sound.supply {E' : Environment} (h : Sound V E S) (hhost : E'.host = E.host)
    (hK : E.catalog.Supplied E'.catalog) : Sound V E' S :=
  { h with
    byType := fun e he v hv =>
      ⟨(h.byType e he v hv).1.supply hhost hK, (h.byType e he v hv).2⟩
    byCandidate := fun e he v hv =>
      ⟨(h.byCandidate e he v hv).1.supply hhost hK, (h.byCandidate e he v hv).2⟩ }

/-- What is offered by a scope is around it, or belongs to it if it is a type scope. -/
theorem Sound.around (h : Sound V E S) (ho : S.Offers scope c) :
    S.Around scope (S.injectable c).owner :=
  around_of_mem_ancestors h.nested ho.place ho.owner

end Session
end Wiring
