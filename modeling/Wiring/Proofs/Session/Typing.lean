import Wiring.Proofs.Session.Regularity
import Wiring.Proofs.Session.Steps

namespace Wiring

open Catalog

/-- The candidate of a value answers a type in the scope of the value. If no type parameter is open
there, its type is a subtype. -/
structure Session.Answered (E : Environment) (S : Session) (v : Resolved) (ty : Ty) : Prop where
  place : v.scope < S.scopes.size
  candidate : v.candidate < S.injectables.size
  answers : E.catalog.Answers (S.scope v.scope).statics (S.injectable v.candidate).ty ty
  closed : (∀ p ∈ E.catalog.parametersIn ty, (S.scope v.scope).statics.contains p = true) →
    E.catalog.isSubtype (S.injectable v.candidate).ty ty = true

def Session.TypedTree (E : Environment) (S : Session) (v : Resolved) : Prop :=
  v.Everywhere fun w => ∀ r u, (r, some u) ∈ w.dependencies → Answered E S u r.ty

namespace Session

variable {E : Environment} {S S' : Session} {scope inner : ScopeId} {c : InjectableId}
  {v : Resolved} {ty ty' : Ty} {statics statics' : List Classifier}

theorem Answered.mono (h : Answered E S v ty) (hS : S.Extends S') : Answered E S' v ty := by
  have hs := hS.scope _ h.place
  have hi := hS.injectable _ h.candidate
  refine ⟨hS.lt_scopes h.place, hS.lt_injectables h.candidate, ?_, ?_⟩
  · rw [hs, hi]
    exact h.answers
  · rw [hs, hi]
    exact h.closed

theorem TypedTree.mono (h : TypedTree E S v) (hS : S.Extends S') : TypedTree E S' v :=
  Resolved.Everywhere.imp (fun _ hw r u hu => (hw r u hu).mono hS) h

structure Serves (K : Catalog) (S : Session) (statics : List Classifier) (ty : Ty)
    (c : InjectableId) : Prop where
  -- `c` is a regular injectable that answers `ty`.
  candidate : c < S.injectables.size
  form : K.RegularForm (S.injectable c).form
  answers : K.Answers statics (S.injectable c).ty ty

structure MadeFor (K : Catalog) (S : Session) (ty : Ty) (c : InjectableId) : Prop where
  -- `c` is a regular injectable of exactly the type `ty`.
  candidate : c < S.injectables.size
  form : K.RegularForm (S.injectable c).form
  type : (S.injectable c).ty = ty

structure Stems (E : Environment) (S : Session) (scope : ScopeId) (c : InjectableId)
    (v : Resolved) : Prop where
  -- `v` is a value of the candidate `c`.
  home : v.scope = scope
  candidate : v.candidate = c
  tree : TypedTree E S v

structure Gives (E : Environment) (S : Session) (scope : ScopeId) (ty : Ty) (v : Resolved) :
    Prop where
  -- `v` is a value for `ty`.
  place : scope < S.scopes.size
  home : v.scope = scope
  serves : Serves E.catalog S (S.scope scope).statics ty v.candidate
  tree : TypedTree E S v

theorem Serves.mono {K : Catalog} (h : Serves K S statics ty c) (hS : S.Extends S') :
    Serves K S' statics ty c := by
  have hi := hS.injectable c h.candidate
  exact ⟨hS.lt_injectables h.candidate, by rw [hi]; exact h.form, by rw [hi]; exact h.answers⟩

theorem MadeFor.mono {K : Catalog} (h : MadeFor K S ty c) (hS : S.Extends S') :
    MadeFor K S' ty c := by
  have hi := hS.injectable c h.candidate
  exact ⟨hS.lt_injectables h.candidate, by rw [hi]; exact h.form, by rw [hi]; exact h.type⟩

theorem Stems.mono (h : Stems E S scope c v) (hS : S.Extends S') : Stems E S' scope c v :=
  ⟨h.home, h.candidate, h.tree.mono hS⟩

theorem Gives.mono (h : Gives E S scope ty v) (hS : S.Extends S') : Gives E S' scope ty v := by
  have hs := hS.scope scope h.place
  refine ⟨hS.lt_scopes h.place, h.home, ?_, h.tree.mono hS⟩
  rw [hs]
  exact h.serves.mono hS

/-- What serves a type serves every equal one. -/
theorem Serves.of_beq {K : Catalog} (h : Serves K S statics ty c) (hK : K.Orderly statics)
    (ht : K.Regular ty) (ht' : K.Regular ty') (he : (ty == ty') = true) :
    Serves K S statics ty' c :=
  { h with answers := h.answers.of_beq hK h.form.ty ht ht' he }

theorem MadeFor.serves {K : Catalog} (h : MadeFor K S ty c) (hK : K.Orderly statics)
    (ht' : K.Regular ty') (he : (ty == ty') = true) : Serves K S statics ty' c := by
  have ht : K.Regular ty := h.type ▸ h.form.ty
  have hself : Serves K S statics ty c := ⟨h.candidate, h.form, by
    rw [h.type]
    exact answers_self ht⟩
  exact hself.of_beq hK ht ht' he

/-- A value of a candidate that serves a type is a value for the type. -/
theorem Stems.gives (h : Stems E S scope c v) (hs : scope < S.scopes.size)
    (hc : Serves E.catalog S (S.scope scope).statics ty c) : Gives E S scope ty v where
  place := hs
  home := h.home
  serves := by
    rw [h.candidate]
    exact hc
  tree := h.tree

theorem Gives.answered (h : Gives E S scope ty v) : Answered E S v ty := by
  have hs := h.home
  subst hs
  exact ⟨h.place, h.serves.candidate, h.serves.answers, h.serves.answers.isSubtype⟩

structure RegularScope (K : Catalog) (s : Scope) : Prop where
  -- The producers and rules of a scope are regular.
  injectables : ∀ p ∈ s.injectables, K.RegularProducer p
  spreading : ∀ p ∈ s.spreading, K.RegularProducer p

structure Typed (E : Environment) (S : Session) : Prop where
  -- What scopes hold is regular, and what is remembered answers what it is remembered for.
  -- Candidates may have been looked up with any static parameters, and answer if fits with these
  -- are meaningful.
  scopes : ∀ id, RegularScope E.catalog (S.scope id)
  orderly : ∀ id, E.catalog.Orderly (S.scope id).statics
  typeScopes : ∀ e ∈ S.typeScopes, ∀ id, e.2 = some id → id < S.scopes.size
  candidates : ∀ e ∈ S.memo.candidates, E.catalog.Regular e.1.2.1 ∧
    (E.catalog.Orderly e.1.2.2 → ∀ c ∈ e.2, Serves E.catalog S e.1.2.2 e.1.2.1 c)
  elements : ∀ e ∈ S.memo.elements, ∀ t ∈ e.2, E.catalog.Regular t
  framework : ∀ e ∈ S.memo.framework, ∀ c, e.2 = some c → MadeFor E.catalog S e.1.2 c
  children : ∀ e ∈ S.memo.childScopes, e.2 < S.scopes.size
  byType : ∀ e ∈ S.memo.byType, ∀ v, e.2 = .ok v →
    E.catalog.Regular e.1.2 ∧ Gives E S e.1.1 e.1.2 v
  byCandidate : ∀ e ∈ S.memo.byCandidate, ∀ v, e.2 = .ok v → Stems E S e.1.1 e.1.2 v

structure TypedChange (E : Environment) (S S' : Session) : Prop where
  -- What may happen to a typed session: it grows, and what is new in it is typed.
  grows : S.Extends S'
  scopes : ∀ id, S'.scope id = S.scope id ∨
      RegularScope E.catalog (S'.scope id) ∧ E.catalog.Orderly (S'.scope id).statics := by
    exact fun _ => Or.inl rfl
  typeScopes : ∀ e ∈ S'.typeScopes,
      e ∈ S.typeScopes ∨ ∀ id, e.2 = some id → id < S'.scopes.size := by
    exact fun _ => Or.inl
  candidates : ∀ e ∈ S'.memo.candidates, e ∈ S.memo.candidates ∨ E.catalog.Regular e.1.2.1 ∧
      (E.catalog.Orderly e.1.2.2 → ∀ c ∈ e.2, Serves E.catalog S' e.1.2.2 e.1.2.1 c) := by
    exact fun _ => Or.inl
  elements : ∀ e ∈ S'.memo.elements, e ∈ S.memo.elements ∨ ∀ t ∈ e.2, E.catalog.Regular t := by
    exact fun _ => Or.inl
  framework : ∀ e ∈ S'.memo.framework,
      e ∈ S.memo.framework ∨ ∀ c, e.2 = some c → MadeFor E.catalog S' e.1.2 c := by
    exact fun _ => Or.inl
  children : ∀ e ∈ S'.memo.childScopes,
      e ∈ S.memo.childScopes ∨ e.2 < S'.scopes.size := by
    exact fun _ => Or.inl
  byType : ∀ e ∈ S'.memo.byType, e ∈ S.memo.byType ∨
      ∀ v, e.2 = .ok v → E.catalog.Regular e.1.2 ∧ Gives E S' e.1.1 e.1.2 v := by
    exact fun _ => Or.inl
  byCandidate : ∀ e ∈ S'.memo.byCandidate,
      e ∈ S.memo.byCandidate ∨ ∀ v, e.2 = .ok v → Stems E S' e.1.1 e.1.2 v := by
    exact fun _ => Or.inl

theorem Typed.change (h : Typed E S) (hc : TypedChange E S S') : Typed E S' where
  scopes id := (hc.scopes id).elim (fun hold => hold ▸ h.scopes id) fun hnew => hnew.1
  orderly id := (hc.scopes id).elim (fun hold => hold ▸ h.orderly id) fun hnew => hnew.2
  typeScopes e he := (hc.typeScopes e he).elim
    (fun hold id hid => hc.grows.lt_scopes (h.typeScopes e hold id hid)) fun hnew => hnew
  candidates e he := (hc.candidates e he).elim
    (fun hold => (h.candidates e hold).imp_right fun hs ho c hmem => (hs ho c hmem).mono hc.grows)
    fun hnew => hnew
  elements e he := (hc.elements e he).elim (h.elements e) fun hnew => hnew
  framework e he := (hc.framework e he).elim
    (fun hold c hmade => (h.framework e hold c hmade).mono hc.grows) fun hnew => hnew
  children e he := (hc.children e he).elim
    (fun hold => hc.grows.lt_scopes (h.children e hold)) fun hnew => hnew
  byType e he := (hc.byType e he).elim
    (fun hold v hv => (h.byType e hold v hv).imp_right fun hg => hg.mono hc.grows)
    fun hnew => hnew
  byCandidate e he := (hc.byCandidate e he).elim
    (fun hold v hv => (h.byCandidate e hold v hv).mono hc.grows) fun hnew => hnew

theorem typed_empty (hK : E.catalog.Orderly []) : Typed E {} where
  scopes _ := ⟨List.forall_mem_nil _, List.forall_mem_nil _⟩
  orderly _ := hK
  typeScopes := List.forall_mem_nil _
  candidates := List.forall_mem_nil _
  elements := List.forall_mem_nil _
  framework := List.forall_mem_nil _
  children := List.forall_mem_nil _
  byType := List.forall_mem_nil _
  byCandidate := List.forall_mem_nil _

end Session
end Wiring
