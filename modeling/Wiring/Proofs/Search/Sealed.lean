import Wiring.Proofs.Search.Upkeep
import Wiring.Proofs.Session.Planted

namespace Wiring.Session

open Search Vocabulary

variable {E : Environment} {I : Session → Prop} {S S' : Session} {id : ScopeId}
  {position : Position}

/-- Searches keep what building keeps, if nothing else bears on it. -/
theorem ScopeInvariant.upkeep (hI : ScopeInvariant E I) : Upkeep E I where
  candidates _ hS _ ty statics := (hI.candidatesIn ty statics _ hS).keeps
  typeScope hs hS ty := (hI.steady.typeScope hs hS ty).keeps
  dependencyScope hs hS hscope hc := (hI.steady.dependencyScope hs hS hscope hc).keeps
  framework _ hS _ ty := (hI.steady.framework _ ty hS).keeps
  byType _ hS := hI.same hS rfl rfl
  byCandidate _ hS := hI.same hS rfl rfl

/-- What becomes of a position that something is wrong with, and of one that nothing is wrong with. -/
theorem run_addScope (E : Environment) (position : Position) (S : Session) :
    (∃ e, check E.catalog S position = .error e ∧
      (addScope E position).run S = (.error e, S)) ∨
    (check E.catalog S position = .ok () ∧
      (addScope E position).run S =
        (.ok ((build E position).run S).1, ((build E position).run S).2)) := by
  cases hcheck : check E.catalog S position with
  | error e =>
    left
    refine ⟨e, rfl, ?_⟩
    simp only [addScope, StateT.run_bind, StateT.run_get, pure_bind, hcheck, StateT.run_pure]
    rfl
  | ok u =>
    right
    refine ⟨rfl, ?_⟩
    simp only [addScope, StateT.run_bind, StateT.run_get, pure_bind, hcheck, StateT.run_map]
    rfl

theorem ScopeInvariant.addScope (hI : ScopeInvariant E I) (hs : Sound everything E S) (hS : I S)
    (position : Position) : I ((Session.addScope E position).run S).2 := by
  rcases run_addScope E position S with ⟨e, _, hrun⟩ | ⟨hcheck, hrun⟩
  · rw [hrun]
    exact hS
  · rw [hrun]
    exact hI.build position hs (fun parent hp => parent_lt_of_check hcheck hp) hS

/-- A scope at the top, or one level below an older scope, with the static parameters of that scope
and its own after them, each once. -/
structure InPlace (S : Session) (id : ScopeId) : Prop where
  top : (S.scope id).parent = none → (S.scope id).nesting = 0
  inside : ∀ parent, (S.scope id).parent = some parent →
    parent < id ∧ (S.scope id).nesting = (S.scope parent).nesting + 1
  statics : ∃ own, (S.scope id).statics = S.outerStatics (S.scope id).parent ++ own
  distinct : DistinctKeys (S.scope id).statics

theorem inPlace_of_planted (hs : Sound everything E S) (hS : Planted S) (hid : id < S.scopes.size) :
    S.InPlace id where
  top hnone := by
    have hempty : (S.scope id).enclosing = [] := List.head?_eq_none_iff.1 hnone
    exact congrArg List.length hempty
  inside parent hp := by
    obtain ⟨hlt, henclosing⟩ := (hs.nested id hid).enclosing_eq hp
    exact ⟨hlt, congrArg List.length henclosing⟩
  statics := hS.statics id hid
  distinct := hS.distinct id hid

/-- What becomes of a position that is added: a new scope, with what the position says. -/
structure Added (S : Session) (position : Position) (id : ScopeId) (S' : Session) : Prop where
  place : id = S.scopes.size ∧ S'.scopes.size = id + 1
  name : (S'.scope id).name = position.name
  parent : (S'.scope id).parent = position.parent
  statics : ∃ own, (S'.scope id).statics = S.outerStatics position.parent ++ own ∧
    ∀ c, own.contains c =
      (position.typeParameters.contains c && !(S.outerStatics position.parent).contains c)

theorem added_build (E : Environment) (position : Position) (S : Session) :
    Added S position ((build E position).run S).1 ((build E position).run S).2 := by
  obtain ⟨s, n, hrun, hname, hparent, hstatics, _⟩ := run_build_planted E position S
  obtain ⟨own, hfold, hown, _⟩ :=
    exists_own_statics position.typeParameters (S.outerStatics position.parent)
  let S' : Session := { S with scopes := S.scopes.push s, nextInstanceKey := n }
  have hself : S'.scope S.scopes.size = s := getD_push_size _ _ _
  rw [hrun]
  refine ⟨⟨rfl, Array.size_push ..⟩, ?_, ?_, own, ?_, hown⟩
  · exact (congrArg Scope.name hself).trans hname
  · exact (congrArg Scope.parent hself).trans hparent
  · exact (congrArg Scope.statics hself).trans (hstatics.trans hfold)

/-- In a session that has come about by additions, lookups and searches every scope is in place; the
producers of all scopes have instance keys of their own, below the next one; and all that is held in
a table exists. Any further use leaves the scopes and injectables that are there as they are, and a
position that is rejected changes nothing at all. -/
theorem reachable_sealed (h : Reachable E S) :
    (∀ id < S.scopes.size, S.InPlace id) ∧
    (∀ p ∈ S.producers, ∃ key, p.ty.instanceKey = some key ∧ key < S.nextInstanceKey) ∧
    (S.producers.Pairwise fun p q => p.ty.instanceKey ≠ q.ty.instanceKey) ∧
    Indexed S ∧
    (∀ S', Use (fun _ => True) E S S' →
      (∀ id < S.scopes.size, id < S'.scopes.size ∧ S'.scope id = S.scope id) ∧
      ∀ c < S.injectables.size, c < S'.injectables.size ∧ S'.injectable c = S.injectable c) ∧
    (∀ position e, ((addScope E position).run S).1 = .error e →
      ((addScope E position).run S).2 = S) ∧
    ∀ position id, ((addScope E position).run S).1 = .ok id →
      Added S position id ((addScope E position).run S).2 := by
  have hs := h.sound_everything
  obtain ⟨hindexed, hplanted⟩ : Upheld Planted S :=
    h.upheld (fun E => (scopeInvariant_planted E).upkeep)
      (fun E _ position hs hS => (scopeInvariant_planted E).addScope hs hS position) planted_empty
  refine ⟨fun id hid => inPlace_of_planted hs hplanted hid, hplanted.keys, hplanted.unique, hindexed,
    ?_, ?_, ?_⟩
  · intro S' hu
    have hgrows := hu.grows hs
    exact ⟨fun id hid => ⟨hgrows.lt_scopes hid, hgrows.scope id hid⟩,
      fun c hc => ⟨hgrows.lt_injectables hc, hgrows.injectable c hc⟩⟩
  · intro position e he
    rcases run_addScope E position S with ⟨e', _, hrun⟩ | ⟨_, hrun⟩
    · rw [hrun]
    · rw [hrun] at he
      cases he
  · intro position id hid
    rcases run_addScope E position S with ⟨e', _, hrun⟩ | ⟨_, hrun⟩
    · rw [hrun] at hid
      cases hid
    · rw [hrun] at hid ⊢
      rw [← Except.ok.inj hid]
      exact added_build E position S

/-- A position inside of a scope that does not exist is rejected. -/
theorem error_of_unknown {parent : ScopeId} (hp : position.parent = some parent)
    (hle : S.scopes.size ≤ parent) :
    ((addScope E position).run S).1 = .error (.unknownScope parent) := by
  have hcheck : check E.catalog S position = .error (.unknownScope parent) := by
    simp only [check, hp, if_pos hle]
    rfl
  rcases run_addScope E position S with ⟨e, herror, hrun⟩ | ⟨hok, hrun⟩
  · rw [hcheck] at herror
    rw [hrun, Except.error.inj herror]
  · rw [hcheck] at hok
    cases hok

def settled : Session :=
  after (street.resolve village 4 0 wanted)

/-- The scope of the doors is inside of the street, and a position with an unknown parent leaves all
as it is. -/
theorem settled_sealed : Reachable village settled ∧ settled.scopes.size = 2 ∧
    settled.InPlace 1 ∧ (settled.scope 1).parent = some 0 ∧ settled.producers.length = 2 ∧
    (settled.producers.Pairwise fun p q => p.ty.instanceKey ≠ q.ty.instanceKey) ∧ Indexed settled ∧
    ((addScope village { name := "alley", parent := some 7 }).run settled).2 = settled := by
  have hR : Reachable village settled := by
    have hstreet : Reachable village street := .addScope (.start village) _ rfl
    have hs : 0 < street.scopes.size := by decide +kernel
    have hok : (street.resolve village 4 0 wanted).isOk = true := by decide +kernel
    obtain ⟨_, hr⟩ := exists_after hok
    exact .resolve hstreet hs hr
  have hsize : settled.scopes.size = 2 := by decide +kernel
  have hchild : (settled.scope 1).parent = some 0 := by decide +kernel
  have hlength : settled.producers.length = 2 := by decide +kernel
  have hle : settled.scopes.size ≤ 7 := by omega
  have hrejected : ((addScope village { name := "alley", parent := some 7 }).run settled).1 =
      .error (.unknownScope 7) := error_of_unknown rfl hle
  obtain ⟨hplaces, _, hunique, hindexed, _, hsame, _⟩ := reachable_sealed hR
  exact ⟨hR, hsize, hplaces 1 (by omega), hchild, hlength, hunique, hindexed,
    hsame _ _ hrejected⟩

end Wiring.Session
