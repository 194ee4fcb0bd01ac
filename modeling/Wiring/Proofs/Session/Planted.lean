import Wiring.Proofs.Session.Saturation
import Wiring.Proofs.Session.Steady

namespace Wiring.Session

open Vocabulary

variable {E : Environment} {I : Session → Prop} {S S' : Session}

structure ScopeInvariant (E : Environment) (I : Session → Prop) : Prop where
  -- An invariant that the scopes and the next instance key decide and that building keeps.
  same : ∀ {S S' : Session}, I S → S'.scopes = S.scopes → S'.nextInstanceKey = S.nextInstanceKey →
    I S'
  build : ∀ {S : Session} (position : Position), Sound everything E S →
    (∀ parent, position.parent = some parent → parent < S.scopes.size) → I S →
      I ((Session.build E position).run S).2

namespace ScopeInvariant

/-- Such an invariant bears with everything that leaves the scopes alone. -/
theorem steady (hI : ScopeInvariant E I) : Steady E I where
  push _ h := hI.same h rfl rfl
  rememberTypeScope _ h := hI.same h rfl rfl
  rememberElements _ h := hI.same h rfl rfl
  rememberFramework _ h := hI.same h rfl rfl
  rememberChild _ h := hI.same h rfl rfl
  build position hs hp h := hI.build position hs hp h

theorem candidatesIn (hI : ScopeInvariant E I) (ty : Ty) (statics : List Classifier)
    (scopes : List ScopeId) (hS : I S) :
    Obeys I S (Session.candidatesIn E ty statics scopes) fun _ _ => True :=
  candidatesIn_keeps hI.steady.push (fun _ h => hI.same h rfl rfl) ty statics scopes hS

end ScopeInvariant

abbrev DistinctKeys (cs : List Classifier) : Prop :=
  cs.Pairwise fun c d => (c == d) = false

def outerStatics (S : Session) : Option ScopeId → List Classifier
  | some parent => (S.scope parent).statics
  | none => []

/-- Adding classifiers that are not there yet leaves those that are there in front. -/
theorem exists_own_statics (cs around : List Classifier) : ∃ own,
    cs.foldl (fun statics c => if statics.contains c then statics else statics ++ [c]) around =
      around ++ own ∧
    (∀ c, own.contains c = (cs.contains c && !around.contains c)) ∧
    (DistinctKeys around → DistinctKeys (around ++ own)) := by
  induction cs generalizing around with
  | nil =>
    refine ⟨[], (List.append_nil around).symm, fun c => rfl, fun h => ?_⟩
    rwa [List.append_nil]
  | cons c cs ih =>
    rw [List.foldl_cons]
    by_cases hc : around.contains c = true
    · rw [if_pos hc]
      obtain ⟨own, hfold, hown, hdistinct⟩ := ih around
      refine ⟨own, hfold, fun d => ?_, hdistinct⟩
      rw [hown, List.contains_cons]
      cases hd : d == c with
      | false => rw [Bool.false_or]
      | true =>
        have hthere : around.contains d = true := (List.contains_congr hd).trans hc
        rw [hthere, Bool.not_true, Bool.and_false, Bool.and_false]
    · have hfalse := Bool.eq_false_iff.2 hc
      rw [if_neg hc]
      obtain ⟨own, hfold, hown, hdistinct⟩ := ih (around ++ [c])
      refine ⟨c :: own, by rw [hfold, List.append_cons around c own], fun d => ?_, fun ha => ?_⟩
      · rw [List.contains_cons, List.contains_cons, hown, List.contains_append,
          List.contains_cons, List.contains_nil, Bool.or_false]
        cases hd : d == c with
        | false => simp
        | true => simp [List.contains_congr hd, hfalse]
      · -- the new one differs from all that are there
        rw [List.append_cons]
        apply hdistinct
        refine List.pairwise_append.2 ⟨ha, List.pairwise_singleton _ _, fun d hd e he => ?_⟩
        rw [List.mem_singleton.1 he]
        cases hde : d == c with
        | false => rfl
        | true =>
          have hcontains : around.contains d = true :=
            List.contains_iff_exists_mem_beq.2 ⟨d, hd, BEq.rfl⟩
          rw [List.contains_congr hde] at hcontains
          exact absurd hcontains hc

def producers (S : Session) : List Producer :=
  S.scopes.toList.flatMap (·.injectables)

structure Planted (S : Session) : Prop where
  -- A scope has the static parameters of its parent and after them its own, without duplicates. The
  -- producers of all scopes have keys below the next one, and no two of them have the same.
  statics : ∀ id < S.scopes.size, ∃ own,
    (S.scope id).statics = S.outerStatics (S.scope id).parent ++ own
  distinct : ∀ id < S.scopes.size, DistinctKeys (S.scope id).statics
  keys : ∀ p ∈ S.producers, ∃ key, p.ty.instanceKey = some key ∧ key < S.nextInstanceKey
  unique : S.producers.Pairwise fun p q => p.ty.instanceKey ≠ q.ty.instanceKey

/-- What building a scope does to a session, and how the new scope continues it. -/
theorem run_build_planted (E : Environment) (position : Position) (S : Session) : ∃ s n,
    (build E position).run S =
      (S.scopes.size, { S with scopes := S.scopes.push s, nextInstanceKey := n }) ∧
    s.name = position.name ∧ s.parent = position.parent ∧
    s.statics = position.typeParameters.foldl
      (fun statics c => if statics.contains c then statics else statics ++ [c])
      (S.outerStatics position.parent) ∧
    S.nextInstanceKey ≤ n ∧
    (∀ p ∈ s.injectables, ∃ key, p.ty.instanceKey = some key ∧ S.nextInstanceKey ≤ key ∧ key < n) ∧
    s.injectables.Pairwise fun p q => p.ty.instanceKey ≠ q.ty.instanceKey := by
  have hnumbered := fun statics inherited => (Expansion.expands_ofDeclarations E statics inherited
    position.declarations S.nextInstanceKey).numbered
  refine ⟨_, _, rfl, rfl, ?_, rfl, (hnumbered _ _).le, (hnumbered _ _).injectables,
    (hnumbered _ _).distinct⟩
  change (match position.parent with
    | some parent => S.ancestors parent
    | none => []).head? = position.parent
  cases position.parent <;> rfl

/-- What a scope at the top is made of. -/
theorem run_build_top {position : Position} (hroot : position.parent = none) (S : Session) :
    ∃ s n y, (build E position).run S =
        (S.scopes.size, { S with scopes := S.scopes.push s, nextInstanceKey := n }) ∧
      s.enclosing = [] ∧ s.callContext = position.callContext ∧
      s.statics = position.typeParameters.foldl
        (fun statics c => if statics.contains c then statics else statics ++ [c]) [] ∧
      Expansion.Expands E s.statics {} position.declarations S.nextInstanceKey y ∧
      s.injectables = y.injectables := by
  obtain ⟨name, parent, owner, declarations, typeParameters, callContext, isTypeScope⟩ := position
  obtain rfl : parent = none := hroot
  exact ⟨_, _, _, rfl, rfl, rfl, rfl, Expansion.expands_ofDeclarations E _ {} declarations _, rfl⟩

theorem planted_empty : Planted {} where
  statics id h := absurd h (Nat.not_lt_zero id)
  distinct id h := absurd h (Nat.not_lt_zero id)
  keys := List.forall_mem_nil _
  unique := .nil

theorem outerStatics_of_grows (hS : S.Extends S') {parent : Option ScopeId}
    (hp : ∀ id, parent = some id → id < S.scopes.size) :
    S'.outerStatics parent = S.outerStatics parent := by
  cases parent with
  | none => rfl
  | some id => exact congrArg Scope.statics (hS.scope id (hp id rfl))

/-- Building keeps a session planted. -/
theorem planted_build (hs : Sound everything E S) (hS : Planted S) {position : Position}
    (hp : ∀ parent, position.parent = some parent → parent < S.scopes.size) :
    Planted ((build E position).run S).2 := by
  obtain ⟨s, n, hrun, _, hparent, hstatics, hle, hkeys, hunique⟩ := run_build_planted E position S
  have hgrows := extends_build E position S
  rw [hrun] at hgrows ⊢
  let S' : Session := { S with scopes := S.scopes.push s, nextInstanceKey := n }
  have hgrows : S.Extends S' := hgrows
  have hself : S'.scope S.scopes.size = s := getD_push_size _ _ _
  have hproducers : S'.producers = S.producers ++ s.injectables := by
    change (S.scopes.push s).toList.flatMap _ = _
    rw [Array.toList_push, List.flatMap_append, List.flatMap_singleton]
    rfl
  obtain ⟨own, hfold, _, hdistinct⟩ :=
    exists_own_statics position.typeParameters (S.outerStatics position.parent)
  constructor
  · intro id hid
    change ∃ own, (S'.scope id).statics = S'.outerStatics (S'.scope id).parent ++ own
    rcases lt_or_eq_of_lt_push hid with hlt | rfl
    · -- the parent of an old scope is older
      have hold : ∀ parent, (S.scope id).parent = some parent → parent < S.scopes.size :=
        fun parent h => Nat.lt_trans ((hs.nested id hlt).enclosing_eq h).1 hlt
      rw [hgrows.scope id hlt, outerStatics_of_grows hgrows hold]
      exact hS.statics id hlt
    · rw [hself, hparent, outerStatics_of_grows hgrows hp, hstatics]
      exact ⟨own, hfold⟩
  · intro id hid
    change DistinctKeys (S'.scope id).statics
    rcases lt_or_eq_of_lt_push hid with hlt | rfl
    · rw [hgrows.scope id hlt]
      exact hS.distinct id hlt
    · rw [hself, hstatics, hfold]
      apply hdistinct
      cases hpos : position.parent with
      | none => exact .nil
      | some parent => exact hS.distinct parent (hp parent hpos)
  · change ∀ p ∈ S'.producers, ∃ key, p.ty.instanceKey = some key ∧ key < n
    rw [hproducers]
    refine List.forall_mem_append.2 ⟨fun p hmem => ?_, fun p hmem => ?_⟩
    · obtain ⟨key, hkey, hlt⟩ := hS.keys p hmem
      exact ⟨key, hkey, Nat.lt_of_lt_of_le hlt hle⟩
    · obtain ⟨key, hkey, _, hlt⟩ := hkeys p hmem
      exact ⟨key, hkey, hlt⟩
  · change S'.producers.Pairwise _
    rw [hproducers]
    refine List.pairwise_append.2 ⟨hS.unique, hunique, fun p hpmem q hqmem => ?_⟩
    -- old keys are below the next one, new keys are not
    obtain ⟨key, hkey, hlt⟩ := hS.keys p hpmem
    obtain ⟨key', hkey', hge, _⟩ := hkeys q hqmem
    rw [hkey, hkey']
    intro he
    have hsame : key = key' := Option.some.inj he
    omega

theorem scopeInvariant_planted (E : Environment) : ScopeInvariant E Planted where
  same h hscopes hkey := by
    constructor
    · simpa only [Session.scope, outerStatics, hscopes] using h.statics
    · simpa only [Session.scope, hscopes] using h.distinct
    · simpa only [producers, hscopes, hkey] using h.keys
    · simpa only [producers, hscopes] using h.unique
  build _ hs hp hS := planted_build hs hS hp

end Wiring.Session
