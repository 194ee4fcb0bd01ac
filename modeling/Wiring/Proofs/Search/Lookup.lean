import Mathlib.Logic.Relation
import Wiring.Proofs.Search.Faithful
import Wiring.Proofs.Search.Upkeep
import Wiring.Proofs.Session.Listing

namespace Wiring.Session

open Search Vocabulary

variable {E : Environment} {S S' T : Session} {scope : ScopeId} {found : List InjectableId}

theorem upkeep_tabled {P : Finding} (hP : Cumulative E P) : Upkeep E (Tabled P) where
  candidates hs hS hscope ty statics :=
    (Obeys.get (tabled_candidatesIn hP ty statics hs (Or.inr ⟨_, hscope, rfl⟩) hS)).keeps
  typeScope hs hS ty := hS.after hP ((steady_untouched E _).typeScope hs rfl ty)
  dependencyScope hs hS hscope hc :=
    hS.after hP ((steady_untouched E _).dependencyScope hs rfl hscope hc)
  framework _ hS _ ty := hS.after hP ((steady_untouched E _).framework _ ty rfl)
  byType _ hS := hS.grow hP (Extends.of_same rfl rfl fun _ _ => id) rfl
  byCandidate _ hS := hS.grow hP (Extends.of_same rfl rfl fun _ _ => id) rfl

theorem tabled_addScope {P : Finding} (hP : Cumulative E P) (hS : Tabled P S)
    (position : Position) : Tabled P ((addScope E position).run S).2 :=
  hS.after hP (Obeys.addScope (I := S.Untouched) rfl ⟨extends_build E position S, rfl, trivial⟩)

theorem upkeep_listed (hK : E.catalog.Coherent) : Upkeep E (Listed E) :=
  upkeep_tabled (cumulative_lists hK)

theorem listed_addScope (hK : E.catalog.Coherent) (hS : Listed E S) (position : Position) :
    Listed E ((addScope E position).run S).2 :=
  tabled_addScope (cumulative_lists hK) hS position

theorem upkeep_noTypeScopes (hnone : ∀ c, E.host.typeScopeDeclarations c = []) :
    Upkeep E NoTypeScopes where
  candidates _ hS _ ty statics :=
    (Session.Obeys.get (candidatesIn_keeps (fun _ h => h) (fun _ h => h) ty statics _ hS)).keeps
  typeScope _ hS ty := (typeScope_none hnone hS ty).keeps
  dependencyScope hs hS hscope hc :=
    (dependencyScope_keeps (fun _ h => h) (fun _ _ _ h => h) hs hS hscope hc).keeps
  framework _ hS _ ty :=
    (framework_keeps (fun _ h => h) (fun _ h => h) _ ty (fun _ h => h) hS).keeps
  byType _ hS := hS
  byCandidate _ hS := hS

/-- What has been looked up stays so in all searches. -/
theorem upkeep_keeps (E : Environment) (S : Session) : Upkeep E S.Keeps where
  candidates _ hS _ ty statics := (keeps_candidates E _ ty statics hS).keeps
  typeScope _ hS ty := (keeps_typeScope E ty hS).keeps
  dependencyScope _ hS _ _ := (keeps_dependencyScope E _ _ hS).keeps
  framework _ hS _ ty := (keeps_framework E _ ty hS).keeps
  byType _ hS := hS.trans { grows := Extends.of_same rfl rfl fun _ _ => id }
  byCandidate _ hS := hS.trans { grows := Extends.of_same rfl rfl fun _ _ => id }

/-- A session that comes about from another one by any number of uses. -/
abbrev Later (E : Environment) : Session → Session → Prop :=
  Relation.ReflTransGen (Use (fun _ => True) E)

/-- An invariant that uses keep holds in every later session. -/
theorem Later.upheld {I : Session → Prop} (h : Later E S T) (hI : Upkeep E I)
    (hadd : ∀ S position, I S → I ((addScope E position).run S).2) (hS : Reachable E S)
    (hu : Upheld I S) : Reachable E T ∧ Upheld I T := by
  induction h with
  | refl => exact ⟨hS, hu⟩
  | @tail T T' _ huse ih =>
    obtain ⟨hT, hT'⟩ := ih
    exact ⟨huse.reachable hT,
      huse.upheld hI (fun position => hadd T position hT'.2) hT.sound_everything hT'⟩

theorem Later.keeps (h : Later E S T) (hS : Reachable E S) (hi : Indexed S) : S.Keeps T :=
  (h.upheld (upkeep_keeps E S) (fun T position hT => hT.trans (keeps_addScope E position T)) hS
    ⟨hi, Keeps.refl S⟩).2.2

/-- In a session that has come about by use, the candidates for a type are exactly what the scopes
offer: one for each producer of the scope and of those around it that fits and that has the instance
key, if one is asked for. They come from the outside in, in a scope in the order of its producers,
with ids that increase. Whatever is done to the session then, the type and every equal one have
these candidates. -/
theorem candidates_exact (hS : MadeOf (fun _ => True) E S) (hK : E.catalog.Coherent)
    (hscope : scope < S.scopes.size) (ty : Ty) (statics : List Classifier)
    (hrun : (candidates E scope ty statics).run S = (found, S')) :
    List.Forall₂ S'.Realizes found (S.offers E scope ty statics) ∧
    (∀ c ∈ found, c < S'.injectables.size) ∧ found.Pairwise (· < ·) ∧
    ∀ T, Later E S' T → ∀ ty', (ty' == ty) = true →
      (candidates E scope ty' statics).run T = (found, T) := by
  have hs := hS.reachable.sound_everything
  have hupheld : ∀ {S : Session}, MadeOf (fun _ => True) E S → Upheld (Listed E) S := fun hS =>
    hS.upheld (upkeep_listed hK) (fun _ position _ h => listed_addScope hK h position) listed_empty
  have hstep : Obeys (Listed E) S (candidates E scope ty statics) fun found S' =>
      Lists E S' (S.ancestors scope) ty statics found :=
    .get (listed_candidatesIn hK ty statics hs (Or.inr ⟨scope, hscope, rfl⟩) (hupheld hS).2)
  have hS' : MadeOf (fun _ => True) E ((candidates E scope ty statics).run S).2 :=
    .use hS (.candidates hscope trivial statics)
  have hagain : ∀ ty', (ty' == ty) = true → ∀ T,
      ((candidates E scope ty statics).run S).2.Keeps T →
        (candidates E scope ty' statics).run T = (((candidates E scope ty statics).run S).1, T) :=
    fun ty' ht => (found_candidates E scope statics ht S).again
  obtain ⟨hgrows, _, hlists⟩ := hstep
  rw [hrun] at hgrows hlists hS' hagain
  -- the scopes are what they were, so they offer what they offered
  have hexactly := hlists.exactly ty statics BEq.rfl BEq.rfl
  rw [offersIn_of_grows hgrows (lt_of_mem_ancestors hs.nested hscope)] at hexactly
  exact ⟨hexactly, hlists.known, hlists.increasing, fun T hT ty' ht =>
    hagain ty' ht T (hT.keeps hS'.reachable (hupheld hS').1)⟩

def boxes : List InjectableId × Session :=
  (candidates library 0 boxed.ty []).run shelved

/-- There is one box that fits, and it is found again from the same place after a scope has been
added inside of the shelf and a box has been resolved there. -/
theorem shelved_exact : MadeOf (fun _ => True) library shelved ∧ library.catalog.Coherent ∧
    0 < shelved.scopes.size ∧ boxes.1 = [0] ∧
    List.Forall₂ boxes.2.Realizes boxes.1 (shelved.offers library 0 boxed.ty []) ∧
    ∃ T, Later library boxes.2 T ∧ T.scopes.size = 2 ∧
      (candidates library 0 boxed.ty []).run T = (boxes.1, T) := by
  have hmade : MadeOf (fun _ => True) library shelved :=
    .use .start (.addScope { name := "library", declarations := shelving } rfl
      fun _ _ => ⟨trivial, fun _ _ => trivial⟩)
  have hK : library.catalog.Coherent := Fit.orderly_shelf.coherent
  have hscope : 0 < shelved.scopes.size := by decide +kernel
  have hrun : (candidates library 0 boxed.ty []).run shelved = (boxes.1, boxes.2) := rfl
  obtain ⟨hexact, _, _, hlater⟩ := candidates_exact hmade hK hscope boxed.ty [] hrun
  -- a scope is added below, and a search in it leaves results in memory
  let annexed : Session :=
    ((addScope library { name := "annex", parent := some 0 }).run boxes.2).2
  have hannexed : Later library boxes.2 annexed :=
    .single (.addScope { name := "annex", parent := some 0 } rfl (List.forall_mem_nil _))
  have hinside : 1 < annexed.scopes.size := by decide +kernel
  have hok : (annexed.resolve library 4 1 boxed).isOk = true := by decide +kernel
  obtain ⟨_, hT⟩ := exists_after hok
  have hresolved : Later library boxes.2 (after (annexed.resolve library 4 1 boxed)) :=
    hannexed.tail (.resolve hinside trivial hT)
  exact ⟨hmade, hK, hscope, by decide +kernel, hexact, _, hresolved, by decide +kernel,
    hlater _ hresolved boxed.ty BEq.rfl⟩

def overlap : Environment where
  catalog := clash.catalog
  host := HostTables.host {}

def overlapping : Session :=
  ((addScope overlap {
    name := "root"
    declarations := [{ id := "bar", ty := .of ⟨"Bar", 0⟩ }] }).run {}).2

def overlapped : Session :=
  ((candidates overlap 0 (.of ⟨"Foo", 1⟩) []).run overlapping).2

/-- The class and the parameter are equal, so what has been found for the parameter is given for the
class, though nothing fits it. -/
theorem overlap_inexact : MadeOf (fun _ => True) overlap overlapped ∧
    0 < overlapped.scopes.size ∧
    ((candidates overlap 0 (.of ⟨"Foo", 0⟩) []).run overlapped).1 = [0] ∧
    (overlapped.offers overlap 0 (.of ⟨"Foo", 0⟩) []).length = 0 := by
  have hroot : 0 < overlapping.scopes.size := by decide +kernel
  refine ⟨.use (.use .start (.addScope _ rfl fun _ _ => ⟨trivial, fun _ _ => trivial⟩))
    (.candidates hroot trivial []), ?_, ?_, ?_⟩ <;> decide +kernel

end Wiring.Session
