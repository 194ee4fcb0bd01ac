import Wiring.Proofs.Search.Typing
import Wiring.Proofs.Search.Use

namespace Wiring.Session

open Catalog

variable {E : Environment} {S S' : Session}

/-- A use that mentions regular types only keeps a session typed, if fits in the new scopes are
meaningful. -/
theorem Use.typed (hu : Use E.catalog.Regular E S S') (hE : RegularHost E.catalog E.host)
    (hS : Typed E S) (ho : ∀ id, E.catalog.Orderly (S'.scope id).statics) : Typed E S' := by
  cases hu with
  | addScope position _ hd =>
    exact (obeys_addScope hE hS (fun d hmem => ⟨(hd d hmem).1, (hd d hmem).2⟩) ho).keeps
  | candidates _ ht statics => exact (obeys_candidates ht _ statics hS).keeps
  | resolve hs ht hr =>
    obtain ⟨s', hrun, rfl⟩ := exists_run_of_resolve hr
    exact (Search.types_solve hE _ [] _ _ { session := S } hS hs ht _ s' hrun).2.1
  | @resolveAll S' scope hs depth requests ht site hr =>
    obtain ⟨s', hrun, rfl⟩ := exists_run_of_resolveAll hr
    have hobeys : Search.Obeys (Typed E) { session := S }
        (Search.solveAll E depth scope requests [] none) fun _ _ => True :=
      Search.obeys_solveAll hE depth hS hs ht
    exact (hobeys _ s' hrun).2.1

/-- Sessions that come about with regular types are typed. Scopes do not change, so those of an
earlier session are as orderly as those of the last one. -/
theorem MadeOf.typed (h : MadeOf E.catalog.Regular E S) (hE : RegularHost E.catalog E.host)
    (ho : ∀ id, E.catalog.Orderly (S.scope id).statics) : Typed E S := by
  induction h with
  | start => exact typed_empty (ho 0)
  | @use S S' h hu ih =>
    refine hu.typed hE (ih fun id => ?_) ho
    rcases Nat.lt_or_ge id S.scopes.size with hid | hid
    · rw [← (hu.grows h.reachable.sound_everything).scope id hid]
      exact ho id
    · have hnone := ho S'.scopes.size
      rw [scope_of_size_le (Nat.le_refl _)] at hnone
      rw [scope_of_size_le hid]
      exact hnone

/-- With a class table in which fits are meaningful, a value for a request and all values below it
answer what they are requested for: after a replacement of type parameters that are not static in
the scope of the value, the type of its candidate is a subtype of the requested type, and without one
if no type parameter is open. -/
theorem resolve_typed (hS : MadeOf E.catalog.Regular E S) (hE : RegularHost E.catalog E.host)
    (ho : ∀ id < S.scopes.size, E.catalog.Orderly (S.scope id).statics) {scope : ScopeId}
    (hs : scope < S.scopes.size) {depth : Nat} {request : Request}
    (ht : E.catalog.Regular request.ty) {v : Resolved}
    (hr : S.resolve E depth scope request = .ok (.ok v, S')) :
    v.scope = scope ∧ Answered E S' v request.ty ∧
      v.Everywhere fun w => ∀ r u, (r, some u) ∈ w.dependencies → Answered E S' u r.ty := by
  have hall : ∀ id, E.catalog.Orderly (S.scope id).statics := by
    intro id
    rcases Nat.lt_or_ge id S.scopes.size with hid | hid
    · exact ho id hid
    · -- what is no scope reads as one without static parameters
      rw [scope_of_size_le hid]
      exact { ho scope hs with bounds := fun c hc => by cases hc }
  have htyped := hS.typed hE hall
  obtain ⟨s', hrun, rfl⟩ := exists_run_of_resolve hr
  obtain ⟨_, _, hgives⟩ :=
    Search.types_solve hE depth [] scope request { session := S } htyped hs ht _ s' hrun
  have hv := hgives v rfl
  exact ⟨hv.home, hv.answered, hv.tree⟩

def library : Environment where
  catalog := Fit.shelf
  host := HostTables.host {}

def shelving : List Declaration := [
  { id := "pack"
    ty := Fit.box "T"
    typeParameters := [⟨"T", 0⟩]
    parameters := [{ name := "content", slot := .value 0, ty := .of ⟨"T", 0⟩ }] },
  { id := "seven", ty := .of ⟨"Int", 0⟩ }]

def shelved : Session :=
  ((addScope library { name := "library", declarations := shelving }).run {}).2

def boxed : Request where
  ty := Fit.box "Int"
  callable := "main"
  name := "gift"
  slot := .value 0

theorem shelved_madeOf : MadeOf library.catalog.Regular library shelved := by
  have hnumber : ∀ key, Fit.shelf.typeParameters ⟨key, 0⟩ = [] →
      library.catalog.Regular (.of ⟨key, 0⟩) := fun _ h => regular_of h
  have hd : ∀ d ∈ shelving, d.TypesSatisfy library.catalog.Regular :=
    List.forall_mem_cons.2 ⟨⟨Fit.regular_box rfl, List.forall_mem_singleton.2 (hnumber "T" rfl)⟩,
      List.forall_mem_singleton.2 ⟨hnumber "Int" rfl, List.forall_mem_nil _⟩⟩
  exact .use .start (.addScope { name := "library", declarations := shelving } rfl hd)

/-- A box of integers is packed with an integer, and both are what they are asked for. -/
theorem shelved_typed : MadeOf library.catalog.Regular library shelved ∧
    RegularHost library.catalog library.host ∧
    (∀ id < shelved.scopes.size, library.catalog.Orderly (shelved.scope id).statics) ∧
    0 < shelved.scopes.size ∧ library.catalog.Regular boxed.ty ∧
    ∃ v S', shelved.resolve library 4 0 boxed = .ok (.ok v, S') ∧ v.scope = 0 ∧
      Answered library S' v boxed.ty ∧
      v.Everywhere fun w => ∀ r u, (r, some u) ∈ w.dependencies → Answered library S' u r.ty := by
  have hE : RegularHost library.catalog library.host :=
    ⟨fun _ => List.forall_mem_nil _, fun _ => List.forall_mem_nil _, fun _ => List.forall_mem_nil _⟩
  have hsize : shelved.scopes.size = 1 := by decide +kernel
  have ho : ∀ id < shelved.scopes.size, library.catalog.Orderly (shelved.scope id).statics := by
    intro id hid
    obtain rfl : id = 0 := by omega
    exact Fit.orderly_shelf
  have hs : 0 < shelved.scopes.size := by omega
  have ht : library.catalog.Regular boxed.ty := Fit.regular_box rfl
  have hfilled : (shelved.resolve library 4 0 boxed).toOption.any (fun r => r.1.toBool) = true := by
    decide +kernel
  obtain ⟨⟨result, S'⟩, hr, hok⟩ := exists_ok_of_any hfilled
  cases result with
  | error failure => cases hok
  | ok v =>
    have htyped := resolve_typed shelved_madeOf hE ho hs ht hr
    exact ⟨shelved_madeOf, hE, ho, hs, ht, v, S', hr, htyped⟩

end Wiring.Session
