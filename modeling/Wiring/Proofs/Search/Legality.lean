import Wiring.Proofs.Search.Reachable

namespace Wiring.Session

open Vocabulary

variable {E : Environment} {S : Session} {scope : ScopeId}

def everything : Vocabulary where
  classifier _ := True
  declaration _ := True

theorem covers_everything (t : Ty) : everything.Covers t := by
  obtain ⟨keys, hk⟩ := exists_keys t
  exact hk everything fun _ _ => trivial

theorem coversHost_everything (h : Host) : everything.CoversHost h where
  members _ _ _ := ⟨⟨covers_everything _, fun _ _ => covers_everything _, fun _ => trivial⟩, trivial⟩
  typeScopes _ _ _ := ⟨covers_everything _, fun _ _ => covers_everything _, fun _ => trivial⟩
  components _ _ _ := covers_everything _

/-- What fills a request, or a request of a call site, is a legal tree of the scope that asks: each
candidate in it may be called from its scope, keeps reified what has to be, and belongs to a scope
around or to a type scope, and its dependencies are filled in their order, none of the required ones
by a default, in the scope that is made for them or else in the scope of the candidate. -/
theorem resolve_legal (hR : Reachable E S) (hs : scope < S.scopes.size) :
    (∀ depth request v S', S.resolve E depth scope request = .ok (.ok v, S') →
      Legal E S' v ∧ v.scope = scope) ∧
    ∀ depth requests scope' results S',
      S.resolveAll E depth scope requests = .ok (.filled scope' results, S') →
        ∀ request v, (request, some v) ∈ results → Legal E S' v ∧ v.scope = scope := by
  obtain ⟨V, hV⟩ := hR.sound (coversHost_everything E.host)
  have hcovers : ∀ t, V.Covers t := fun t => (covers_everything t).mono hV.within
  constructor
  · intro depth request v S' hr
    exact (hV.resolve hs (hcovers request.ty) hr).2 v rfl
  · intro depth requests scope' results S' hr request v hv
    have hsite := (hV.resolveAll hs (fun r _ => hcovers r.ty) hr).2
    exact (hsite scope' results rfl).2.1 request v hv

def village : Environment where
  catalog := ⟨[("Fn", [{ typeParameters := [⟨"Fn.R", 0⟩], flags := { function := true } }])]⟩

def doorMaker : Ty :=
  { head := .named ⟨"Fn", 0⟩, arguments := [.of ⟨"Door", 0⟩] }

def street : Session :=
  ((addScope village {
    name := "street"
    declarations := [
      { id := "house"
        ty := .of ⟨"House", 0⟩
        parameters := [{ name := "doors", slot := .value 0, ty := doorMaker }] },
      { id := "door", ty := .of ⟨"Door", 0⟩ }] }).run {}).2

def wanted : Request where
  ty := .of ⟨"House", 0⟩
  callable := "main"
  name := "home"
  slot := .value 0

/-- The house is built with its doors, which are made inside of the scope of their maker. -/
theorem house_legal : Reachable village street ∧ 0 < street.scopes.size ∧
    ∃ v S', street.resolve village 4 0 wanted = .ok (.ok v, S') ∧ Legal village S' v ∧
      v.scope = 0 := by
  have hR : Reachable village street := .addScope (.start village) _ rfl
  have hs : 0 < street.scopes.size := by decide +kernel
  have hfilled : (street.resolve village 4 0 wanted).toOption.any (fun r => r.1.toBool) = true := by
    decide +kernel
  obtain ⟨⟨result, S'⟩, hr, hok⟩ := exists_ok_of_any hfilled
  cases result with
  | error failure => cases hok
  | ok v =>
    have hlegal := (resolve_legal hR hs).1 4 wanted v S' hr
    exact ⟨hR, hs, v, S', hr, hlegal⟩

end Wiring.Session
