import Wiring.Proofs.Session.Legal

namespace Wiring

namespace Catalog

variable {K K' : Catalog} {c : Classifier} {e e' : Entry}

structure SameTraits (e e' : Entry) : Prop where
  -- Two descriptions differ in their supertypes only.
  typeParameters : e'.typeParameters = e.typeParameters
  flags : e'.flags = e.flags
  callContext : e'.callContext = e.callContext

def Supplied (K K' : Catalog) : Prop :=
  ∀ c, SameTraits (K.entry c) (K'.entry c)

theorem lookup_key {α : Type} (k : String) (e : String × α) (entries : List (String × α)) :
    (e :: entries).lookup k = if k = e.1 then some e.2 else entries.lookup k := by
  obtain ⟨key, x⟩ := e
  rw [List.lookup_cons]
  by_cases h : k = key
  · rw [if_pos h, beq_iff_eq.2 h]
  · rw [if_neg h, beq_eq_false_iff_ne.2 h]

theorem lookup_record (key k : String) (es : List Entry) (entries : List (String × List Entry)) :
    (record key es entries).lookup k = if k = key then some es else entries.lookup k := by
  induction entries with
  | nil => rw [record, lookup_key]
  | cons e entries ih =>
    obtain ⟨key', es'⟩ := e
    rw [record]
    split
    · next h =>
      rw [lookup_key, lookup_key, ← h]
      split <;> rfl
    · next h =>
      rw [lookup_key, lookup_key, ih]
      by_cases hk : k = key'
      · rw [if_pos hk, if_pos hk, if_neg fun he => h (hk.symm.trans he)]
      · rw [if_neg hk, if_neg hk]

theorem SameTraits.refl (e : Entry) : SameTraits e e :=
  ⟨rfl, rfl, rfl⟩

/-- Of the descriptions of a key one gets other supertypes. -/
theorem rel_set {es : List Entry} {i : Nat} (hi : es[i]? = some e) (h : SameTraits e e') (j : Nat) :
    Option.Rel SameTraits es[j]? (es.set i e')[j]? := by
  have hlt : i < es.length := (List.getElem?_eq_some_iff.1 hi).1
  by_cases hij : i = j
  · subst hij
    rw [hi, List.getElem?_set_self hlt]
    exact Option.Rel.some h
  · rw [List.getElem?_set_ne hij]
    cases es[j]? with
    | none => exact Option.Rel.none
    | some x => exact Option.Rel.some (SameTraits.refl x)

theorem rel_getD_or {α : Type} {R : α → α → Prop} {x x' y y' : Option α} {d : α}
    (hx : Option.Rel R x x') (hy : Option.Rel R y y') (hd : R d d) :
    R ((x.or y).getD d) ((x'.or y').getD d) := by
  cases hx with
  | some h => exact h
  | none =>
    cases hy with
    | some h => exact h
    | none => exact hd

theorem supplied_supplySupertypes (K : Catalog) (c : Classifier) (ts : List Ty) :
    Supplied K (K.supplySupertypes c ts).2 := by
  intro d
  unfold supplySupertypes
  dsimp only
  split
  · exact SameTraits.refl _
  · next e he =>
    split
    · exact SameTraits.refl _
    · simp only [entry, revisions, lookup_record]
      split
      · next hk =>
        rw [Option.getD_some, hk, List.head?_eq_getElem?, List.head?_eq_getElem?]
        have hsame : SameTraits e { e with supertypes := some ts } := ⟨rfl, rfl, rfl⟩
        have hrel := rel_set he hsame
        exact rel_getD_or (hrel d.revision) (hrel 0) (SameTraits.refl {})
      · exact SameTraits.refl _

namespace Supplied

theorem flags_eq (h : Supplied K K') : K'.flags = K.flags :=
  funext fun c => (h c).flags

theorem isTypeParameter_eq (h : Supplied K K') : K'.isTypeParameter = K.isTypeParameter := by
  funext c
  rw [isTypeParameter, isTypeParameter, h.flags_eq]

theorem flagsOf_eq (h : Supplied K K') (t : Ty) : K'.flagsOf t = K.flagsOf t := by
  rw [flagsOf, flagsOf, h.flags_eq]

theorem parametersIn_eq (h : Supplied K K') (t : Ty) : K'.parametersIn t = K.parametersIn t := by
  rw [parametersIn, parametersIn, h.isTypeParameter_eq]

theorem functionReturn_eq (h : Supplied K K') (t : Ty) :
    K'.functionReturn? t = K.functionReturn? t := by
  rw [functionReturn?, functionReturn?, h.flagsOf_eq]

theorem text_eq (h : Supplied K K') (t : Ty) : K'.text t = K.text t := by
  induction t using Ty.induct with
  | step t iha iht =>
    obtain ⟨head, as, n, ts, k⟩ := t
    cases head with
    | star => rfl
    | named c =>
      have ha : as.map K'.text = as.map K.text := List.map_congr_left iha
      have ht : ts.map K'.text = ts.map K.text := List.map_congr_left iht
      simp only [text, texts_eq_map, coreText, ha, ht, h.flags_eq]

theorem witnessed_eq (h : Supplied K K') (t : Ty) :
    Injectable.witnessed K' t = Injectable.witnessed K t := by
  unfold Injectable.witnessed
  simp only [h.parametersIn_eq, h.flags_eq]

theorem dependencies_eq (h : Supplied K K') (i : Injectable) :
    i.dependencies K' = i.dependencies K := by
  unfold Injectable.dependencies
  simp only [Injectable.frameworkId, h.text_eq, h.functionReturn_eq, h.witnessed_eq]

theorem reifies (h : Supplied K K') {statics : List Classifier} {i : Injectable}
    (hi : i.Reifies K statics) : i.Reifies K' statics := by
  unfold Injectable.Reifies at hi ⊢
  simp only [h.flags_eq, h.parametersIn_eq]
  exact hi

end Supplied
end Catalog

namespace Session

/-- A tree stays legal when supertypes are supplied. -/
theorem Legal.supply {E E' : Environment} {S : Session} {v : Resolved} (h : Legal E S v)
    (hhost : E'.host = E.host) (hK : E.catalog.Supplied E'.catalog) : Legal E' S v := by
  refine h.imp fun v hv => { hv with callable := ?_, reified := hK.reifies hv.reified, slots := ?_ }
  · rw [hhost]
    exact hv.callable
  · rw [hK.dependencies_eq]
    exact hv.slots

end Session
end Wiring
