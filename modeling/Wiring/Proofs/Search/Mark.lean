import Wiring.Proofs.Search.Steps
import Wiring.Proofs.Search.Trail
import Mathlib.Data.String.Basic

namespace Wiring

open Ty

def Origin.code : Origin → Nat × String
  | .declaration id => (0, id)
  | .collection c => (1, c.key)
  | .provider c => (2, c.key)
  | .witness c => (3, c.key)
  | .component c => (4, c.key)

theorem Origin.code_lt (o : Origin) : o.code.1 < 5 := by
  cases o <;> simp only [code, Nat.reduceLT]

theorem Origin.beq_of_code_eq {a b : Origin} (h : a.code = b.code) : (a == b) = true := by
  have hname := congrArg Prod.snd h
  have hkind := congrArg Prod.fst h
  cases a with
  | declaration id =>
    cases b with
    | declaration id' =>
      show (id == id') = true
      exact beq_iff_eq.2 hname
    | _ => cases hkind
  | collection c =>
    cases b with
    | collection d => exact Classifier.beq_iff_key_eq.2 hname
    | _ => cases hkind
  | provider c =>
    cases b with
    | provider d => exact Classifier.beq_iff_key_eq.2 hname
    | _ => cases hkind
  | witness c =>
    cases b with
    | witness d => exact Classifier.beq_iff_key_eq.2 hname
    | _ => cases hkind
  | component c =>
    cases b with
    | component d => exact Classifier.beq_iff_key_eq.2 hname
    | _ => cases hkind

abbrev Mark := (Nat × String) × Finset String

def Injectable.mark (i : Injectable) : Mark :=
  (i.origin.code, (i.ty.covering.map Classifier.key).toFinset)

theorem Ty.covering_keys_sorted (t : Ty) :
    (t.covering.map Classifier.key).Pairwise (· < ·) :=
  List.pairwise_map.2 (Keyed.ofList_sorted Classifier.key t.classifiers)

/-- Lists of keys in strict order are equal if they have the same keys. -/
theorem eq_of_toFinset_eq {xs ys : List String} (hx : xs.Pairwise (· < ·))
    (hy : ys.Pairwise (· < ·)) (h : xs.toFinset = ys.toFinset) : xs = ys := by
  have hperm : xs.Perm ys :=
    List.perm_of_nodup_nodup_toFinset_eq (hx.imp fun h => ne_of_lt h) (hy.imp fun h => ne_of_lt h) h
  have hantisymm : ∀ x y : String, x ∈ xs → y ∈ ys → x < y → y < x → x = y :=
    fun x y _ _ hxy hyx => absurd hyx (String.lt_asymm hxy)
  exact hperm.eq_of_pairwise hantisymm hx hy

theorem beq_of_keys_eq {cs ds : List Classifier}
    (h : cs.map Classifier.key = ds.map Classifier.key) : (cs == ds) = true := by
  induction cs generalizing ds with
  | nil =>
    cases ds with
    | nil => rfl
    | cons d ds => cases h
  | cons c cs ih =>
    cases ds with
    | nil => cases h
    | cons d ds =>
      obtain ⟨hc, hcs⟩ := List.cons.inj h
      rw [List.cons_beq_cons, Bool.and_eq_true]
      exact ⟨Classifier.beq_iff_key_eq.2 hc, ih hcs⟩

/-- Injectables with one mark come from one origin and mention the same classifiers. -/
theorem Injectable.same_of_mark_eq {i j : Injectable} (h : i.mark = j.mark) :
    (i.origin == j.origin) = true ∧ (i.ty.covering == j.ty.covering) = true := by
  obtain ⟨hcode, hkeys⟩ := Prod.mk.inj h
  refine ⟨Origin.beq_of_code_eq hcode, beq_of_keys_eq ?_⟩
  exact eq_of_toFinset_eq i.ty.covering_keys_sorted j.ty.covering_keys_sorted hkeys

def marksOver (keys ids : List String) : Finset Mark :=
  (Finset.range 5 ×ˢ (ids ++ "*" :: keys).toFinset) ×ˢ keys.toFinset.powerset

namespace Vocabulary

variable {V : Vocabulary} {K : Catalog} {i : Injectable} {keys ids : List String}

theorem Covers.covering {t : Ty} (h : V.Covers t) : ∀ c ∈ t.covering, V.classifier c.key :=
  fun c hc => h.classifiers c (Keyed.mem_of_mem_ofList hc)

theorem Covers.key_eq {t : Ty} (h : V.Covers t) : t.key = "*" ∨ V.classifier t.key := by
  cases hs : t.isStar with
  | false => exact Or.inr (h.here hs)
  | true =>
    obtain ⟨head, as, n, ts, k⟩ := t
    cases head with
    | star => exact Or.inl rfl
    | named c => cases hs

theorem CoversForm.ty (h : V.CoversForm i.form) : V.Covers i.ty := by
  unfold Injectable.ty
  cases hf : i.form with
  | produced p =>
    rw [hf] at h
    exact CoversProducer.ty h
  | collection ty elements =>
    rw [hf] at h
    exact h.1
  | provider ty => rwa [hf] at h
  | witness ty => rwa [hf] at h
  | component ty members =>
    rw [hf] at h
    exact h.1

/-- An injectable with dependencies is named after a classifier or a known declaration, since a
producer has dependencies only if its declaration is known. -/
theorem name_mem (hk : ∀ k, V.classifier k → k ∈ keys) (hd : ∀ d, V.declaration d → d ∈ ids)
    (hi : V.CoversForm i.form) (hne : i.dependencies K ≠ []) :
    i.origin.code.2 ∈ ids ++ "*" :: keys := by
  have hkey : ∀ t, V.Covers t → t.key ∈ ids ++ "*" :: keys := by
    intro t ht
    apply List.mem_append_right ids
    rcases ht.key_eq with he | hc
    · rw [he]
      exact List.mem_cons_self ..
    · exact List.mem_cons_of_mem "*" (hk _ hc)
  have hty := CoversForm.ty hi
  unfold Injectable.ty at hty
  unfold Injectable.dependencies at hne
  unfold Injectable.origin
  -- only what is produced is named after a declaration, all else after its classifier
  cases hf : i.form with
  | produced p =>
    rw [hf] at hi hne
    have hparameters : p.parameterTypes ≠ [] := fun he => hne (List.map_eq_nil_iff.2 he)
    have hknown : V.declaration p.id := CoversProducer.known hi hparameters
    exact List.mem_append_left _ (hd _ hknown)
  | collection ty elements =>
    rw [hf] at hty
    exact hkey ty hty
  | provider ty =>
    rw [hf] at hty
    exact hkey ty hty
  | witness ty =>
    rw [hf] at hty
    exact hkey ty hty
  | component ty members =>
    rw [hf] at hty
    exact hkey ty hty

/-- The mark of an injectable with dependencies is one over the vocabulary. -/
theorem mark_mem (hk : ∀ k, V.classifier k → k ∈ keys) (hd : ∀ d, V.declaration d → d ∈ ids)
    (hi : V.CoversForm i.form) (hne : i.dependencies K ≠ []) : i.mark ∈ marksOver keys ids := by
  have hname := name_mem hk hd hi hne
  have hcovering : (i.ty.covering.map Classifier.key).toFinset ⊆ keys.toFinset := by
    intro k hmem
    obtain ⟨c, hc, rfl⟩ := List.mem_map.1 (List.mem_toFinset.1 hmem)
    exact List.mem_toFinset.2 (hk _ ((CoversForm.ty hi).covering c hc))
  refine Finset.mem_product.2 ⟨Finset.mem_product.2 ⟨?_, ?_⟩, Finset.mem_powerset.2 hcovering⟩
  · exact Finset.mem_range.2 i.origin.code_lt
  · exact List.mem_toFinset.2 hname

end Vocabulary

end Wiring
