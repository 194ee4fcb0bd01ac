import Wiring.Session

namespace Wiring.Session

variable {S S' S'' : Session} {id parent scope owner : ScopeId} {c : InjectableId}

theorem scope_of_size_le (h : S.scopes.size ≤ id) : S.scope id = default := by
  simp [Session.scope, Array.getD, Nat.not_lt.2 h]

theorem lt_of_parent (h : (S.scope id).parent = some parent) : id < S.scopes.size := by
  apply Nat.lt_of_not_le
  intro hle
  rw [scope_of_size_le hle] at h
  cases h

theorem lt_of_isTypeScope (h : (S.scope id).isTypeScope = true) : id < S.scopes.size := by
  apply Nat.lt_of_not_le
  intro hle
  rw [scope_of_size_le hle] at h
  cases h

theorem getD_push_of_lt {α : Type} {xs : Array α} (x default : α) {i : Nat} (h : i < xs.size) :
    (xs.push x).getD i default = xs.getD i default := by
  simp [Array.getD, h, Nat.lt_succ_of_lt h, Array.getElem_push_lt h]

theorem getD_push_size {α : Type} (xs : Array α) (x default : α) :
    (xs.push x).getD xs.size default = x := by
  simp [Array.getD]

structure Extends (S S' : Session) : Prop where
  -- `S'` is `S` with more scopes, injectables and things remembered.
  scopes : S.scopes.size ≤ S'.scopes.size
  scope : ∀ id < S.scopes.size, S'.scope id = S.scope id
  injectables : S.injectables.size ≤ S'.injectables.size
  injectable : ∀ c < S.injectables.size, S'.injectable c = S.injectable c
  children : ∀ place child, S.memo.childScopes.lookup place = some child →
    S'.memo.childScopes.lookup place = some child

namespace Extends

theorem refl (S : Session) : S.Extends S where
  scopes := Nat.le_refl _
  scope _ _ := rfl
  injectables := Nat.le_refl _
  injectable _ _ := rfl
  children _ _ := id

theorem trans (h : S.Extends S') (h' : S'.Extends S'') : S.Extends S'' where
  scopes := Nat.le_trans h.scopes h'.scopes
  scope id hid := (h'.scope id (Nat.lt_of_lt_of_le hid h.scopes)).trans (h.scope id hid)
  injectables := Nat.le_trans h.injectables h'.injectables
  injectable c hc := (h'.injectable c (Nat.lt_of_lt_of_le hc h.injectables)).trans (h.injectable c hc)
  children place child hp := h'.children place child (h.children place child hp)

/-- A session with the same scopes and injectables that has lost no child scope. -/
theorem of_same (hs : S'.scopes = S.scopes) (hi : S'.injectables = S.injectables)
    (hc : ∀ place child, S.memo.childScopes.lookup place = some child →
      S'.memo.childScopes.lookup place = some child) : S.Extends S' where
  scopes := Nat.le_of_eq (congrArg Array.size hs).symm
  scope id _ := by rw [Session.scope, Session.scope, hs]
  injectables := Nat.le_of_eq (congrArg Array.size hi).symm
  injectable c _ := by rw [Session.injectable, Session.injectable, hi]
  children := hc

theorem lt_scopes (h : S.Extends S') (hid : id < S.scopes.size) : id < S'.scopes.size :=
  Nat.lt_of_lt_of_le hid h.scopes

theorem lt_injectables (h : S.Extends S') (hc : c < S.injectables.size) :
    c < S'.injectables.size :=
  Nat.lt_of_lt_of_le hc h.injectables

theorem ancestors (h : S.Extends S') (hid : id < S.scopes.size) :
    S'.ancestors id = S.ancestors id := by
  rw [Session.ancestors, Session.ancestors, h.scope id hid]

end Extends

theorem lt_size_push {α : Type} (xs : Array α) (x : α) : xs.size < (xs.push x).size := by
  rw [Array.size_push]
  exact Nat.lt_succ_self _

theorem extends_pushInjectable (S : Session) (i : Injectable) :
    S.Extends { S with injectables := S.injectables.push i } where
  scopes := Nat.le_refl _
  scope _ _ := rfl
  injectables := Nat.le_of_lt (lt_size_push _ _)
  injectable _ hc := getD_push_of_lt i default hc
  children _ _ := id

theorem extends_pushScope (S : Session) (s : Scope) :
    S.Extends { S with scopes := S.scopes.push s } where
  scopes := Nat.le_of_lt (lt_size_push _ _)
  scope _ hid := getD_push_of_lt s default hid
  injectables := Nat.le_refl _
  injectable _ _ := rfl
  children _ _ := id

inductive Around (S : Session) : (scope owner : ScopeId) → Prop
  -- `owner` is `scope` or one of the scopes around it, parent by parent.
  | here (scope : ScopeId) : Around S scope scope
  | out {scope parent owner : ScopeId} (link : (S.scope scope).parent = some parent)
      (rest : Around S parent owner) : Around S scope owner

theorem Around.mono (h : S.Around scope owner) (hS : S.Extends S') : S'.Around scope owner := by
  induction h with
  | here scope => exact .here scope
  | out link _ ih =>
    refine .out ?_ ih
    rw [hS.scope _ (lt_of_parent link)]
    exact link

def Nested (S : Session) (id : ScopeId) : Prop :=
  (S.scope id).enclosing = [] ∨ ∃ parent < id, (S.scope id).enclosing = S.ancestors parent

theorem Nested.mono (h : S.Nested id) (hid : id < S.scopes.size) (hS : S.Extends S') :
    S'.Nested id := by
  unfold Nested at h ⊢
  rw [hS.scope id hid]
  refine h.imp_right ?_
  rintro ⟨parent, hp, he⟩
  exact ⟨parent, hp, he.trans (hS.ancestors (Nat.lt_trans hp hid)).symm⟩

theorem Nested.enclosing_eq (h : S.Nested id) (hp : (S.scope id).parent = some parent) :
    parent < id ∧ (S.scope id).enclosing = S.ancestors parent := by
  rcases h with h | ⟨p, hlt, he⟩
  · rw [Scope.parent, h] at hp
    cases hp
  · rw [Scope.parent, he] at hp
    obtain rfl := Option.some.inj hp
    exact ⟨hlt, he⟩

/-- What is listed as an ancestor is reached from parent to parent. -/
theorem around_of_mem_ancestors (hS : ∀ id < S.scopes.size, S.Nested id)
    (hid : id < S.scopes.size) (h : owner ∈ S.ancestors id) : S.Around id owner := by
  induction id using Nat.strongRecOn with
  | ind id ih =>
    rcases List.mem_cons.1 h with rfl | h
    · exact .here owner
    · rcases hS id hid with he | ⟨parent, hlt, he⟩
      · rw [he] at h
        cases h
      · rw [he] at h
        refine .out ?_ (ih parent hlt (Nat.lt_trans hlt hid) h)
        rw [Scope.parent, he]
        rfl

def Lineage (S : Session) (scopes : List ScopeId) : Prop :=
  scopes = [] ∨ ∃ id < S.scopes.size, scopes = S.ancestors id

theorem lineage_enclosing (hS : ∀ id < S.scopes.size, S.Nested id) (hid : id < S.scopes.size) :
    S.Lineage (S.scope id).enclosing := by
  refine (hS id hid).imp_right ?_
  rintro ⟨parent, hlt, he⟩
  exact ⟨parent, Nat.lt_trans hlt hid, he⟩

end Wiring.Session
