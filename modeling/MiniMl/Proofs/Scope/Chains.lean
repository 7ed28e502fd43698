import Mathlib.Data.Fintype.EquivFin
import Mathlib.Order.WellFounded
import MiniMl.Proofs.Scope.Balance

/-! # The way out of a scope

Scopes may get other parents at any time, also younger ones. As long as no scope is inside itself,
the way outwards from each ends at the first file scope or at one without a parent, and a look-up
answers for the nearest scope on it that binds the key.
-/

namespace MiniMl

namespace Arena

variable {a : Arena} {id j : ScopeId} {path other : List ScopeId} {key : Key}

/-- No scope is inside itself. -/
def Acyclic (a : Arena) : Prop := ∀ id, ¬ Relation.TransGen a.ParentOf id id

/-- The scopes from one outwards, up to the first file scope or one without a parent. -/
inductive Outwards (a : Arena) : ScopeId → List ScopeId → Prop where
  | missing {id : ScopeId} : a.size ≤ id → Outwards a id []
  | file {id : ScopeId} : a.kind? id = some .file → Outwards a id [id]
  | outermost {id : ScopeId} : id < a.size → a.kind? id ≠ some .file → a.parent? id = none →
      Outwards a id [id]
  | inside {id parent : ScopeId} {path : List ScopeId} : id < a.size →
      a.kind? id ≠ some .file → a.ParentOf id parent → Outwards a parent path →
      Outwards a id (id :: path)

theorem lt_of_kind? {kind : ScopeKind} (h : a.kind? id = some kind) : id < a.size := by
  by_contra hid
  rw [kind?, Array.getElem?_eq_none (Nat.le_of_not_lt hid)] at h
  cases h

theorem lt_of_parentOf {parent : ScopeId} (h : a.ParentOf id parent) : id < a.size := by
  by_contra hid
  rw [ParentOf, parent?_of_size_le (Nat.le_of_not_lt hid)] at h
  cases h

theorem Outwards.lt (h : a.Outwards id path) : ∀ j ∈ path, j < a.size := by
  induction h with
  | missing => simp
  | file hkind =>
    intro j hj
    obtain rfl := List.mem_singleton.mp hj
    exact lt_of_kind? hkind
  | outermost hid =>
    intro j hj
    obtain rfl := List.mem_singleton.mp hj
    exact hid
  | inside hid _ _ _ ih => exact List.forall_mem_cons.mpr ⟨hid, ih⟩

theorem Outwards.reached (h : a.Outwards id path) :
    ∀ j ∈ path, Relation.ReflTransGen a.ParentOf id j := by
  induction h with
  | missing => simp
  | file | outermost =>
    intro j hj
    obtain rfl := List.mem_singleton.mp hj
    exact .refl
  | inside _ _ hparent _ ih =>
    intro j hj
    rcases List.mem_cons.mp hj with rfl | hj
    · exact .refl
    · exact .head hparent (ih j hj)

theorem Outwards.nodup (ha : a.Acyclic) (h : a.Outwards id path) : path.Nodup := by
  induction h with
  | missing => exact List.nodup_nil
  | file | outermost => exact List.nodup_singleton _
  | @inside id parent path _ _ hparent hpath ih =>
    refine List.nodup_cons.mpr ⟨?_, ih⟩
    intro hid
    exact ha id (.head' hparent (hpath.reached id hid))

theorem Outwards.length_le (ha : a.Acyclic) (h : a.Outwards id path) : path.length ≤ a.size := by
  have hsub : path ⊆ List.range a.size := fun j hj => List.mem_range.mpr (h.lt j hj)
  simpa using (h.nodup ha).length_le_of_subset hsub

theorem Outwards.unique (h : a.Outwards id path) (h' : a.Outwards id other) : path = other := by
  induction h generalizing other with
  | missing hid =>
    cases h' with
    | missing => rfl
    | file hkind => exact absurd (lt_of_kind? hkind) (Nat.not_lt.mpr hid)
    | outermost hlt => exact absurd hlt (Nat.not_lt.mpr hid)
    | inside hlt => exact absurd hlt (Nat.not_lt.mpr hid)
  | file hkind =>
    cases h' with
    | missing hid => exact absurd (lt_of_kind? hkind) (Nat.not_lt.mpr hid)
    | file => rfl
    | outermost _ hne => exact absurd hkind hne
    | inside _ hne => exact absurd hkind hne
  | outermost hlt hne hnone =>
    cases h' with
    | missing hid => exact absurd hlt (Nat.not_lt.mpr hid)
    | file hkind => exact absurd hkind hne
    | outermost => rfl
    | inside _ _ hparent => cases hnone.symm.trans hparent
  | inside hlt hne hparent _ ih =>
    cases h' with
    | missing hid => exact absurd hlt (Nat.not_lt.mpr hid)
    | file hkind => exact absurd hkind hne
    | outermost _ _ hnone => cases hnone.symm.trans hparent
    | inside _ _ hparent' hpath' =>
      cases hparent.symm.trans hparent'
      rw [ih hpath']

/-- There are finitely many scopes, so a way out that is in no circle ends. -/
theorem Acyclic.wellFounded (ha : a.Acyclic) :
    WellFounded fun i j : Fin a.size => Relation.TransGen a.ParentOf j.val i.val := by
  let inside : Fin a.size → Fin a.size → Prop := fun i j => Relation.TransGen a.ParentOf j.val i.val
  have htrans : IsTrans (Fin a.size) inside := ⟨fun _ _ _ hij hjk => hjk.trans hij⟩
  have hirrefl : Std.Irrefl inside := ⟨fun i => ha i.val⟩
  exact Finite.wellFounded_of_trans_of_irrefl inside

theorem Acyclic.outwards (ha : a.Acyclic) (id : ScopeId) : ∃ path, a.Outwards id path := by
  by_cases hid : id < a.size
  · -- The induction goes from a scope to its parent, if that is a scope.
    induction h : (⟨id, hid⟩ : Fin a.size) using ha.wellFounded.induction generalizing id with
    | _ i ih =>
      subst h
      by_cases hkind : a.kind? id = some .file
      · exact ⟨[id], .file hkind⟩
      · cases hparent : a.parent? id with
        | none => exact ⟨[id], .outermost hid hkind hparent⟩
        | some parent =>
          by_cases hlt : parent < a.size
          · obtain ⟨path, hpath⟩ := ih ⟨parent, hlt⟩ (.single hparent) parent hlt rfl
            exact ⟨id :: path, .inside hid hkind hparent hpath⟩
          · exact ⟨[id], .inside hid hkind hparent (.missing (Nat.le_of_not_lt hlt))⟩
  · exact ⟨[], .missing (Nat.le_of_not_lt hid)⟩

/-- A look-up answers for the first scope of the way that binds the key. -/
theorem Outwards.lookup (h : a.Outwards id path) (key : Key) {n : Nat} (hn : path.length ≤ n) :
    a.lookup key n id = path.findSome? fun j => (a.bindings j).find? key := by
  induction h generalizing n with
  | @missing id hid =>
    cases n with
    | zero => rfl
    | succ n => simp [Arena.lookup, Array.getElem?_eq_none hid]
  | @file id hkind =>
    obtain ⟨n, rfl⟩ := Nat.exists_eq_succ_of_ne_zero (Nat.ne_zero_of_lt hn)
    rw [lookup_succ (lt_of_kind? hkind), if_pos hkind]
    simp
  | @outermost id hid hkind hparent =>
    obtain ⟨n, rfl⟩ := Nat.exists_eq_succ_of_ne_zero (Nat.ne_zero_of_lt hn)
    rw [lookup_succ hid, if_neg hkind, hparent]
    simp
  | @inside id parent path hid hkind hparent _ ih =>
    obtain ⟨n, rfl⟩ := Nat.exists_eq_succ_of_ne_zero (Nat.ne_zero_of_lt hn)
    rw [lookup_succ hid, if_neg hkind, show a.parent? id = some parent from hparent,
      Option.bind_some, ih (Nat.le_of_succ_le_succ hn), List.findSome?_cons]
    cases (a.bindings id).find? key with
    | none => rfl
    | some x => rfl

theorem Outwards.resolve (ha : a.Acyclic) (h : a.Outwards id path) (key : Key) :
    a.resolve id key = path.findSome? fun j => (a.bindings j).find? key :=
  h.lookup key (h.length_le ha)

theorem acyclic_of_older (h : ∀ j parent, a.ParentOf j parent → parent < j) : a.Acyclic := by
  have hlt : ∀ i j, Relation.TransGen a.ParentOf i j → j < i := by
    intro i j hij
    induction hij with
    | single hparent => exact h _ _ hparent
    | tail _ hparent ih => exact Nat.lt_trans (h _ _ hparent) ih
  intro id hid
  exact Nat.lt_irrefl id (hlt id id hid)

end Arena

end MiniMl
