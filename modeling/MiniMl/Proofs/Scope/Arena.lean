import MiniMl.Scope.Arena

/-! # What the scopes bind

The operations on scopes, by what can be looked up afterwards. A look-up in a chain of scopes
depends on the scopes of the chain only.
-/

namespace MiniMl

namespace Bindings

variable {b c : Bindings} {key k : Key} {x : Symbol}

theorem lookup_filter {keep : Key × Symbol → Bool} (h : ∀ x, keep (k, x) = true) (b : Bindings) :
    (b.filter keep).lookup k = b.lookup k := by
  induction b with
  | nil => rfl
  | cons entry b ih =>
    obtain ⟨l, x⟩ := entry
    by_cases hl : k = l
    · subst hl
      rw [List.filter_cons_of_pos (h x), List.lookup_cons_self, List.lookup_cons_self]
    · have hl' : (k == l) = false := by simpa using hl
      rw [List.filter_cons]
      split
      · simp only [List.lookup_cons, hl', ih]
      · simp only [List.lookup_cons, hl', ih]

theorem find?_insert (b : Bindings) (key k : Key) (x : Symbol) :
    (b.insert key x).find? k = if k = key then some x else b.find? k := by
  by_cases h : k = key
  · subst h
    rw [if_pos rfl, find?, insert, List.lookup_cons_self]
  · have h' : (k == key) = false := by simpa using h
    rw [if_neg h, find?, insert, List.lookup_cons, h']
    exact lookup_filter (fun _ => by simpa using h) b

/-- Bindings behind others only matter for the keys that those leave free. -/
theorem find?_behind (b c : Bindings) (k : Key) :
    find? (b ++ c) k = (b.find? k).or (c.find? k) := List.lookup_append

theorem find?_append (b c : Bindings) (k : Key) :
    (b.append c).find? k = (b.find? k).or (c.find? k) := by
  rw [append, find?_behind]
  cases h : b.find? k with
  | some x => rfl
  | none => exact lookup_filter (by simp [h]) c

end Bindings

namespace Arena

variable {a : Arena} {id j : ScopeId} {k : Key} {x : Symbol}

theorem bindings_of_size_le (h : a.size ≤ id) : a.bindings id = [] := by
  simp only [bindings, Array.getElem?_eq_none h, Option.map_none, Option.getD_none]

@[simp] theorem size_create (a : Arena) (kind : ScopeKind) (parent : Option ScopeId) :
    (a.create kind parent).2.size = a.size + 1 := Array.size_push _

theorem bindings_create (a : Arena) (kind : ScopeKind) (parent : Option ScopeId) (id : ScopeId) :
    (a.create kind parent).2.bindings id = a.bindings id := by
  simp only [bindings, create, Array.getElem?_push]
  split
  · rename_i h
    rw [h, Array.getElem?_eq_none (Nat.le_refl _)]
    rfl
  · rfl

theorem parent?_create (a : Arena) (kind : ScopeKind) (parent : Option ScopeId) (id : ScopeId) :
    (a.create kind parent).2.parent? id = if id = a.size then parent else a.parent? id := by
  simp only [parent?, create, Array.getElem?_push, size]
  by_cases h : id = a.scopes.size
  · simp only [h, if_true, Option.bind_some]
  · simp only [h, if_false]

theorem kind?_create (a : Arena) (kind : ScopeKind) (parent : Option ScopeId) (id : ScopeId) :
    (a.create kind parent).2.kind? id = if id = a.size then some kind else a.kind? id := by
  simp only [kind?, create, Array.getElem?_push, size]
  by_cases h : id = a.scopes.size
  · simp only [h, if_true, Option.map_some]
  · simp only [h, if_false]

@[simp] theorem size_setBindings (a : Arena) (id : ScopeId) (b : Bindings) :
    (a.setBindings id b).size = a.size := Array.size_modify

@[simp] theorem parent?_setBindings (a : Arena) (id : ScopeId) (b : Bindings) (j : ScopeId) :
    (a.setBindings id b).parent? j = a.parent? j := by
  simp only [parent?, setBindings, Array.getElem?_modify]
  split
  · cases a.scopes[j]? with
    | none => rfl
    | some s => rfl
  · rfl

@[simp] theorem kind?_setBindings (a : Arena) (id : ScopeId) (b : Bindings) (j : ScopeId) :
    (a.setBindings id b).kind? j = a.kind? j := by
  simp only [kind?, setBindings, Array.getElem?_modify]
  split
  · cases a.scopes[j]? with
    | none => rfl
    | some s => rfl
  · rfl

theorem parent?_setParent (a : Arena) (id : ScopeId) (parent : Option ScopeId) (j : ScopeId) :
    (a.setParent id parent).parent? j =
      if j = id ∧ id < a.size then parent else a.parent? j := by
  simp only [parent?, setParent, Array.getElem?_modify]
  by_cases hj : j = id
  · subst hj
    rw [if_pos rfl]
    by_cases hlt : j < a.size
    · rw [if_pos ⟨rfl, hlt⟩, Array.getElem?_eq_getElem hlt]
      rfl
    · rw [if_neg fun h => hlt h.2, Array.getElem?_eq_none (Nat.not_lt.mp hlt)]
      rfl
  · rw [if_neg (Ne.symm hj), if_neg fun h => hj h.1]

theorem kind?_setParent (a : Arena) (id : ScopeId) (parent : Option ScopeId) (j : ScopeId) :
    (a.setParent id parent).kind? j = a.kind? j := by
  simp only [kind?, setParent, Array.getElem?_modify]
  split
  · cases a.scopes[j]? with
    | none => rfl
    | some s => rfl
  · rfl

theorem bindings_setParent (a : Arena) (id : ScopeId) (parent : Option ScopeId) (j : ScopeId) :
    (a.setParent id parent).bindings j = a.bindings j := by
  simp only [bindings, setParent, Array.getElem?_modify]
  split
  · cases a.scopes[j]? with
    | none => rfl
    | some s => rfl
  · rfl

theorem bindings_setBindings (h : id < a.size) (b : Bindings) (j : ScopeId) :
    (a.setBindings id b).bindings j = if j = id then b else a.bindings j := by
  simp only [bindings, setBindings, Array.getElem?_modify]
  by_cases hj : j = id
  · subst hj
    have hs : a.scopes[j]? = some a.scopes[j] := Array.getElem?_eq_getElem h
    simp [hs]
  · simp [hj, Ne.symm hj]

theorem setBindings_of_size_le (h : a.size ≤ id) (b : Bindings) : a.setBindings id b = a := by
  have hs : a.scopes.modify id (fun s => { s with bindings := b }) = a.scopes := by
    apply Array.ext_getElem?
    intro i
    rw [Array.getElem?_modify]
    split
    · rename_i hi
      subst hi
      rw [Array.getElem?_eq_none h]
      rfl
    · rfl
  rw [setBindings, hs]

theorem find?_bind (h : id < a.size) (key : Key) (x : Symbol) (j : ScopeId) (k : Key) :
    ((a.bind id key x).bindings j).find? k =
      if j = id ∧ k = key then some x else (a.bindings j).find? k := by
  rw [bind, bindings_setBindings h]
  by_cases hj : j = id
  · subst hj
    simp only [if_true, true_and, Bindings.find?_insert]
  · simp only [hj, if_false, false_and]

theorem find?_append {source target : ScopeId} (hne : source ≠ target) (h : target < a.size)
    (j : ScopeId) (k : Key) :
    ((a.append source target).bindings j).find? k =
      if j = target then ((a.bindings target).find? k).or ((a.bindings source).find? k)
      else (a.bindings j).find? k := by
  rw [append, if_neg hne, bindings_setBindings h]
  split
  · rw [Bindings.find?_append]
  · rfl

theorem lookup_succ (h : id < a.size) (k : Key) (n : Nat) :
    a.lookup k (n + 1) id = ((a.bindings id).find? k).or
      (if a.kind? id = some .file then none else (a.parent? id).bind (a.lookup k n)) := by
  have hs : a.scopes[id]? = some a.scopes[id] := Array.getElem?_eq_getElem h
  simp only [lookup, bindings, kind?, parent?, hs, Option.map_some, Option.getD_some,
    Option.bind_some]
  cases (a.scopes[id].bindings.find? k) with
  | some x => rfl
  | none =>
    simp only [Option.none_or, Option.some.injEq]
    split
    · rfl
    · cases a.scopes[id].parent with
      | none => rfl
      | some parent => rfl

/-- A look-up depends on the scope and on older ones, and not on its bound. -/
theorem lookup_congr {b : Arena} {n m : Nat}
    (h : ∀ j ≤ id, b.bindings j = a.bindings j ∧ b.kind? j = a.kind? j ∧
      b.parent? j = a.parent? j)
    (hparents : ∀ j parent, a.parent? j = some parent → parent < j)
    (ha : id < a.size) (hb : id < b.size) (hn : id < n) (hm : id < m) :
    b.lookup k n id = a.lookup k m id := by
  induction n generalizing m id with
  | zero => exact absurd hn (Nat.not_lt_zero id)
  | succ n ih =>
    obtain ⟨m, rfl⟩ := Nat.exists_eq_succ_of_ne_zero (Nat.ne_zero_of_lt hm)
    obtain ⟨hbindings, hkind, hparent⟩ := h id (Nat.le_refl id)
    rw [lookup_succ ha, lookup_succ hb, hbindings, hkind, hparent]
    cases hp : a.parent? id with
    | none => rfl
    | some parent =>
      have hlt := hparents id parent hp
      simp only [Option.bind_some]
      have hn' := Nat.lt_of_lt_of_le hlt (Nat.le_of_lt_succ hn)
      have hm' := Nat.lt_of_lt_of_le hlt (Nat.le_of_lt_succ hm)
      rw [ih (fun j hj => h j (Nat.le_trans hj (Nat.le_of_lt hlt))) (Nat.lt_trans hlt ha)
        (Nat.lt_trans hlt hb) hn' hm']

def Holds (a : Arena) (P : Symbol → Prop) : Prop :=
  ∀ id k x, (a.bindings id).find? k = some x → P x

section Holds

variable {P Q : Symbol → Prop}

theorem Holds.imp (h : a.Holds P) (hpq : ∀ x, P x → Q x) : a.Holds Q :=
  fun id k x hx => hpq x (h id k x hx)

theorem Holds.create (h : a.Holds P) (kind : ScopeKind) (parent : Option ScopeId) :
    (a.create kind parent).2.Holds P := by
  intro id k x hx
  rw [bindings_create] at hx
  exact h id k x hx

theorem Holds.bind (h : a.Holds P) (id : ScopeId) (key : Key) (hx : P x) :
    (a.bind id key x).Holds P := by
  rcases Nat.lt_or_ge id a.size with hid | hid
  · intro j k y hy
    rw [find?_bind hid] at hy
    split at hy
    · cases hy
      exact hx
    · exact h j k y hy
  · rw [Arena.bind, setBindings_of_size_le hid]
    exact h

theorem Holds.append (h : a.Holds P) (source target : ScopeId) :
    (a.append source target).Holds P := by
  by_cases hne : source = target
  · rw [Arena.append, if_pos hne]
    exact h
  rcases Nat.lt_or_ge target a.size with ht | ht
  · intro j k y hy
    rw [find?_append hne ht] at hy
    split at hy
    · rcases Option.or_eq_some_iff.mp hy with hy | ⟨_, hy⟩
      · exact h target k y hy
      · exact h source k y hy
    · exact h j k y hy
  · rw [Arena.append, if_neg hne, setBindings_of_size_le ht]
    exact h

theorem Holds.lookup (h : a.Holds P) {n : Nat} (hx : a.lookup k n id = some x) : P x := by
  induction n generalizing id with
  | zero => cases hx
  | succ n ih =>
    unfold Arena.lookup at hx
    split at hx
    · cases hx
    · rename_i s hs
      split at hx
      · rename_i y hy
        cases hx
        refine h id k x ?_
        rw [bindings, hs]
        exact hy
      · split at hx
        · cases hx
        · split at hx
          · exact ih hx
          · cases hx

end Holds

end Arena

end MiniMl
