import MiniMl.Proofs.Scope.Arena

/-! # Scopes at other locations

To relocate data is to change the locations in it and nothing else. Names are bound and found the
same in relocated scopes, so the symbols found are the relocated ones.
-/

namespace MiniMl

variable (f : Location → Location)

def Token.relocate (t : Token) : Token := { t with location := f t.location }

def Diagnostic.relocate (d : Diagnostic) : Diagnostic := { d with location := f d.location }

def Symbol.relocate (x : Symbol) : Symbol := { x with token := x.token.relocate f }

def Bindings.relocate (b : Bindings) : Bindings := b.map fun entry => (entry.1, entry.2.relocate f)

def Scope.relocate (s : Scope) : Scope := { s with bindings := s.bindings.relocate f }

def Arena.relocate (a : Arena) : Arena := ⟨a.scopes.map (Scope.relocate f)⟩

namespace Token

variable (t : Token)

@[simp] theorem relocate_kind : (t.relocate f).kind = t.kind := rfl

@[simp] theorem relocate_value : (t.relocate f).value = t.value := rfl

@[simp] theorem relocate_location : (t.relocate f).location = f t.location := rfl

end Token

namespace Symbol

variable (x : Symbol)

@[simp] theorem relocate_name : (x.relocate f).name = x.name := rfl

@[simp] theorem relocate_cell : (x.relocate f).cell = x.cell := rfl

@[simp] theorem relocate_signature? : (x.relocate f).signature? = x.signature? := rfl

@[simp] theorem relocate_typeName (s : Store) : (x.relocate f).typeName s = x.typeName s := rfl

end Symbol

namespace Bindings

variable (b : Bindings)

theorem relocate_find? (key : Key) :
    (b.relocate f).find? key = (b.find? key).map (Symbol.relocate f) := by
  induction b with
  | nil => rfl
  | cons entry b ih =>
    obtain ⟨bound, x⟩ := entry
    change List.lookup key ((bound, x.relocate f) :: Bindings.relocate f b) =
      (List.lookup key ((bound, x) :: b)).map _
    rw [List.lookup_cons, List.lookup_cons]
    cases key == bound with
    | true => rfl
    | false => exact ih

theorem relocate_filter (keep : Key → Bool) :
    (b.relocate f).filter (fun entry => keep entry.1) =
      relocate f (b.filter fun entry => keep entry.1) := List.filter_map

theorem relocate_insert (key : Key) (x : Symbol) :
    (b.insert key x).relocate f = (b.relocate f).insert key (x.relocate f) := by
  rw [insert, insert, relocate_filter f b fun bound => bound ≠ key]
  rfl

theorem relocate_append (other : Bindings) :
    (b.append other).relocate f = (b.relocate f).append (other.relocate f) := by
  have hfree : ∀ key, ((b.relocate f).find? key).isNone = (b.find? key).isNone := by
    intro key
    rw [relocate_find?, Option.isNone_map]
  simp only [append, hfree]
  rw [relocate_filter f other fun key => (b.find? key).isNone]
  exact List.map_append

theorem relocate_tags : (b.relocate f).tags = b.tags.map (Symbol.relocate f) := by
  have hmap : ∀ c : Bindings, (c.relocate f).map (·.2) = (c.map (·.2)).map (Symbol.relocate f) := by
    intro c
    simp [relocate]
  rw [tags, tags, relocate_filter f b Key.isTag, hmap]
  refine (List.map_mergeSort fun x _ y _ => ?_).symm
  rfl

end Bindings

def Scope.outline (s : Scope) : ScopeKind × Option ScopeId × List Key :=
  (s.kind, s.parent, s.bindings.map (·.1))

/-- The scopes in the order of their numbers, without what their keys are bound to. -/
def Arena.outline (a : Arena) : List (ScopeKind × Option ScopeId × List Key) :=
  a.scopes.toList.map Scope.outline

namespace Arena

variable (a : Arena)

theorem relocate_scope (id : ScopeId) :
    (a.relocate f).scopes[id]? = a.scopes[id]?.map (Scope.relocate f) := by
  simp [relocate]

@[simp] theorem relocate_size : (a.relocate f).size = a.size := Array.size_map

theorem relocate_kind? (id : ScopeId) : (a.relocate f).kind? id = a.kind? id := by
  rw [kind?, kind?, relocate_scope]
  cases a.scopes[id]? with
  | none => rfl
  | some s => rfl

theorem relocate_parent? (id : ScopeId) : (a.relocate f).parent? id = a.parent? id := by
  rw [parent?, parent?, relocate_scope]
  cases a.scopes[id]? with
  | none => rfl
  | some s => rfl

theorem relocate_bindings (id : ScopeId) :
    (a.relocate f).bindings id = (a.bindings id).relocate f := by
  rw [bindings, bindings, relocate_scope]
  cases a.scopes[id]? with
  | none => rfl
  | some s => rfl

theorem relocate_create (kind : ScopeKind) (parent : Option ScopeId) :
    (a.create kind parent).2.relocate f = ((a.relocate f).create kind parent).2 := by
  simp only [create, relocate, Array.map_push]
  rfl

theorem relocate_setBindings (id : ScopeId) (b : Bindings) :
    (a.setBindings id b).relocate f = (a.relocate f).setBindings id (b.relocate f) := by
  simp only [setBindings, relocate, mk.injEq]
  apply Array.ext_getElem?
  intro i
  simp only [Array.getElem?_map, Array.getElem?_modify]
  split
  · cases a.scopes[i]? with
    | none => rfl
    | some s => rfl
  · rfl

theorem relocate_bind (id : ScopeId) (key : Key) (x : Symbol) :
    (a.bind id key x).relocate f = (a.relocate f).bind id key (x.relocate f) := by
  rw [bind, bind, relocate_setBindings, relocate_bindings, Bindings.relocate_insert]

theorem relocate_insert (id : ScopeId) (x : Symbol) :
    (a.insert id x).relocate f = (a.relocate f).insert id (x.relocate f) :=
  a.relocate_bind f id _ x

theorem relocate_insertTag (id : ScopeId) (x : Symbol) :
    (a.insertTag id x).relocate f = (a.relocate f).insertTag id (x.relocate f) :=
  a.relocate_bind f id _ x

theorem relocate_append (source target : ScopeId) :
    (a.append source target).relocate f = (a.relocate f).append source target := by
  unfold append
  split
  · rfl
  · rw [relocate_setBindings, relocate_bindings, relocate_bindings, Bindings.relocate_append]

theorem relocate_lookup (key : Key) (bound : Nat) (id : ScopeId) :
    (a.relocate f).lookup key bound id = (a.lookup key bound id).map (Symbol.relocate f) := by
  induction bound generalizing id with
  | zero => rfl
  | succ bound ih =>
    by_cases hid : id < a.size
    · have hid' : id < (a.relocate f).size := by rwa [relocate_size]
      have hparent : ((a.relocate f).parent? id).bind ((a.relocate f).lookup key bound) =
          ((a.parent? id).bind (a.lookup key bound)).map (Symbol.relocate f) := by
        rw [relocate_parent?]
        cases a.parent? id with
        | none => rfl
        | some parent => exact ih parent
      rw [lookup_succ hid, lookup_succ hid', relocate_bindings, Bindings.relocate_find?,
        relocate_kind?, hparent, Option.map_or]
      split
      · rfl
      · rfl
    · have hnone : a.scopes[id]? = none := Array.getElem?_eq_none (Nat.le_of_not_lt hid)
      rw [lookup, lookup, relocate_scope, hnone]
      rfl

theorem relocate_findToken? (id : ScopeId) (name : Token) :
    (a.relocate f).findToken? id (name.relocate f) =
      (a.findToken? id name).map (Symbol.relocate f) := by
  rw [findToken?, find?, resolve, relocate_lookup, relocate_size]
  rfl

theorem relocate_tags (id : ScopeId) :
    (a.relocate f).tags id = (a.tags id).map (Symbol.relocate f) := by
  rw [tags, relocate_bindings, Bindings.relocate_tags]
  rfl

theorem relocate_outline : (a.relocate f).outline = a.outline := by
  rw [outline, relocate, Array.toList_map, List.map_map]
  refine List.map_congr_left fun s _ => ?_
  simp [Scope.outline, Scope.relocate, Bindings.relocate, Function.comp_def]

theorem relocate_id (a : Arena) : a.relocate id = a := by
  have hbindings : ∀ b : Bindings, b.relocate id = b := fun b => List.map_id b
  have hscope : Scope.relocate id = id := by
    funext s
    rw [Scope.relocate, hbindings]
    rfl
  rw [relocate, hscope, Array.map_id]

end Arena

end MiniMl
