import MiniMl.Proofs.Scope.Chains
import MiniMl.Proofs.Scope.Listings

/-! # Two namespaces in one arena

Names and tags are bound in the same scopes and told apart by their keys. To leave out every key of
one sort from the bindings of an arena is the same as to leave out the calls that have bound it, so
neither namespace sees the other, whatever calls were made.
-/

namespace MiniMl

namespace Bindings

variable {b c : Bindings} {keep : Key → Bool} {key k : Key} {x : Symbol}

def restrict (b : Bindings) (keep : Key → Bool) : Bindings := b.filter fun entry => keep entry.1

theorem find?_restrict (h : keep k) (b : Bindings) : (b.restrict keep).find? k = b.find? k :=
  lookup_filter (fun _ => h) b

theorem restrict_insert_kept (h : keep key) (b : Bindings) (x : Symbol) :
    (b.insert key x).restrict keep = (b.restrict keep).insert key x := by
  unfold restrict insert
  rw [List.filter_cons, if_pos h, List.filter_comm]

theorem restrict_insert_dropped (h : ¬ keep key) (b : Bindings) (x : Symbol) :
    (b.insert key x).restrict keep = b.restrict keep := by
  unfold restrict insert
  rw [List.filter_cons, if_neg h, List.filter_filter]
  apply List.filter_congr
  intro entry _
  by_cases hkey : entry.1 = key
  · simp [hkey, h]
  · simp [hkey]

theorem restrict_append (b c : Bindings) :
    (b.append c).restrict keep = (b.restrict keep).append (c.restrict keep) := by
  unfold append restrict
  rw [List.filter_append, List.filter_comm]
  congr 1
  apply List.filter_congr
  intro entry hentry
  rw [← restrict, find?_restrict (List.mem_filter.mp hentry).2]

theorem plain_restrict (b : Bindings) : (b.restrict (!·.isTag)).plain = b.plain := by
  simp [plain, restrict]

theorem tags_restrict (b : Bindings) : (b.restrict (·.isTag)).tags = b.tags := by
  simp [tags, restrict]

end Bindings

namespace Arena

variable {a : Arena} {keep : Key → Bool} {id j : ScopeId} {k key : Key} {x : Symbol}

def restrict (a : Arena) (keep : Key → Bool) : Arena :=
  ⟨a.scopes.map fun s => { s with bindings := s.bindings.restrict keep }⟩

@[simp] theorem size_restrict : (a.restrict keep).size = a.size := Array.size_map

theorem getElem?_restrict (a : Arena) (keep : Key → Bool) (id : ScopeId) :
    (a.restrict keep).scopes[id]? =
      a.scopes[id]?.map fun s => { s with bindings := s.bindings.restrict keep } :=
  Array.getElem?_map

theorem bindings_restrict (a : Arena) (keep : Key → Bool) (id : ScopeId) :
    (a.restrict keep).bindings id = (a.bindings id).restrict keep := by
  simp only [bindings, getElem?_restrict]
  cases a.scopes[id]? with
  | none => rfl
  | some s => rfl

theorem lookup_restrict (h : keep k) (n : Nat) (id : ScopeId) :
    (a.restrict keep).lookup k n id = a.lookup k n id := by
  induction n generalizing id with
  | zero => rfl
  | succ n ih =>
    simp only [lookup, getElem?_restrict]
    cases a.scopes[id]? with
    | none => rfl
    | some s => simp only [Option.map_some, Bindings.find?_restrict h, ih]

theorem resolve_restrict (h : keep k) (id : ScopeId) :
    (a.restrict keep).resolve id k = a.resolve id k := by
  rw [resolve, size_restrict, lookup_restrict h, resolve]

theorem restrict_create (kind : ScopeKind) (parent : Option ScopeId) :
    (a.create kind parent).2.restrict keep = ((a.restrict keep).create kind parent).2 := by
  simp [restrict, create, Bindings.restrict]

theorem restrict_setParent (parent : Option ScopeId) :
    (a.setParent id parent).restrict keep = (a.restrict keep).setParent id parent := by
  unfold setParent restrict
  congr 1
  apply Array.ext_getElem?
  intro i
  simp only [Array.getElem?_map, Array.getElem?_modify]
  split
  · simp [Function.comp_def]
  · rfl

theorem restrict_setBindings (b : Bindings) :
    (a.setBindings id b).restrict keep = (a.restrict keep).setBindings id (b.restrict keep) := by
  unfold setBindings restrict
  congr 1
  apply Array.ext_getElem?
  intro i
  simp only [Array.getElem?_map, Array.getElem?_modify]
  split
  · simp [Function.comp_def]
  · rfl

theorem setBindings_bindings (a : Arena) (id : ScopeId) : a.setBindings id (a.bindings id) = a := by
  have hs : a.scopes.modify id (fun s => { s with bindings := a.bindings id }) = a.scopes := by
    apply Array.ext_getElem?
    intro i
    rw [Array.getElem?_modify]
    split
    · rename_i hi
      subst hi
      cases h : a.scopes[id]? with
      | none => rfl
      | some s => simp [bindings, h]
    · rfl
  rw [setBindings, hs]

theorem restrict_bind_kept (h : keep key) :
    (a.bind id key x).restrict keep = (a.restrict keep).bind id key x := by
  rw [bind, restrict_setBindings, Bindings.restrict_insert_kept h, bind, bindings_restrict]

theorem restrict_bind_dropped (h : ¬ keep key) :
    (a.bind id key x).restrict keep = a.restrict keep := by
  rw [bind, restrict_setBindings, Bindings.restrict_insert_dropped h, ← bindings_restrict,
    setBindings_bindings]

theorem restrict_append (source target : ScopeId) :
    (a.append source target).restrict keep = (a.restrict keep).append source target := by
  unfold append
  split
  · rfl
  · rw [restrict_setBindings, Bindings.restrict_append, bindings_restrict, bindings_restrict]

end Arena

/-- A call that changes an arena. -/
inductive ScopeCall where
  | create (kind : ScopeKind) (parent : Option ScopeId)
  | insert (id : ScopeId) (symbol : Symbol)
  | insertTag (id : ScopeId) (symbol : Symbol)
  | append (source target : ScopeId)
  | setParent (id : ScopeId) (parent : Option ScopeId)
deriving DecidableEq, Repr

namespace ScopeCall

def run (a : Arena) : ScopeCall → Arena
  | create kind parent => (a.create kind parent).2
  | insert id symbol => a.insert id symbol
  | insertTag id symbol => a.insertTag id symbol
  | append source target => a.append source target
  | setParent id parent => a.setParent id parent

def bound? : ScopeCall → Option (Key × Symbol)
  | insert _ symbol => some (.ofName symbol.name, symbol)
  | insertTag _ symbol => some (.tag symbol.name, symbol)
  | _ => none

def isInsert : ScopeCall → Bool
  | insert _ _ => true
  | _ => false

def isInsertTag : ScopeCall → Bool
  | insertTag _ _ => true
  | _ => false

/-- The call binds none of the keys that are left out. -/
def keeps (keep : Key → Bool) (call : ScopeCall) : Bool := call.bound?.all fun entry => keep entry.1

/-- The symbol that is bound, if any, has the name of no tag. -/
def Unmarked (call : ScopeCall) : Prop :=
  ∀ entry, call.bound? = some entry → ¬ Key.Marked entry.2.name

variable {a : Arena} {keep : Key → Bool} {call : ScopeCall}

theorem restrict_run_kept (h : call.keeps keep) :
    (call.run a).restrict keep = call.run (a.restrict keep) := by
  cases call with
  | create kind parent => exact Arena.restrict_create kind parent
  | insert id symbol => exact Arena.restrict_bind_kept h
  | insertTag id symbol => exact Arena.restrict_bind_kept h
  | append source target => exact Arena.restrict_append source target
  | setParent id parent => exact Arena.restrict_setParent parent

theorem restrict_run_dropped (h : ¬ call.keeps keep) :
    (call.run a).restrict keep = a.restrict keep := by
  cases call with
  | insert id symbol => exact Arena.restrict_bind_dropped h
  | insertTag id symbol => exact Arena.restrict_bind_dropped h
  | create | append | setParent => exact absurd rfl h

/-- A scope hangs where it was created or moved to last, if there is such a scope. -/
theorem parent?_run (call : ScopeCall) (a : Arena) (id : ScopeId) :
    (call.run a).parent? id =
      match call with
      | create _ parent => if id = a.size then parent else a.parent? id
      | setParent moved parent => if id = moved ∧ moved < a.size then parent else a.parent? id
      | _ => a.parent? id := by
  cases call with
  | create kind parent => exact Arena.parent?_create a kind parent id
  | insert target symbol => exact Arena.parent?_setBindings _ _ _ _
  | insertTag target symbol => exact Arena.parent?_setBindings _ _ _ _
  | append source target =>
    change (a.append source target).parent? id = a.parent? id
    unfold Arena.append
    split
    · rfl
    · exact Arena.parent?_setBindings _ _ _ _
  | setParent moved parent => exact Arena.parent?_setParent a moved parent id

theorem kind?_run (call : ScopeCall) (a : Arena) (id : ScopeId) :
    (call.run a).kind? id =
      match call with
      | create kind _ => if id = a.size then some kind else a.kind? id
      | _ => a.kind? id := by
  cases call with
  | create kind parent => exact Arena.kind?_create a kind parent id
  | insert target symbol => exact Arena.kind?_setBindings _ _ _ _
  | insertTag target symbol => exact Arena.kind?_setBindings _ _ _ _
  | append source target =>
    change (a.append source target).kind? id = a.kind? id
    unfold Arena.append
    split
    · rfl
    · exact Arena.kind?_setBindings _ _ _ _
  | setParent moved parent => exact Arena.kind?_setParent a moved parent id

theorem keeps_plain (h : call.Unmarked) : call.keeps (!·.isTag) = !call.isInsertTag := by
  cases call with
  | insert id symbol =>
    have hkey := Key.ofName_of_not_marked (h _ rfl)
    simp [keeps, bound?, hkey, Key.isTag, isInsertTag]
  | insertTag | create | append | setParent => rfl

theorem keeps_tags (h : call.Unmarked) : call.keeps (·.isTag) = !call.isInsert := by
  cases call with
  | insert id symbol =>
    have hkey := Key.ofName_of_not_marked (h _ rfl)
    simp [keeps, bound?, hkey, Key.isTag, isInsert]
  | insertTag | create | append | setParent => rfl

end ScopeCall

namespace Arena

variable {a : Arena} {source target : ScopeId} {call : ScopeCall} {calls : List ScopeCall}

def history (calls : List ScopeCall) : Arena := calls.foldl ScopeCall.run .empty

theorem restrict_foldl (keep : Key → Bool) (calls : List ScopeCall) (a : Arena) :
    (calls.foldl ScopeCall.run a).restrict keep =
      (calls.filter (·.keeps keep)).foldl ScopeCall.run (a.restrict keep) := by
  induction calls generalizing a with
  | nil => rfl
  | cons call calls ih =>
    rw [List.foldl_cons, ih]
    by_cases h : call.keeps keep
    · rw [List.filter_cons_of_pos h, List.foldl_cons, ScopeCall.restrict_run_kept h]
    · rw [List.filter_cons_of_neg h, ScopeCall.restrict_run_dropped h]

/-- Bindings that are left out in the end need not have been made. -/
theorem restrict_history (keep : Key → Bool) (calls : List ScopeCall) :
    (history calls).restrict keep = history (calls.filter (·.keeps keep)) := by
  have hempty : Arena.empty.restrict keep = .empty := by simp [restrict, empty]
  rw [history, restrict_foldl, hempty, history]

/-! To copy bindings is to unite them, and to do it twice is to do it once. -/

theorem append_append (a : Arena) (source target : ScopeId) :
    (a.append source target).append source target = a.append source target := by
  by_cases hne : source = target
  · unfold append
    rw [if_pos hne, if_pos hne]
  rcases Nat.lt_or_ge target a.size with ht | ht
  · have hunited : (a.append source target).bindings target =
        (a.bindings target).append (a.bindings source) := by
      rw [append, if_neg hne, bindings_setBindings ht, if_pos rfl]
    have hsource : (a.append source target).bindings source = a.bindings source := by
      rw [append, if_neg hne, bindings_setBindings ht, if_neg hne]
    rw [append, if_neg hne, hunited, hsource, Bindings.append_append, ← hunited,
      setBindings_bindings]
  · have hsame : a.append source target = a := by
      rw [append, if_neg hne, setBindings_of_size_le ht]
    rw [hsame, hsame]

/-- What the bindings of one scope are when those of another have been copied into it. -/
structure Unites (a : Arena) (source target : ScopeId) (b : Arena) : Prop where
  names : ∀ name, b.findHere? target name =
    (a.findHere? target name).or (a.findHere? source name)
  tags : ∀ name, b.findTagHere? target name =
    (a.findTagHere? target name).or (a.findTagHere? source name)
  again : b.append source target = b
  others : ∀ j, j ≠ target → b.scopes[j]? = a.scopes[j]?
  kind : b.kind? target = a.kind? target
  parent : b.parent? target = a.parent? target

theorem append_unites (ht : target < a.size) : a.Unites source target (a.append source target) := by
  have hfind : ∀ key, ((a.append source target).bindings target).find? key =
      ((a.bindings target).find? key).or ((a.bindings source).find? key) := by
    intro key
    by_cases hne : source = target
    · rw [append, if_pos hne, hne, Option.or_self]
    · rw [find?_append hne ht, if_pos rfl]
  constructor
  · intro name
    exact hfind (.ofName name)
  · intro name
    exact hfind (.tag name)
  · exact append_append a source target
  · intro j hj
    unfold append
    split
    · rfl
    · simp [setBindings, Array.getElem?_modify, Ne.symm hj]
  · exact ScopeCall.kind?_run (.append source target) a target
  · exact ScopeCall.parent?_run (.append source target) a target

/-! Every scope stays tidy. -/

theorem Tidy.run (h : a.Tidy) (hcall : call.Unmarked) : (call.run a).Tidy := by
  cases call with
  | create kind parent =>
    intro j
    change ((a.create kind parent).2.bindings j).Tidy
    rw [bindings_create]
    exact h j
  | insert id x =>
    have hx := hcall _ rfl
    exact h.setBindings ((h id).insert hx (.inl (Key.ofName_of_not_marked hx))) id
  | insertTag id x => exact h.setBindings ((h id).insert (hcall _ rfl) (.inr rfl)) id
  | append source target =>
    change (a.append source target).Tidy
    unfold append
    split
    · exact h
    · exact h.setBindings ((h target).append (h source)) target
  | setParent id parent =>
    intro j
    change ((a.setParent id parent).bindings j).Tidy
    rw [bindings_setParent]
    exact h j

theorem history_tidy (h : ∀ call ∈ calls, call.Unmarked) : (history calls).Tidy := by
  have hrun : ∀ a : Arena, a.Tidy → (calls.foldl ScopeCall.run a).Tidy := by
    induction calls with
    | nil => exact fun _ => id
    | cons call calls ih =>
      obtain ⟨hcall, hcalls⟩ := List.forall_mem_cons.mp h
      exact fun a ha => ih hcalls _ (ha.run hcall)
  refine hrun .empty fun id => ?_
  rw [bindings_of_size_le (Nat.zero_le id)]
  exact .nil

/-- Names are found and listed alike. -/
structure SameNames (a b : Arena) : Prop where
  find? : ∀ id name, ¬ Key.Marked name → a.find? id name = b.find? id name
  findToken? : ∀ id token, ¬ Key.Marked token.value → a.findToken? id token = b.findToken? id token
  findHere? : ∀ id name, ¬ Key.Marked name → a.findHere? id name = b.findHere? id name
  dump : ∀ id s, a.dump id s = b.dump id s

structure SameTags (a b : Arena) : Prop where
  findTag? : ∀ id name, a.findTag? id name = b.findTag? id name
  findTagHere? : ∀ id name, a.findTagHere? id name = b.findTagHere? id name
  tags : ∀ id, a.tags id = b.tags id

theorem restrict_sameNames (a : Arena) : a.SameNames (a.restrict (!·.isTag)) := by
  have hkeep : ∀ name, ¬ Key.Marked name → (!(Key.ofName name).isTag) = true := by
    intro name hname
    rw [Key.ofName_of_not_marked hname]
    rfl
  have hfind : ∀ id name, ¬ Key.Marked name →
      a.find? id name = (a.restrict (!·.isTag)).find? id name := by
    intro id name hname
    exact (resolve_restrict (hkeep name hname) id).symm
  constructor
  · exact hfind
  · intro id token htoken
    exact hfind id token.value htoken
  · intro id name hname
    rw [findHere?, findHere?, bindings_restrict, Bindings.find?_restrict (hkeep name hname)]
  · intro id s
    rw [dump, dump, bindings_restrict, Bindings.plain_restrict]

theorem restrict_sameTags (a : Arena) : a.SameTags (a.restrict (·.isTag)) := by
  constructor
  · intro id name
    exact (resolve_restrict (k := .tag name) rfl id).symm
  · intro id name
    rw [findTagHere?, findTagHere?, bindings_restrict, Bindings.find?_restrict rfl]
  · intro id
    rw [tags, tags, bindings_restrict, Bindings.tags_restrict]

theorem findTag?_eq (a : Arena) (id : ScopeId) (name : String) :
    a.findTag? id name = a.find? id (name ++ "@:tag") ∧
      a.findTagHere? id name = a.findHere? id (name ++ "@:tag") := by
  rw [find?, findHere?, Key.ofName_marked]
  exact ⟨rfl, rfl⟩

/-- The arena behind any calls is two arenas in one: names are looked up and listed as if no tag had
been bound, and tags as if no name had been. A look-up answers for the nearest scope on the one way
to the first file scope. Copying unites the bindings of each namespace, and listings hold all of one. -/
theorem namespaces_apart (h : ∀ call ∈ calls, call.Unmarked) (ha : (history calls).Acyclic) :
    let a := history calls
    (∀ id name, a.findTag? id name = a.find? id (name ++ "@:tag") ∧
      a.findTagHere? id name = a.findHere? id (name ++ "@:tag")) ∧
    a.SameNames (history (calls.filter (!·.isInsertTag))) ∧
    a.SameTags (history (calls.filter (!·.isInsert))) ∧
    (∀ id, ∃ path, a.Outwards id path ∧ (∀ other, a.Outwards id other → other = path) ∧
      (∀ name, a.find? id name = path.findSome? (a.findHere? · name)) ∧
      ∀ name, a.findTag? id name = path.findSome? (a.findTagHere? · name)) ∧
    (∀ source target, target < a.size → a.Unites source target (a.append source target)) ∧
    ∀ id, Listing (a.tags id) (a.findTagHere? id) ∧
      ∃ xs, Listing xs (a.findHere? id) ∧
        ∀ s, a.dump id s = xs.map fun x => x.name ++ " [" ++ x.typeName s ++ "]" := by
  intro a
  have htidy := history_tidy h
  refine ⟨findTag?_eq a, ?names, ?tags, ?nearest, fun source target => append_unites, ?listings⟩
  case names =>
    rw [← List.filter_congr fun call hcall => ScopeCall.keeps_plain (h call hcall),
      ← restrict_history]
    exact restrict_sameNames a
  case tags =>
    rw [← List.filter_congr fun call hcall => ScopeCall.keeps_tags (h call hcall),
      ← restrict_history]
    exact restrict_sameTags a
  case nearest =>
    intro id
    obtain ⟨path, hpath⟩ := ha.outwards id
    exact ⟨path, hpath, fun other hother => hother.unique hpath,
      fun name => hpath.resolve ha (.ofName name), fun name => hpath.resolve ha (.tag name)⟩
  case listings =>
    intro id
    exact ⟨listing_tags (htidy id), _, listing_plain (htidy id), dump_eq (htidy id)⟩

/-- A name of a block and the tag of an outer function of that name, seen from a scope that is moved
into the block. -/
theorem namespaces_apart_shadowed :
    let outer := Symbol.variableOf 0 ⟨.identifier, "f", .null⟩ 0
    let inner := Symbol.variableOf 1 ⟨.identifier, "f", .null⟩ 1
    let calls : List ScopeCall := [.create .file none, .create .block (some 0),
      .create .function none, .insert 0 outer, .insertTag 0 outer, .insert 1 inner, .append 0 1,
      .setParent 2 (some 1)]
    (∀ call ∈ calls, call.Unmarked) ∧ (history calls).Acyclic ∧
    (history calls).parent? 2 = some 1 ∧
    (history calls).find? 2 "f" = (history (calls.filter (!·.isInsertTag))).find? 2 "f" ∧
    (history calls).find? 2 "f" = some inner ∧ (history calls).findTag? 2 "f" = some outer ∧
    (history calls).Unites 1 0 ((history calls).append 1 0) := by
  intro outer inner calls
  have hunmarked : ∀ call ∈ calls, call.Unmarked := by
    simp only [calls, List.forall_mem_cons, ScopeCall.Unmarked, ScopeCall.bound?]
    simp only [reduceCtorEq, false_implies, implies_true, Option.some.injEq, forall_eq', true_and]
    decide
  have hmoved : (history calls).parent? 2 = some 1 :=
    (ScopeCall.parent?_run (.setParent 2 (some 1)) _ 2).trans (by decide)
  have holder : ∀ j < 3, ∀ parent ∈ (history calls).parent? j, parent < j := by decide +kernel
  have hacyclic : (history calls).Acyclic := by
    apply acyclic_of_older
    intro j parent hparent
    exact holder j (lt_of_parentOf hparent) parent hparent
  obtain ⟨_, hnames, _, _, hunites, _⟩ := namespaces_apart hunmarked hacyclic
  have hsame := hnames.find? 2 "f" (by decide)
  have hfound : (history calls).find? 2 "f" = some inner := by decide +kernel
  have htagged : (history calls).findTag? 2 "f" = some outer := by decide +kernel
  have hunited := hunites 1 0 (by decide)
  exact ⟨hunmarked, hacyclic, hmoved, hsame, hfound, htagged, hunited⟩

end Arena

end MiniMl
