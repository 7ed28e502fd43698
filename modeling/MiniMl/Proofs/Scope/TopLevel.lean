import MiniMl.Proofs.Scope.References

/-! # What the file scope binds

Only definitions at the top level write to the file scope, one behind the other. So a name stands
there for its last definition and a tag for its last definition as a function. Whatever is bound
inside a statement ends with the scope of the statement.
-/

namespace MiniMl

def Binding.name (b : Binding) : String := b.symbol.token.value

def Binding.isFunction : Binding → Bool
  | .value _ _ => false
  | .function _ _ _ _ _ => true

/-- The symbol of the last of these bindings that binds the name. -/
def Binding.lastNamed? (bs : List Binding) (name : String) : Option Symbol :=
  (bs.filter (·.name = name)).getLast?.map Binding.symbol

def Stmt.definition? (s : Stmt) : Option Binding :=
  match s.kind with
  | .define b => some b
  | _ => none

/-- What occurs inside a statement: all of an expression, and the parameters and the value of a
definition. -/
def Stmt.inner (s : Stmt) : List Occurrence :=
  match s.kind with
  | .define b => (b.occurrences []).tail
  | _ => s.occurrences

def Program.definitions (p : Program) : List Binding := p.stmts.filterMap Stmt.definition?

theorem Binding.lastNamed?_cons (b : Binding) (bs : List Binding) (name : String) :
    lastNamed? (b :: bs) name =
      (lastNamed? bs name).or (if b.name = name then some b.symbol else none) := by
  unfold lastNamed?
  by_cases h : b.name = name
  · rw [List.filter_cons_of_pos (by simpa using h), List.getLast?_cons, if_pos h]
    cases (bs.filter (·.name = name)).getLast? with
    | none => rfl
    | some c => rfl
  · rw [List.filter_cons_of_neg (by simpa using h), if_neg h, Option.or_none]

theorem Binding.mem_of_lastNamed? {bs : List Binding} {name : String} {x : Symbol}
    (h : lastNamed? bs name = some x) : ∃ b ∈ bs, b.name = name ∧ b.symbol = x := by
  obtain ⟨b, hb, rfl⟩ := Option.map_eq_some_iff.mp h
  obtain ⟨hmem, hname⟩ := List.mem_filter.mp (List.mem_of_getLast? hb)
  exact ⟨b, hmem, of_decide_eq_true hname, rfl⟩

namespace Bindings

def Distinct (b : Bindings) : Prop := (b.map (·.1)).Nodup

theorem Distinct.insert {b : Bindings} (h : b.Distinct) (key : Key) (x : Symbol) :
    (b.insert key x).Distinct := by
  refine List.nodup_cons.mpr ⟨?_, h.sublist (List.filter_sublist.map _)⟩
  simp

theorem Distinct.mem_iff {b : Bindings} (h : b.Distinct) {key : Key} {x : Symbol} :
    (key, x) ∈ b ↔ b.find? key = some x := by
  induction b with
  | nil => simp [find?]
  | cons entry b ih =>
    obtain ⟨k, y⟩ := entry
    obtain ⟨hk, hb⟩ := List.nodup_cons.mp h
    rw [List.mem_cons, ih hb, find?, find?, List.lookup_cons]
    by_cases hkey : key = k
    · subst hkey
      have hnone : (key, x) ∉ b := fun hx => hk (List.mem_map.mpr ⟨(key, x), hx, rfl⟩)
      rw [ih hb, find?] at hnone
      simp [hnone, eq_comm]
    · have hkey' : (key == k) = false := by simpa using hkey
      simp [hkey, hkey']

theorem mem_tags {b : Bindings} {x : Symbol} : x ∈ b.tags ↔ ∃ name, (.tag name, x) ∈ b := by
  simp only [tags, List.mem_mergeSort, List.mem_map, List.mem_filter]
  constructor
  · rintro ⟨⟨key, y⟩, ⟨hmem, htag⟩, rfl⟩
    cases key with
    | plain name => cases htag
    | tag name => exact ⟨name, hmem⟩
  · rintro ⟨name, hmem⟩
    exact ⟨(.tag name, x), ⟨hmem, rfl⟩, rfl⟩

/-- The definition takes the place of an earlier one of its name; a variable leaves the tag of the
name alone. -/
def define (b : Bindings) (d : Binding) : Bindings :=
  if d.isFunction then
    (b.insert (.ofName d.symbol.name) d.symbol).insert (.tag d.symbol.name) d.symbol
  else b.insert (.ofName d.symbol.name) d.symbol

theorem Distinct.foldl_define {b : Bindings} (h : b.Distinct) (ds : List Binding) :
    (ds.foldl Bindings.define b).Distinct := by
  induction ds generalizing b with
  | nil => exact h
  | cons d ds ih =>
    refine ih ?_
    unfold Bindings.define
    split
    · exact (h.insert _ _).insert _ _
    · exact h.insert _ _

theorem mem_insert {entry : Key × Symbol} {b : Bindings} {key : Key} {x : Symbol}
    (h : entry ∈ b.insert key x) : entry ∈ b ∨ x = entry.2 := by
  rcases List.mem_cons.mp h with rfl | hmem
  · exact .inr rfl
  · exact .inl (List.mem_of_mem_filter hmem)

variable {d : Binding} {ds : List Binding}

theorem mem_define {entry : Key × Symbol} {b : Bindings} (h : entry ∈ b.define d) :
    entry ∈ b ∨ d.symbol = entry.2 := by
  unfold define at h
  split at h
  · rcases mem_insert h with h | hx
    · exact mem_insert h
    · exact .inr hx
  · exact mem_insert h

theorem mem_foldl_define {entry : Key × Symbol} {b : Bindings} (h : entry ∈ ds.foldl define b) :
    entry ∈ b ∨ ∃ d ∈ ds, d.symbol = entry.2 := by
  induction ds generalizing b with
  | nil => exact .inl h
  | cons d ds ih =>
    rcases ih h with hmem | ⟨c, hc, hsymbol⟩
    · rcases mem_define hmem with hmem | hx
      · exact .inl hmem
      · exact .inr ⟨d, List.mem_cons_self, hx⟩
    · exact .inr ⟨c, List.mem_cons_of_mem d hc, hsymbol⟩

/-- The symbol has the name that is written, and the name is none of a tag. -/
structure Named (d : Binding) : Prop where
  symbol : d.symbol.name = d.name
  plain : '@' ∉ d.name.toList

theorem Named.key (hd : Named d) : Key.ofName d.symbol.name = .plain d.name := by
  rw [hd.symbol]
  exact Key.ofName_plain hd.plain

theorem find?_define_plain (hd : Named d) (b : Bindings) (name : String) :
    (b.define d).find? (.plain name) =
      (if d.name = name then some d.symbol else none).or (b.find? (.plain name)) := by
  have hplain : (b.insert (.plain d.name) d.symbol).find? (.plain name) =
      (if d.name = name then some d.symbol else none).or (b.find? (.plain name)) := by
    rw [find?_insert]
    by_cases h : d.name = name
    · rw [h, if_pos rfl, if_pos rfl, Option.some_or]
    · rw [if_neg (by simpa using Ne.symm h), if_neg h, Option.none_or]
  rw [define, hd.key]
  split
  · rw [find?_insert, if_neg (by simp), hplain]
  · exact hplain

theorem find?_define_tag (hd : Named d) (b : Bindings) (name : String) :
    (b.define d).find? (.tag name) =
      (if d.isFunction ∧ d.name = name then some d.symbol else none).or (b.find? (.tag name)) := by
  have hplain : (b.insert (.plain d.name) d.symbol).find? (.tag name) = b.find? (.tag name) := by
    rw [find?_insert, if_neg (by simp)]
  rw [define, hd.key, hd.symbol]
  by_cases hf : d.isFunction = true
  · rw [if_pos hf, find?_insert, hplain]
    by_cases h : d.name = name
    · rw [if_pos (congrArg Key.tag h.symm), if_pos ⟨hf, h⟩, Option.some_or]
    · rw [if_neg (by simpa using Ne.symm h), if_neg (fun hd => h hd.2), Option.none_or]
  · rw [if_neg hf, hplain, if_neg (fun hd => hf hd.1), Option.none_or]

theorem find?_foldl_define_plain (hds : ∀ d ∈ ds, Named d) (b : Bindings) (name : String) :
    (ds.foldl define b).find? (.plain name) =
      (Binding.lastNamed? ds name).or (b.find? (.plain name)) := by
  induction ds generalizing b with
  | nil => rfl
  | cons d ds ih =>
    obtain ⟨hd, hds⟩ := List.forall_mem_cons.mp hds
    rw [List.foldl_cons, ih hds, find?_define_plain hd, Binding.lastNamed?_cons, Option.or_assoc]

theorem find?_foldl_define_tag (hds : ∀ d ∈ ds, Named d) (b : Bindings) (name : String) :
    (ds.foldl define b).find? (.tag name) =
      (Binding.lastNamed? (ds.filter (·.isFunction)) name).or (b.find? (.tag name)) := by
  induction ds generalizing b with
  | nil => rfl
  | cons d ds ih =>
    obtain ⟨hd, hds⟩ := List.forall_mem_cons.mp hds
    rw [List.foldl_cons, ih hds, find?_define_tag hd]
    by_cases hf : d.isFunction = true
    · rw [List.filter_cons_of_pos hf, Binding.lastNamed?_cons, Option.or_assoc]
      simp only [hf, true_and]
    · rw [List.filter_cons_of_neg hf, if_neg (fun h => hf h.1), Option.none_or]

end Bindings

theorem Arena.bindings_bind {a : Arena} {id : ScopeId} (h : id < a.size) (key : Key) (x : Symbol) :
    (a.bind id key x).bindings id = (a.bindings id).insert key x := by
  rw [bind, bindings_setBindings h, if_pos rfl]

namespace Parse

variable {p q : Parser} {α : Type}

theorem atTop_file (hp : Parser.fileScope < p.arena.size) (d : Binding) :
    (atTop p d).arena.bindings Parser.fileScope =
        (p.arena.bindings Parser.fileScope).define d ∧
      (atTop p d).arena.size = p.arena.size := by
  cases d with
  | value x body => exact ⟨Arena.bindings_bind hp (.ofName x.name) x, Arena.size_setBindings _ _ _⟩
  | function x params body isRec scope =>
    have hsize : (p.arena.bind Parser.fileScope (.ofName x.name) x).size = p.arena.size :=
      Arena.size_setBindings _ _ _
    refine ⟨?_, (Arena.size_setBindings _ _ _).trans hsize⟩
    exact (Arena.bindings_bind (hsize.symm ▸ hp) (.tag x.name) x).trans
      (congrArg (Bindings.insert · (.tag x.name) x) (Arena.bindings_bind hp (.ofName x.name) x))

theorem foldl_atTop_file {ds : List Binding} (hp : Parser.fileScope < p.arena.size) :
    (ds.foldl atTop p).arena.bindings Parser.fileScope =
      ds.foldl Bindings.define (p.arena.bindings Parser.fileScope) := by
  induction ds generalizing p with
  | nil => rfl
  | cons d ds ih =>
    obtain ⟨hbindings, hsize⟩ := atTop_file hp d
    rw [List.foldl_cons, List.foldl_cons, ih (hsize.symm ▸ hp), hbindings]

/-- A statement does to the file scope what its definitions do. -/
theorem stmt_file {ss : List Stmt} (h : stmt p = .ok ss q) (hp : p.scopes.Valid)
    (hfile : p.scope = Parser.fileScope) :
    q.arena.bindings Parser.fileScope =
      (ss.filterMap Stmt.definition?).foldl Bindings.define
        (p.arena.bindings Parser.fileScope) := by
  have hroot : Parser.fileScope < p.arena.size := hfile ▸ hp
  have hblock : (p.scopes.enter .block).Valid := p.scopes.enter_valid .block
  rcases stmt_ok h with ⟨r, rfl, ⟨_, h⟩ | h⟩
  · obtain ⟨bs, u, hbs, h⟩ := letStmt_ok h
    have hbs := letBindings_frame (p := p.enter .block) operand_extends hbs
    rcases h with ⟨item, t, hi, _, rfl, rfl⟩ | ⟨_, rfl, rfl⟩
    · have ht := finishLet_extends operand_extends hi hblock hbs
      exact ht.toKeeps.bindings_block hroot
    · have hu : u.arena.bindings Parser.fileScope = p.arena.bindings Parser.fileScope :=
        (hbs.block hblock).toKeeps.bindings_block hroot
      have hsize : Parser.fileScope < u.arena.size :=
        Nat.lt_of_lt_of_le hroot ((hbs.block hblock).toFrames.block hp).size
      have hdefinitions : (bs.map fun b => (⟨.define b, p.peek, p.arena.size⟩ : Stmt)).filterMap
          Stmt.definition? = bs := by
        rw [List.filterMap_map]
        exact List.filterMap_some
      rw [hdefinitions, ← hu]
      exact foldl_atTop_file (p := u.leaveScope.advance) hsize
  · obtain ⟨e, u, he, _, rfl, rfl⟩ := expStmt_ok h
    have hu := exp_extends operand_extends he hblock
    have hdefinitions : [(⟨e.var?.elim (.exp e) .var, p.peek, p.arena.size⟩ : Stmt)].filterMap
        Stmt.definition? = [] := by
      cases e.var? with
      | none => rfl
      | some use => rfl
    rw [hdefinitions]
    exact Scopes.Keeps.bindings_block (v := p.scopes) hu.toKeeps hroot

theorem stmts_file {n : Nat} {ss : List Stmt} (h : stmts n p = .ok ss q) (hp : p.scopes.Valid)
    (hfile : p.scope = Parser.fileScope) :
    q.arena.bindings Parser.fileScope =
      (ss.filterMap Stmt.definition?).foldl Bindings.define
        (p.arena.bindings Parser.fileScope) := by
  induction n generalizing p ss with
  | zero =>
    obtain ⟨rfl, rfl⟩ := pure_ok.mp h
    rfl
  | succ n ih =>
    rcases stmts_succ_ok h with ⟨_, _, h⟩ | ⟨_, first, r, others, hf, ho, rfl⟩ | ⟨_, rfl, rfl⟩
    · exact ih (p := p.advance) h hp hfile
    · have hr := stmt_frames hf hp hfile
      rw [ih ho (hr.valid hp) (hr.scope.trans hfile), stmt_file hf hp hfile,
        List.filterMap_append, List.foldl_append]
    · rfl

theorem Separated.forall {separator : TokenKind} {item : Parse α} {P : α → Prop} {xs : List α}
    (h : Separated separator item p xs q) (hi : ∀ ⦃p x q⦄, item p = .ok x q → P x) :
    ∀ x ∈ xs, P x := by
  induction h with
  | last hx => simpa using hi hx
  | cons hx _ _ ih => exact List.forall_mem_cons.mpr ⟨hi hx, ih⟩

theorem binding_name {isRec : Bool} {b : Binding} (h : binding operand isRec p = .ok b q) :
    b.symbol.name = b.name := by
  rcases binding_ok h with ⟨_, h | ⟨body, r, _, _, rfl, _⟩⟩
  · obtain ⟨_, _, _, _, x, _, _, _, _, _, _, _, _, hx, _, _, _, _, _, rfl, _⟩ := function_ok h
    obtain ⟨c, _, rfl⟩ := functionOf_ok.mp hx
    rfl
  · rfl

theorem stmt_names {ss : List Stmt} (h : stmt p = .ok ss q) :
    ∀ d ∈ ss.filterMap Stmt.definition?, d.symbol.name = d.name := by
  intro d hd
  obtain ⟨s, hs, hd⟩ := List.mem_filterMap.mp hd
  rcases stmt_ok h with ⟨r, rfl, ⟨_, h⟩ | h⟩
  · obtain ⟨bs, u, hbs, ⟨_, _, _, _, _, rfl⟩ | ⟨_, _, rfl⟩⟩ := letStmt_ok h
    · cases List.mem_singleton.mp hs
      cases hd
    · obtain ⟨b, hb, rfl⟩ := List.mem_map.mp hs
      cases hd
      exact hbs.forall (fun _ _ _ => binding_name) d hb
  · obtain ⟨e, u, _, _, _, rfl⟩ := expStmt_ok h
    cases List.mem_singleton.mp hs
    cases hv : e.var? with
    | none =>
      rw [hv] at hd
      cases hd
    | some use =>
      rw [hv] at hd
      cases hd

theorem stmts_names {n : Nat} {ss : List Stmt} (h : stmts n p = .ok ss q) :
    ∀ d ∈ ss.filterMap Stmt.definition?, d.symbol.name = d.name := by
  induction n generalizing p ss with
  | zero =>
    obtain ⟨rfl, rfl⟩ := pure_ok.mp h
    simp
  | succ n ih =>
    rcases stmts_succ_ok h with ⟨_, _, h⟩ | ⟨_, first, r, others, hf, ho, rfl⟩ | ⟨_, rfl, rfl⟩
    · exact ih h
    · intro d hd
      rw [List.filterMap_append] at hd
      rcases List.mem_append.mp hd with hd | hd
      · exact stmt_names hf d hd
      · exact ih ho d hd
    · simp

end Parse

/-- A definition binds its name in front of what it binds inside. -/
theorem Binding.occurrences_cons (b : Binding) :
    ∃ o, b.occurrences [] = o :: (b.occurrences []).tail ∧ o.binds = true ∧
      o.symbol = b.symbol ∧ o.token = b.symbol.token := by
  cases b with
  | value x body => exact ⟨.ofBinder .value [] x, rfl, rfl, rfl, rfl⟩
  | function x params body isRec scope => exact ⟨.ofBinder .function [] x, rfl, rfl, rfl, rfl⟩

theorem Stmt.binders_perm (ss : List Stmt) :
    (binders (ss.flatMap Stmt.occurrences)).Perm
      ((ss.filterMap Stmt.definition?).map Binding.symbol ++ binders (ss.flatMap Stmt.inner)) := by
  induction ss with
  | nil => exact .refl []
  | cons s ss ih =>
    rw [List.flatMap_cons, List.flatMap_cons, binders_append, binders_append]
    obtain ⟨kind, token, scope⟩ := s
    cases kind with
    | var use => exact ih
    | exp e =>
      refine (ih.append_left (binders (e.occurrences []))).trans ?_
      rw [← List.append_assoc, ← List.append_assoc]
      exact List.perm_append_comm.append_right _
    | define b =>
      obtain ⟨o, ho, hbinds, hsymbol, _⟩ := b.occurrences_cons
      have hhead : binders (b.occurrences []) = b.symbol :: binders (b.occurrences []).tail := by
        rw [ho, binders, List.filter_cons_of_pos hbinds, List.map_cons, hsymbol]
        rfl
      change (binders (b.occurrences []) ++ _).Perm
        (b.symbol :: (List.map _ _ ++ (binders (b.occurrences []).tail ++ _)))
      rw [hhead, List.cons_append]
      refine ((ih.append_left _).trans ?_).cons b.symbol
      rw [← List.append_assoc, ← List.append_assoc]
      exact List.perm_append_comm.append_right _

theorem Program.token_mem_occurrences {program : Program} {d : Binding}
    (hd : d ∈ program.definitions) : d.symbol.token ∈ tokensOf program.occurrences := by
  obtain ⟨s, hs, hd⟩ := List.mem_filterMap.mp hd
  obtain ⟨kind, token, scope⟩ := s
  cases kind with
  | var use => cases hd
  | exp e => cases hd
  | define b =>
    cases hd
    obtain ⟨o, ho, _, _, htoken⟩ := d.occurrences_cons
    have hmem : o ∈ d.occurrences [] := by
      rw [ho]
      exact List.mem_cons_self
    rw [← htoken]
    exact List.mem_map_of_mem (List.mem_flatMap.mpr ⟨_, hs, hmem⟩)

open Parse

section Programs

variable {tokens : List Token} {file : String} {program : Program}

theorem parse_file (h : parse (.ofList tokens file) = .ok program) :
    program.arena.bindings program.scope = program.definitions.foldl Bindings.define [] := by
  obtain ⟨p, hp, hscope, harena, _⟩ := parse_ok h
  rw [hscope, harena]
  exact stmts_file hp Nat.zero_lt_one rfl

theorem parse_find? (h : parse (.ofList tokens file) = .ok program) {name : String}
    (hname : '@' ∉ name.toList) :
    program.find? name = (program.arena.bindings program.scope).find? (.plain name) := by
  have hkind := (parse_rooted h).kind
  have hroot : program.scope < program.arena.size := by
    by_contra hge
    rw [Arena.kind?, Array.getElem?_eq_none (Nat.not_lt.mp hge)] at hkind
    cases hkind
  obtain ⟨n, hn⟩ := Nat.exists_eq_succ_of_ne_zero (Nat.ne_zero_of_lt hroot)
  rw [Program.find?, Arena.find?, Arena.resolve, hn, Arena.lookup_succ hroot, if_pos hkind,
    Option.or_none, Key.ofName_plain hname]

theorem parse_named (hplain : ∀ t ∈ tokens, t.kind = .identifier → '@' ∉ t.value.toList)
    (h : parse (.ofList tokens file) = .ok program) :
    ∀ d ∈ program.definitions, Bindings.Named d := by
  obtain ⟨p, hp, _⟩ := parse_ok h
  have hidentifiers := stmts_identifiers hp rfl
  change _ <+: identifiers (tokens.filter (!·.isNewline)) at hidentifiers
  rw [identifiers_rest] at hidentifiers
  intro d hd
  have hmem := hidentifiers.subset (Program.token_mem_occurrences hd)
  obtain ⟨ht, hk⟩ := List.mem_filter.mp hmem
  exact ⟨stmts_names hp d hd, hplain _ ht (by simpa using hk)⟩

/-- The symbol of a definition is bound nowhere inside a statement. -/
theorem parse_apart (h : parse (.ofList tokens file) = .ok program) {d : Binding} {s : Stmt}
    {o : Occurrence} (hd : d ∈ program.definitions) (hs : s ∈ program.stmts) (ho : o ∈ s.inner)
    (hbinds : o.binds = true) : d.symbol.id ≠ o.symbol.id := by
  obtain ⟨p, hp, _⟩ := parse_ok h
  have hnone : Covers [] [] Scopes.initial.seen := by
    constructor
    · intro k x hx
      cases hx
    · simp
  obtain ⟨_, hnumbered⟩ := stmts_grounded hp .initial rfl hnone (.nothing 0 rfl)
  have hnodup := (((Stmt.binders_perm program.stmts).map Symbol.id).nodup_iff).mp hnumbered.nodup
  rw [List.map_append] at hnodup
  have hdefined : d.symbol.id ∈ (program.definitions.map Binding.symbol).map Symbol.id :=
    List.mem_map_of_mem (List.mem_map_of_mem hd)
  have hinside : o.symbol.id ∈ (binders (program.stmts.flatMap Stmt.inner)).map Symbol.id :=
    List.mem_map_of_mem (mem_binders.mpr ⟨o, List.mem_flatMap.mpr ⟨s, hs, ho⟩, hbinds, rfl⟩)
  intro heq
  rw [← heq] at hinside
  exact List.disjoint_of_nodup_append hnodup hdefined hinside

/-- In the file scope, a name is bound to the symbol of its last definition and its tag to that of
its last definition as a function. Nothing that is bound inside a statement is bound there under
any key. -/
theorem file_scope_holds_definitions
    (hplain : ∀ t ∈ tokens, t.kind = .identifier → '@' ∉ t.value.toList)
    (h : parse (.ofList tokens file) = .ok program) :
    (∀ name, '@' ∉ name.toList →
      program.find? name = Binding.lastNamed? program.definitions name ∧
      program.arena.findTagHere? program.scope name =
        Binding.lastNamed? (program.definitions.filter (·.isFunction)) name) ∧
    (∀ x, x ∈ program.arena.tags program.scope ↔
      Binding.lastNamed? (program.definitions.filter (·.isFunction)) x.name = some x) ∧
    ∀ s ∈ program.stmts, ∀ o ∈ s.inner, o.binds = true →
      ∀ entry ∈ program.arena.bindings program.scope, entry.2.id ≠ o.symbol.id := by
  have hfile := parse_file h
  have hnamed := parse_named hplain h
  have hdistinct : (program.definitions.foldl Bindings.define []).Distinct :=
    Bindings.Distinct.foldl_define (b := []) List.nodup_nil _
  have htag : ∀ name, (program.definitions.foldl Bindings.define []).find? (.tag name) =
      Binding.lastNamed? (program.definitions.filter (·.isFunction)) name := by
    intro name
    exact (Bindings.find?_foldl_define_tag hnamed [] name).trans Option.or_none
  refine ⟨?_, ?_, ?_⟩
  · intro name hname
    constructor
    · rw [parse_find? h hname, hfile, Bindings.find?_foldl_define_plain hnamed]
      exact Option.or_none
    · rw [Arena.findTagHere?, hfile, htag]
  · intro x
    rw [Arena.tags, hfile, Bindings.mem_tags]
    constructor
    · rintro ⟨name, hmem⟩
      rw [hdistinct.mem_iff, htag] at hmem
      obtain ⟨d, hd, hname, hx⟩ := Binding.mem_of_lastNamed? hmem
      have hsymbol := (hnamed d (List.mem_of_mem_filter hd)).symbol
      rw [hx, hname] at hsymbol
      rw [hsymbol]
      exact hmem
    · intro hlast
      exact ⟨x.name, hdistinct.mem_iff.mpr ((htag x.name).trans hlast)⟩
  · intro s hs o ho hbinds entry hentry
    rw [hfile] at hentry
    rcases Bindings.mem_foldl_define hentry with hnone | ⟨d, hd, hsymbol⟩
    · cases hnone
    · rw [← hsymbol]
      exact parse_apart h hd hs ho hbinds

end Programs

/-- A function is defined anew as a variable and keeps its tag. The names of a let inside a value,
a body or an expression do not get out. -/
theorem file_scope_holds_definitions_shadowed :
    ∃ tokens program,
      Lexer.tokens
        "let f(x) = let g = x in g;; let x = let f = 2 in f;; let f = x;; let z = x in z;;".toList
        "shell" = .ok tokens ∧
      parse (.ofList tokens "shell") = .ok program ∧
      program.definitions.map Binding.name = ["f", "x", "f"] ∧
      ["f", "g", "x", "z"].map (fun name => (program.find? name).map Symbol.id) =
        [some 5, none, some 4, none] ∧
      (program.arena.tags program.scope).map Symbol.id = [0] ∧
      (∀ name, '@' ∉ name.toList →
        program.find? name = Binding.lastNamed? program.definitions name ∧
        program.arena.findTagHere? program.scope name =
          Binding.lastNamed? (program.definitions.filter (·.isFunction)) name) ∧
      (∀ x, x ∈ program.arena.tags program.scope ↔
        Binding.lastNamed? (program.definitions.filter (·.isFunction)) x.name = some x) ∧
      ∀ s ∈ program.stmts, ∀ o ∈ s.inner, o.binds = true →
        ∀ entry ∈ program.arena.bindings program.scope, entry.2.id ≠ o.symbol.id := by
  have hrun : ((Lexer.tokens
      "let f(x) = let g = x in g;; let x = let f = 2 in f;; let f = x;; let z = x in z;;".toList
      "shell").toOption.bind fun tokens =>
        (parse (.ofList tokens "shell")).toOption.map fun program =>
          (tokens.all fun t => t.kind ≠ .identifier ∨ '@' ∉ t.value.toList,
            program.definitions.map Binding.name,
            ["f", "g", "x", "z"].map (fun name => (program.find? name).map Symbol.id),
            (program.arena.tags program.scope).map Symbol.id)) =
      some (true, ["f", "x", "f"], [some 5, none, some 4, none], [0]) := by
    decide +kernel
  obtain ⟨tokens, ht, hrun⟩ := Option.bind_eq_some_iff.mp hrun
  obtain ⟨program, hp, hrun⟩ := Option.map_eq_some_iff.mp hrun
  obtain ⟨hnames, hrun⟩ := Prod.mk.inj hrun
  obtain ⟨hdefinitions, hrun⟩ := Prod.mk.inj hrun
  obtain ⟨hfound, htags⟩ := Prod.mk.inj hrun
  have hp := ok_of_toOption hp
  have hplain : ∀ t ∈ tokens, t.kind = .identifier → '@' ∉ t.value.toList := by
    intro t htoken hk
    have hor := List.all_eq_true.mp hnames t htoken
    rcases of_decide_eq_true hor with hne | hplain
    · exact absurd hk hne
    · exact hplain
  exact ⟨tokens, program, ok_of_toOption ht, hp, hdefinitions, hfound, htags,
    file_scope_holds_definitions hplain hp⟩

end MiniMl
