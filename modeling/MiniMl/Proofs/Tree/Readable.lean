import MiniMl.Proofs.Tree.Dump

/-! # Readable trees

A tree is readable if its names are words, its operators stay on their lines and none of its constants
is a float. One lemma for each construct says what is asked of it and of what is below it.
-/

namespace MiniMl

/-- The text stays on its line and does not look like a type in brackets. -/
structure Legible (text : String) : Prop where
  line : OneLine text
  bracket : '[' ∉ text.toList

def Symbol.Readable (x : Symbol) : Prop := Legible x.name

namespace Rose

variable {α : Type} {P : α → Prop} {label : α} {ts : List (Rose α)}

def All (P : α → Prop) (t : Rose α) : Prop := ∀ depth, ∀ r ∈ t.rows depth, P r.2

theorem all_listRows (h : ∀ t ∈ ts, t.All P) (depth : Nat) : ∀ r ∈ listRows depth ts, P r.2 := by
  induction ts with
  | nil => exact nofun
  | cons t ts ih =>
    obtain ⟨ht, hts⟩ := List.forall_mem_cons.mp h
    exact List.forall_mem_append.mpr ⟨ht depth, ih hts⟩

theorem all_node (hlabel : P label) (h : ∀ t ∈ ts, t.All P) : (node label ts).All P :=
  fun depth => List.forall_mem_cons.mpr ⟨hlabel, all_listRows h (depth + 1)⟩

end Rose

def Term.Readable (t : Term) : Prop := ∀ s, (t.skeleton s).All Node.Readable

def Exp.Readable (e : Exp) : Prop := ∀ s, (e.skeleton s).All Node.Readable

def Binding.Readable : Binding → Prop
  | value x body => x.Readable ∧ body.Readable
  | function x params body _ _ => x.Readable ∧ (∀ y ∈ params, y.Readable) ∧ body.Readable

def Stmt.Readable (stmt : Stmt) : Prop := ∀ s, (stmt.skeleton s).All Node.Readable

theorem Term.listSkeleton_eq (s : Store) (ts : List Term) :
    Term.listSkeleton s ts = ts.map (Term.skeleton s) := by
  induction ts with
  | nil => rfl
  | cons t ts ih => rw [Term.listSkeleton, ih, List.map_cons]

theorem Exp.listSkeleton_eq (s : Store) (es : List Exp) :
    Exp.listSkeleton s es = es.map (Exp.skeleton s) := by
  induction es with
  | nil => rfl
  | cons e es ih => rw [Exp.listSkeleton, ih, List.map_cons]

theorem Exp.optionSkeleton_eq (s : Store) (e : Option Exp) :
    Exp.optionSkeleton s e = e.toList.map (Exp.skeleton s) := by
  cases e with
  | none => rfl
  | some e => rfl

theorem Binding.listSkeleton_eq (s : Store) (bs : List Binding) :
    Binding.listSkeleton s bs = bs.map (Binding.skeleton s) := by
  induction bs with
  | nil => rfl
  | cons b bs ih => rw [Binding.listSkeleton, ih, List.map_cons]

section Nodes

variable {c : Construct} {type : String} {fields : List Field} {ts : List (Rose Node)}

variable {t u : Rose Node} (htype : OneLine type) (hfields : ∀ f ∈ fields, f.Readable)

include htype hfields

theorem readable_node (hts : ∀ t ∈ ts, t.All Node.Readable) :
    (Rose.node ⟨c, some type, fields⟩ ts).All Node.Readable := by
  refine Rose.all_node ⟨?_, hfields⟩ hts
  rintro text ⟨⟩
  exact htype

theorem readable_one (ht : t.All Node.Readable) :
    (Rose.node ⟨c, some type, fields⟩ [t]).All Node.Readable :=
  readable_node htype hfields (List.forall_mem_singleton.mpr ht)

theorem readable_two (ht : t.All Node.Readable) (hu : u.All Node.Readable) :
    (Rose.node ⟨c, some type, fields⟩ [t, u]).All Node.Readable :=
  readable_node htype hfields (List.forall_mem_cons.mpr ⟨ht, List.forall_mem_singleton.mpr hu⟩)

end Nodes

theorem Binding.Readable.skeleton {b : Binding} (h : b.Readable) (s : Store) :
    (b.skeleton s).All Node.Readable := by
  cases b with
  | value x body =>
    rw [Binding.skeleton]
    exact readable_one (s.name_oneLine _) (List.forall_mem_singleton.mpr h.1.line) (h.2 s)
  | function x params body isRec scope =>
    obtain ⟨hx, hparams, hbody⟩ := h
    rw [Binding.skeleton]
    refine readable_one (x.typeName_oneLine s) ?_ (hbody s)
    rw [List.forall_mem_cons, List.forall_mem_map]
    exact ⟨hx.line, fun y hy => ⟨(hparams y hy).line, (hparams y hy).bracket, s.name_oneLine _⟩⟩

namespace Term

variable {token : Token} {lhs rhs : Term} {e first body : Exp} {cell : Cell} {use : NameUse}
  {args : List Exp}

theorem readable_binary (hop : OneLine token.value) (hl : lhs.Readable) (hr : rhs.Readable) :
    (binary token lhs rhs cell).Readable := by
  intro s
  rw [skeleton]
  exact readable_two (s.name_oneLine cell) (List.forall_mem_singleton.mpr hop) (hl s) (hr s)

theorem readable_unary (hop : OneLine token.value) (h : lhs.Readable) :
    (unary token lhs cell).Readable := by
  intro s
  rw [skeleton]
  exact readable_one (s.name_oneLine cell) (List.forall_mem_singleton.mpr hop) (h s)

theorem readable_pair (hf : first.Readable) (hb : body.Readable) :
    (pair token first body cell).Readable := by
  intro s
  rw [skeleton]
  exact readable_two (s.name_oneLine cell) nofun (hf s) (hb s)

theorem readable_projection {side : Side} (hf : first.Readable) (hb : body.Readable) :
    (projection token side first body).Readable := by
  intro s
  rw [skeleton]
  exact readable_two (s.name_oneLine _) nofun (hf s) (hb s)

theorem readable_sequence (hl : lhs.Readable) (hr : rhs.Readable) :
    (sequence token lhs rhs).Readable := by
  intro s
  rw [skeleton]
  exact readable_two (s.name_oneLine _) nofun (hl s) (hr s)

theorem readable_var (h : use.symbol.Readable) : (var use).Readable := by
  intro s
  rw [skeleton]
  exact readable_node (s.name_oneLine _) (List.forall_mem_singleton.mpr h.line) nofun

theorem readable_constant {value : Constant} (h : value.kind ≠ .float) :
    (constant token value cell).Readable := by
  intro s
  rw [skeleton]
  exact readable_node (s.name_oneLine cell) (List.forall_mem_singleton.mpr h) nofun

theorem readable_conditional {second : Option Exp} (he : e.Readable) (hf : first.Readable)
    (hs : ∀ c ∈ second, c.Readable) : (conditional token e first second cell).Readable := by
  intro s
  rw [skeleton, Exp.optionSkeleton_eq]
  refine readable_node (s.name_oneLine cell) nofun ?_
  rw [List.forall_mem_cons, List.forall_mem_cons, List.forall_mem_map]
  exact ⟨he s, hf s, fun c hc => hs c (Option.mem_toList.mp hc) s⟩

theorem readable_loop (he : e.Readable) (hb : body.Readable) :
    (loop token e body cell).Readable := by
  intro s
  rw [skeleton]
  exact readable_two (s.name_oneLine cell) nofun (he s) (hb s)

theorem readable_letIn {bs : List Binding} {scope : ScopeId} (hbs : ∀ b ∈ bs, b.Readable)
    (hb : body.Readable) : (letIn token bs body scope).Readable := by
  intro s
  rw [skeleton, Binding.listSkeleton_eq]
  refine readable_node (s.name_oneLine _) nofun ?_
  rw [List.forall_mem_append, List.forall_mem_map, List.forall_mem_singleton]
  exact ⟨fun b h => (hbs b h).skeleton s, hb s⟩

theorem readable_call (hx : use.symbol.Readable) (hargs : ∀ e ∈ args, e.Readable) :
    (call use args cell).Readable := by
  intro s
  rw [skeleton, Exp.listSkeleton_eq]
  refine readable_node (s.name_oneLine cell) (List.forall_mem_singleton.mpr hx.line) ?_
  rw [List.forall_mem_map]
  exact fun e h => hargs e h s

theorem readable_paren (he : e.Readable) : (paren token e).Readable := by
  intro s
  rw [skeleton]
  exact readable_one (s.name_oneLine _) nofun (he s)

end Term

namespace Exp

variable {cell : Cell} {scope : ScopeId}

theorem readable_apply {head : NameUse} {args : List Term} (hx : head.symbol.Readable)
    (hargs : ∀ t ∈ args, t.Readable) : (apply head args cell scope).Readable := by
  intro s
  rw [skeleton, Term.listSkeleton_eq]
  refine readable_node (s.name_oneLine cell) (List.forall_mem_singleton.mpr hx.line) ?_
  rw [List.forall_mem_map]
  exact fun t h => hargs t h s

theorem readable_single {root : Token} {item : Term} (h : item.Readable) :
    (single root item scope).Readable := by
  intro s
  rw [skeleton]
  exact readable_one (s.name_oneLine _) nofun (h s)

end Exp

namespace Stmt

variable {token : Token} {block : ScopeId}

theorem readable_exp {e : Exp} (h : e.Readable) : Readable ⟨.exp e, token, block⟩ := fun s =>
  readable_one (s.name_oneLine _) nofun (h s)

/-- The name is all that a statement takes from a variable. -/
theorem readable_var {root : Token} {use : NameUse} {scope : ScopeId}
    (h : (Exp.single root (.var use) scope).Readable) : Readable ⟨.var use, token, block⟩ := by
  intro s
  have hnode := h s 0 (1, ⟨.var, s.name use.symbol.cell, [.name use.symbol.name]⟩) (by
    simp [Exp.skeleton, Term.skeleton, Rose.rows, Rose.listRows])
  exact readable_node (s.name_oneLine _) hnode.fields (List.forall_mem_nil _)

theorem readable_define {b : Binding} (h : b.Readable) : Readable ⟨.define b, token, block⟩ := by
  intro s
  cases b with
  | value x body =>
    exact readable_one (s.name_oneLine _) (List.forall_mem_singleton.mpr h.1.line) (h.2 s)
  | function x params body isRec scope =>
    exact Rose.all_node ⟨nofun, nofun⟩ (List.forall_mem_singleton.mpr (h.skeleton s))

end Stmt

end MiniMl
