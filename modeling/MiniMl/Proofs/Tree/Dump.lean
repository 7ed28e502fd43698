import MiniMl.Proofs.Tree.Constants
import MiniMl.Proofs.Tree.Skeleton

/-! # The text of a tree is read in one way

A line begins with its depth and a mark that tells nodes from what they hold. The first bracket or
space behind it ends the label, and the label of a value tells what is written there. So the lines
determine the skeleton, unless a name, an operator or a type reaches over lines or a constant is a
float.
-/

namespace MiniMl

/-- Lists whose images agree, where the map tells their elements apart. -/
theorem map_inj_on {α β : Type} {P : α → Prop} {f : α → β}
    (hf : ∀ x y, P x → P y → f x = f y → x = y) {xs ys : List α} (hx : ∀ x ∈ xs, P x)
    (hy : ∀ y ∈ ys, P y) (h : xs.map f = ys.map f) : xs = ys := by
  induction xs generalizing ys with
  | nil => exact (List.map_eq_nil_iff.mp h.symm).symm
  | cons x xs ih =>
    cases ys with
    | nil => cases h
    | cons y ys =>
      obtain ⟨hfirst, hrest⟩ := List.cons.inj h
      obtain ⟨hx₀, hx⟩ := List.forall_mem_cons.mp hx
      obtain ⟨hy₀, hy⟩ := List.forall_mem_cons.mp hy
      rw [hf x y hx₀ hy₀ hfirst, ih hx hy hrest]

/-! Nodes and fields whose text stays on its line. -/

def Field.Readable : Field → Prop
  | .op text => OneLine text
  | .name text => OneLine text
  | .callee text => OneLine text
  | .value constant => constant.kind ≠ .float
  | .param x type => OneLine x ∧ '[' ∉ x.toList ∧ OneLine type

structure Node.Readable (n : Node) : Prop where
  type : ∀ type ∈ n.type?, OneLine type
  fields : ∀ f ∈ n.fields, f.Readable

/-! Lines begin with their depth. -/

theorem indented_inj {a b : Nat} {xs ys : List Char} (hx : xs.head? ≠ some ' ')
    (hy : ys.head? ≠ some ' ') (h : List.replicate a ' ' ++ xs = List.replicate b ' ' ++ ys) :
    a = b ∧ xs = ys := by
  obtain ⟨hspaces, hrest⟩ := run_inj (P := (· = ' ')) (fun _ => List.eq_of_mem_replicate)
    (fun _ => List.eq_of_mem_replicate) (fun c hc hspace => hx (hspace ▸ hc))
    (fun c hc hspace => hy (hspace ▸ hc)) h
  have hlength := congrArg List.length hspaces
  rw [List.length_replicate, List.length_replicate] at hlength
  exact ⟨hlength, hrest⟩

/-- The first bracket ends a name or a label, and the last one the type that follows it. -/
theorem bracketed_inj {x y type type' : String} (hx : '[' ∉ x.toList) (hy : '[' ∉ y.toList)
    (h : x.toList ++ ' ' :: '[' :: (type.toList ++ [']']) =
      y.toList ++ ' ' :: '[' :: (type'.toList ++ [']'])) : x = y ∧ type = type' := by
  rw [List.append_cons, List.append_cons y.toList] at h
  obtain ⟨hname, htype⟩ := append_cons_first_inj (by simp [hx]) (by simp [hy]) h
  exact ⟨String.toList_injective (List.append_cancel_right hname),
    String.toList_injective (List.append_cancel_right htype)⟩

namespace Field

theorem line_text (depth : Nat) (f : Field) :
    (Dump.field depth f.label f.text).toList =
      List.replicate (2 * depth) ' ' ++ '|' :: ' ' :: (f.label.toList ++ ' ' :: f.text.toList) := by
  simp [Dump.field, Dump.indent]

theorem label_plain (f : Field) : ' ' ∉ f.label.toList ∧ OneLine f.label := by
  have hall : ∀ text ∈ ["op", "name", "fun", "value", "param"],
      ' ' ∉ text.toList ∧ OneLine text := by decide
  apply hall
  cases f with
  | _ => simp [label]

theorem param_text (x type : String) :
    (param x type).text.toList = x.toList ++ ' ' :: '[' :: (type.toList ++ [']']) := by
  simp [text]

theorem label_text_inj {f g : Field} (hf : f.Readable) (hg : g.Readable)
    (hlabel : f.label = g.label) (htext : f.text = g.text) : f = g := by
  cases f with
  | op _ =>
    cases g with
    | op _ => exact congrArg op htext
    | _ => simp [label] at hlabel
  | name _ =>
    cases g with
    | name _ => exact congrArg name htext
    | _ => simp [label] at hlabel
  | callee _ =>
    cases g with
    | callee _ => exact congrArg callee htext
    | _ => simp [label] at hlabel
  | value _ =>
    cases g with
    | value _ => exact congrArg value (Constant.text_inj hf hg htext)
    | _ => simp [label] at hlabel
  | param _ _ =>
    cases g with
    | param _ _ =>
      have htext := congrArg String.toList htext
      rw [param_text, param_text] at htext
      obtain ⟨rfl, rfl⟩ := bracketed_inj hf.2.1 hg.2.1 htext
      rfl
    | _ => simp [label] at hlabel

theorem line_inj {depth : Nat} {f g : Field} (hf : f.Readable) (hg : g.Readable)
    (h : Dump.field depth f.label f.text = Dump.field depth g.label g.text) : f = g := by
  have h := congrArg String.toList h
  rw [line_text, line_text] at h
  have hbehind := (List.cons.inj (List.cons.inj (List.append_cancel_left h)).2).2
  obtain ⟨hlabel, htext⟩ := append_cons_first_inj f.label_plain.1 g.label_plain.1 hbehind
  exact label_text_inj hf hg (String.toList_injective hlabel) (String.toList_injective htext)

end Field

namespace Construct

theorem label_plain (c : Construct) : '[' ∉ c.label.toList ∧ OneLine c.label := by
  cases c with
  | projection side => cases side <;> decide
  | function isRec => cases isRec <;> decide
  | _ => decide

def all : List Construct :=
  [binary, unary, pair, projection .first, projection .second, sequence, var, constant, conditional,
    loop, letIn, call, paren, apply, single, value, function true, function false, varStmt, valueStmt,
    functionStmt, expStmt]

theorem mem_all (c : Construct) : c ∈ all := by
  cases c with
  | projection side => cases side <;> decide
  | function isRec => cases isRec <;> decide
  | _ => decide

theorem label_injective : Function.Injective label := by
  have hall : ∀ c ∈ all, ∀ d ∈ all, c.label = d.label → c = d := by decide +kernel
  exact fun c d h => hall c c.mem_all d d.mem_all h

end Construct

def FieldAt (depth : Nat) (line : String) : Prop :=
  ∃ rest, line.toList = List.replicate (2 * depth) ' ' ++ '|' :: rest

theorem FieldAt.unique {d e : Nat} {line : String} (hd : FieldAt d line) (he : FieldAt e line) :
    d = e := by
  obtain ⟨us, hus⟩ := hd
  obtain ⟨vs, hvs⟩ := he
  rw [hus] at hvs
  have hdepth := (indented_inj (by simp) (by simp) hvs).1
  omega

theorem fieldAt_field (depth : Nat) (f : Field) :
    FieldAt depth (Dump.field depth f.label f.text) := ⟨_, f.line_text depth⟩

namespace Node

variable {d e : Nat} {m n : Node}

def mark (n : Node) : List Char :=
  match n.type? with
  | some type => ' ' :: '[' :: (type.toList ++ [']'])
  | none => []

theorem line_text (depth : Nat) (n : Node) :
    (n.line depth).toList =
      List.replicate (2 * depth) ' ' ++ '+' :: ' ' :: (n.construct.label.toList ++ n.mark) := by
  unfold line mark
  cases n.type? with
  | none => simp [Dump.indent]
  | some type => simp [Dump.node, Dump.indent]

theorem not_fieldAt (depth e : Nat) (n : Node) : ¬ FieldAt e (n.line depth) := by
  rintro ⟨rest, hrest⟩
  rw [line_text] at hrest
  have hmark := (indented_inj (by simp) (by simp) hrest).2
  exact absurd (List.cons.inj hmark).1 (by decide)

theorem head_inj (h : m.construct.label.toList ++ m.mark = n.construct.label.toList ++ n.mark) :
    m.construct = n.construct ∧ m.type? = n.type? := by
  have hm := m.construct.label_plain.1
  have hn := n.construct.label_plain.1
  unfold mark at h
  cases htype : m.type? with
  | none =>
    cases htype' : n.type? with
    | none =>
      rw [htype, htype', List.append_nil, List.append_nil] at h
      exact ⟨Construct.label_injective (String.toList_injective h), rfl⟩
    | some type =>
      rw [htype, htype', List.append_nil] at h
      exact absurd (h ▸ by simp) hm
  | some type =>
    cases htype' : n.type? with
    | none =>
      rw [htype, htype', List.append_nil] at h
      exact absurd (h ▸ by simp) hn
    | some type' =>
      rw [htype, htype'] at h
      obtain ⟨hlabel, rfl⟩ := bracketed_inj hm hn h
      exact ⟨Construct.label_injective hlabel, rfl⟩

theorem line_inj (h : m.line d = n.line e) :
    d = e ∧ m.construct = n.construct ∧ m.type? = n.type? := by
  have h := congrArg String.toList h
  rw [line_text, line_text] at h
  obtain ⟨hdepth, hhead⟩ := indented_inj (by simp) (by simp) h
  have hhead := (List.cons.inj (List.cons.inj hhead).2).2
  exact ⟨by omega, head_inj hhead⟩

theorem fieldLines_at (depth : Nat) (n : Node) :
    ∀ line ∈ n.fieldLines depth, FieldAt (depth + 1) line := by
  intro line hline
  obtain ⟨f, -, rfl⟩ := List.mem_map.mp hline
  exact fieldAt_field (depth + 1) f

theorem fields_inj (hm : m.Readable) (hn : n.Readable) (h : m.fieldLines d = n.fieldLines d) :
    m.fields = n.fields :=
  map_inj_on (fun _ _ hf hg => Field.line_inj hf hg) hm.fields hn.fields h

/-- What follows the lines of a node begins with that of another one. -/
theorem head_rowLines (rs : List (Nat × Node)) :
    ∀ line ∈ (rs.flatMap rowLines).head?, ∀ depth, ¬ FieldAt depth line := by
  intro line hline depth
  cases rs with
  | nil => cases hline
  | cons r rs =>
    obtain rfl := Option.mem_some.mp hline
    exact r.2.not_fieldAt r.1 depth

theorem rows_inj {rs qs : List (Nat × Node)} (hr : ∀ r ∈ rs, r.2.Readable)
    (hq : ∀ r ∈ qs, r.2.Readable) (h : rs.flatMap rowLines = qs.flatMap rowLines) : rs = qs := by
  induction rs generalizing qs with
  | nil =>
    cases qs with
    | nil => rfl
    | cons q qs => cases h
  | cons r rs ih =>
    cases qs with
    | nil => cases h
    | cons q qs =>
      obtain ⟨hr₀, hr⟩ := List.forall_mem_cons.mp hr
      obtain ⟨hq₀, hq⟩ := List.forall_mem_cons.mp hq
      obtain ⟨hline, hbehind⟩ := List.cons.inj h
      obtain ⟨hdepth, hconstruct, htype⟩ := line_inj hline
      have hq' := q.2.fieldLines_at q.1
      rw [← hdepth] at hbehind hq'
      obtain ⟨hfields, hrest⟩ := run_inj (r.2.fieldLines_at r.1) hq'
        (fun line hline => head_rowLines rs line hline _)
        (fun line hline => head_rowLines qs line hline _) hbehind
      have hsame : r.2 = q.2 := Node.ext hconstruct htype (fields_inj hr₀ hq₀ hfields)
      rw [ih hr hq hrest, Prod.ext hdepth hsame]

end Node

/-! From the text to its lines. -/

theorem indent_oneLine (depth : Nat) : OneLine (Dump.indent depth) := by
  rw [OneLine, Dump.indent, String.toList_ofList]
  intro h
  exact absurd (List.eq_of_mem_replicate h) (by decide)

theorem Field.text_oneLine {f : Field} (h : f.Readable) : OneLine f.text := by
  cases f with
  | op _ => exact h
  | name _ => exact h
  | callee _ => exact h
  | value _ => exact Constant.text_oneLine h
  | param _ _ => exact ((h.1.append (by decide)).append h.2.2).append (by decide)

theorem field_oneLine {depth : Nat} {label text : String} (hl : OneLine label) (ht : OneLine text) :
    OneLine (Dump.field depth label text) :=
  ((((indent_oneLine depth).append (by decide)).append hl).append (by decide)).append ht

theorem Node.line_oneLine {n : Node} (h : n.Readable) (depth : Nat) : OneLine (n.line depth) := by
  have hlabel := n.construct.label_plain.2
  have hmarked := ((indent_oneLine depth).append (t := "+ ") (by decide)).append hlabel
  unfold Node.line
  split
  · next type htype =>
    exact ((hmarked.append (by decide)).append (h.type type htype)).append (by decide)
  · exact hmarked

theorem Node.rowLines_oneLine {rs : List (Nat × Node)} (h : ∀ r ∈ rs, r.2.Readable) :
    ∀ line ∈ rs.flatMap rowLines, OneLine line := by
  intro line hline
  obtain ⟨r, hr, hline⟩ := List.mem_flatMap.mp hline
  rcases List.mem_cons.mp hline with rfl | hline
  · exact Node.line_oneLine (h r hr) r.1
  · obtain ⟨f, hf, rfl⟩ := List.mem_map.mp hline
    exact field_oneLine f.label_plain.2 (Field.text_oneLine ((h r hr).fields f hf))

theorem unlines_cons (line : String) (lines : List String) :
    (Dump.unlines (line :: lines)).toList = line.toList ++ '\n' :: (Dump.unlines lines).toList := by
  simp [Dump.unlines, String.join_cons]

theorem unlines_inj {xs ys : List String} (hx : ∀ line ∈ xs, OneLine line)
    (hy : ∀ line ∈ ys, OneLine line) (h : Dump.unlines xs = Dump.unlines ys) : xs = ys := by
  have hsome : ∀ (line : String) (lines : List String),
      Dump.unlines [] ≠ Dump.unlines (line :: lines) := by
    intro line lines h
    have h := congrArg String.toList h
    rw [unlines_cons] at h
    exact absurd h.symm (by simp [Dump.unlines])
  induction xs generalizing ys with
  | nil =>
    cases ys with
    | nil => rfl
    | cons y ys => exact absurd h (hsome y ys)
  | cons x xs ih =>
    cases ys with
    | nil => exact absurd h.symm (hsome x xs)
    | cons y ys =>
      obtain ⟨hx₀, hx⟩ := List.forall_mem_cons.mp hx
      obtain ⟨hy₀, hy⟩ := List.forall_mem_cons.mp hy
      have h := congrArg String.toList h
      rw [unlines_cons, unlines_cons] at h
      obtain ⟨hline, hrest⟩ := append_cons_first_inj hx₀ hy₀ h
      rw [String.toList_injective hline, ih hx hy (String.toList_injective hrest)]

/-! Programs. -/

structure Program.Readable (p : Program) : Prop where
  nodes : ∀ r ∈ Rose.listRows 1 p.skeleton, r.2.Readable
  functions : ∀ x ∈ p.arena.tags p.scope, OneLine x.name

theorem Rose.not_fieldAt {depth : Nat} {ts : List (Rose Node)} :
    ∀ line ∈ listLines depth ts, ¬ FieldAt depth line := by
  intro line hline hfield
  obtain ⟨r, hr, hline⟩ := List.mem_flatMap.mp hline
  rcases List.mem_cons.mp hline with rfl | hline
  · exact r.2.not_fieldAt r.1 depth hfield
  · have hdepth := hfield.unique (r.2.fieldLines_at r.1 line hline)
    have hbelow := le_of_mem_listRows ts r hr
    omega

theorem Program.functionLines_at (p : Program) : ∀ line ∈ p.functionLines, FieldAt 1 line := by
  intro line hline
  obtain ⟨x, -, rfl⟩ := List.mem_map.mp hline
  exact fieldAt_field 1 (.callee (x.name ++ " : " ++ x.typeName p.store))

theorem Program.Readable.lines {p : Program} (h : p.Readable) : ∀ line ∈ p.lines, OneLine line := by
  rw [Program.lines_eq, List.forall_mem_cons, List.forall_mem_append]
  refine ⟨by decide, Node.rowLines_oneLine h.nodes, ?_⟩
  intro line hline
  obtain ⟨x, hx, rfl⟩ := List.mem_map.mp hline
  apply field_oneLine (by decide)
  exact ((h.functions x hx).append (by decide)).append (x.typeName_oneLine p.store)

/-- The text of a program determines its skeleton. -/
theorem Program.skeleton_of_dump {p q : Program} (hp : p.Readable) (hq : q.Readable)
    (h : p.dump = q.dump) : p.skeleton = q.skeleton := by
  have hlines := unlines_inj hp.lines hq.lines h
  rw [p.lines_eq, q.lines_eq] at hlines
  have hstops : ∀ r : Program, ∀ line ∈ r.functionLines.head?, ¬ ¬ FieldAt 1 line :=
    fun r line hline => not_not_intro (r.functionLines_at line (List.mem_of_head? hline))
  have hstmts := (run_inj Rose.not_fieldAt Rose.not_fieldAt (hstops p) (hstops q)
    (List.cons.inj hlines).2).1
  exact Rose.listRows_injective 1 (Node.rows_inj hp.nodes hq.nodes hstmts)

end MiniMl
