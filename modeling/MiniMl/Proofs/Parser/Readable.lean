import MiniMl.Proofs.Parser.Derivation
import MiniMl.Proofs.Scope.TopLevel
import MiniMl.Proofs.Token.Lexing
import MiniMl.Proofs.Tree.Alike
import MiniMl.Proofs.Tree.Readable

/-! # Accepted programs have readable trees

All names and operators of a tree are the texts of tokens, and those of the lexer are words or fixed
spellings. Every production keeps the tokens ahead and the names in scope readable and answers a
readable tree. So the text of an accepted program without floats determines its tree, tokens, scopes
and symbols apart.
-/

namespace MiniMl

/-- The token holds no float, and its text is legible if it may be a name or an operator. -/
structure Token.Readable (t : Token) : Prop where
  text : t.kind ≠ .newline → t.kind ≠ .string → Legible t.value
  exact : t.kind ≠ .float

theorem Constant.exact_of_token {t : Token} {value : Constant} (h : ofToken t = .ok value)
    (ht : t.kind ≠ .float) : value.kind ≠ .float := by
  unfold ofToken at h
  split at h
  · split at h
    · cases h
      exact Kind.noConfusion
    · cases h
  · next hkind => exact absurd hkind ht
  all_goals
    cases h
    exact Kind.noConfusion

namespace Arena

variable {a : Arena} {P : Symbol → Prop} {x : Symbol}

/-- Every entry of a scope has the property, also one that is hidden by another. -/
def Contains (a : Arena) (P : Symbol → Prop) : Prop := ∀ id, ∀ entry ∈ a.bindings id, P entry.2

namespace Contains

theorem holds (h : a.Contains P) : a.Holds P := by
  intro id k x hx
  obtain ⟨before, after, hb, -⟩ := List.lookup_eq_some_iff.mp hx
  exact h id (k, x) (by rw [hb]; exact List.mem_append_right before List.mem_cons_self)

theorem create (h : a.Contains P) (kind : ScopeKind) (parent : Option ScopeId) :
    (a.create kind parent).2.Contains P := by
  intro id
  rw [bindings_create]
  exact h id

theorem setBindings {b : Bindings} (h : a.Contains P) (id : ScopeId) (hb : ∀ entry ∈ b, P entry.2) :
    (a.setBindings id b).Contains P := by
  by_cases hid : id < a.size
  · intro j
    rw [bindings_setBindings hid]
    by_cases hj : j = id
    · rw [if_pos hj]
      exact hb
    · rw [if_neg hj]
      exact h j
  · rwa [setBindings_of_size_le (Nat.le_of_not_lt hid)]

theorem bind (h : a.Contains P) (id : ScopeId) (key : Key) (hx : P x) :
    (a.bind id key x).Contains P := by
  apply h.setBindings
  intro entry hentry
  rcases List.mem_cons.mp hentry with rfl | hentry
  · exact hx
  · exact h id entry (List.mem_of_mem_filter hentry)

theorem append (h : a.Contains P) (source target : ScopeId) :
    (a.append source target).Contains P := by
  unfold Arena.append
  split
  · exact h
  · apply h.setBindings
    intro entry hentry
    rcases List.mem_append.mp hentry with hentry | hentry
    · exact h target entry hentry
    · exact h source entry (List.mem_of_mem_filter hentry)

theorem tags (h : a.Contains P) (id : ScopeId) : ∀ x ∈ a.tags id, P x := by
  intro x hx
  obtain ⟨name, hmem⟩ := Bindings.mem_tags.mp hx
  exact h id _ hmem

end Contains

end Arena

/-- The tokens that are still to be read are readable, and so are all names in scope. -/
structure Parser.Readable (p : Parser) : Prop where
  rest : ∀ t ∈ p.tokens.rest, t.Readable
  sentinel : p.tokens.sentinel.Readable
  held : p.arena.Contains Symbol.Readable

namespace Parser.Readable

variable {p : Parser} {x : Symbol}

theorem peek (h : p.Readable) : p.peek.Readable := by
  rw [Parser.peek, TokenSequence.peek_eq]
  cases hrest : p.tokens.rest with
  | nil => exact h.sentinel
  | cons t ts => exact h.rest t (by rw [hrest]; exact List.mem_cons_self)

theorem advance (h : p.Readable) : p.advance.Readable where
  rest := by
    intro t ht
    rw [Parser.advance, TokenSequence.rest_advance] at ht
    exact h.rest t (List.mem_of_mem_tail ht)
  sentinel := by
    rw [Parser.advance, TokenSequence.sentinel_advance]
    exact h.sentinel
  held := h.held

theorem skip (h : p.Readable) (kind : TokenKind) : (p.skip kind).Readable := by
  unfold Parser.skip
  split
  · exact h.advance
  · exact h

theorem enter (h : p.Readable) (kind : ScopeKind) : (p.enter kind).Readable where
  rest := h.rest
  sentinel := h.sentinel
  held := h.held.create kind _

theorem leaveScope (h : p.Readable) : p.leaveScope.Readable := ⟨h.rest, h.sentinel, h.held⟩

theorem withStore (h : p.Readable) (s : Store) : (p.withStore s).Readable :=
  ⟨h.rest, h.sentinel, h.held⟩

theorem numbered (h : p.Readable) (n : Nat) : (p.numbered n).Readable :=
  ⟨h.rest, h.sentinel, h.held⟩

theorem absorb (h : p.Readable) (source : ScopeId) : (p.absorb source).Readable where
  rest := h.rest
  sentinel := h.sentinel
  held := h.held.append source p.scope

theorem bind (h : p.Readable) (id : ScopeId) (key : Key) (hx : x.Readable) :
    Parser.Readable { p with arena := p.arena.bind id key x } where
  rest := h.rest
  sentinel := h.sentinel
  held := h.held.bind id key hx

theorem define (h : p.Readable) (hx : x.Readable) : (p.define x).Readable := h.bind p.scope _ hx

theorem defineTag (h : p.Readable) (hx : x.Readable) : (p.defineTag x).Readable :=
  h.bind p.scope _ hx

theorem defineAll {xs : List Symbol} (h : p.Readable) (hxs : ∀ x ∈ xs, x.Readable) :
    (p.defineAll xs).Readable := by
  induction xs generalizing p with
  | nil => exact h
  | cons x xs ih =>
    obtain ⟨hx, hxs⟩ := List.forall_mem_cons.mp hxs
    exact ih (h.define hx) hxs

theorem found (h : p.Readable) (hx : p.arena.findToken? p.scope p.peek = some x) : x.Readable :=
  h.held.holds.lookup hx

theorem named (h : p.Readable) (hk : p.peek.kind = .identifier) : Legible p.peek.value :=
  h.peek.text (by rw [hk]; decide) (by rw [hk]; decide)

end Parser.Readable

namespace Parse

variable {α : Type} {P : α → Prop} {operand other : Parse Term} {p q : Parser}

/-- A successful run leaves a readable state and makes something with the property. -/
def Writes (P : α → Prop) (item : Parse α) : Prop :=
  ∀ ⦃p x q⦄, item p = .ok x q → p.Readable → q.Readable ∧ P x

/-! Loops: what each item has, all have. -/

theorem separated_writes {separator : TokenKind} {item : Parse α} {xs : List α}
    (hi : Writes P item) (h : Separated separator item p xs q) (hp : p.Readable) :
    q.Readable ∧ ∀ x ∈ xs, P x := by
  induction h with
  | last hx =>
    obtain ⟨hq, hx⟩ := hi hx hp
    exact ⟨hq, List.forall_mem_singleton.mpr hx⟩
  | cons hx _ _ ih =>
    obtain ⟨hr, hx⟩ := hi hx hp
    obtain ⟨hq, hxs⟩ := ih hr.advance
    exact ⟨hq, List.forall_mem_cons.mpr ⟨hx, hxs⟩⟩

theorem parenthesised_writes {item : Parse α} {xs : List α} (hi : Writes P item)
    (h : Parenthesised item p xs q) (hp : p.Readable) : q.Readable ∧ ∀ x ∈ xs, P x := by
  cases h with
  | unit _ => exact ⟨hp.advance, nofun⟩
  | items _ hs _ =>
    obtain ⟨hq, hxs⟩ := separated_writes hi hs hp.advance
    exact ⟨hq.advance, hxs⟩

theorem chained_writes (ho : Writes Term.Readable operand) {ts : List Term}
    (h : Chained operand p ts q) (hp : p.Readable) : q.Readable ∧ ∀ t ∈ ts, t.Readable := by
  induction h with
  | stop => exact ⟨hp, nofun⟩
  | cons _ ht _ ih =>
    obtain ⟨hr, ht⟩ := ho ht hp
    obtain ⟨hq, hts⟩ := ih hr
    exact ⟨hq, List.forall_mem_cons.mpr ⟨ht, hts⟩⟩

theorem climbs_writes (ho : Writes Term.Readable operand) {floor : Nat} {lhs t : Term}
    (h : Climbs operand floor lhs p t q) (hp : p.Readable) (hlhs : lhs.Readable) :
    q.Readable ∧ t.Readable := by
  induction h with
  | stop => exact ⟨hp, hlhs⟩
  | step hop _ hf _ _ _ ihr ih =>
    obtain ⟨hr, hf⟩ := ho hf hp.advance
    obtain ⟨hu, hrhs⟩ := ihr hr hf
    have hline := hp.peek.text (by rintro hk; rw [hk] at hop; cases hop)
      (by rintro hk; rw [hk] at hop; cases hop)
    exact ih (hu.withStore _) (Term.readable_binary hline.line hlhs hrhs)

theorem operators_writes (ho : Writes Term.Readable operand) :
    Writes Term.Readable (operators operand) := by
  intro p t q h hp
  obtain ⟨first, r, hf, h⟩ := operators_ok h
  obtain ⟨hr, hf⟩ := ho hf hp
  exact climbs_writes ho h hr hf

theorem sequence_writes (ho : Writes Term.Readable operand) :
    Writes Term.Readable (sequence operand) := by
  intro p t q h hp
  have hs := sequence_ok h
  clear h
  induction hs with
  | last h => exact operators_writes ho h hp
  | cons hf _ _ ih =>
    obtain ⟨hr, hf⟩ := operators_writes ho hf hp
    obtain ⟨hq, hs⟩ := ih hr.advance
    exact ⟨hq, Term.readable_sequence hf hs⟩

/-! Each production. -/

theorem application_writes (ho : Writes Term.Readable operand) :
    Writes Exp.Readable (application operand) := by
  intro p e q h hp
  obtain ⟨x, f, args, r, c, s, hx, _, ha, _, rfl, rfl⟩ := application_ok h
  obtain ⟨hr, ha⟩ := chained_writes ho ha hp.advance
  exact ⟨hr.withStore s, Exp.readable_apply (hp.found hx) ha⟩

theorem chainOr_writes (ho : Writes Term.Readable operand) (hother : Writes Term.Readable other) :
    Writes Exp.Readable (chainOr operand other) := by
  intro p e q h hp
  rcases chainOr_ok h with ⟨_, _, h⟩ | ⟨item, hi, rfl⟩
  · exact application_writes ho h hp
  · obtain ⟨hq, hi⟩ := hother hi hp
    exact ⟨hq, Exp.readable_single hi⟩

theorem exp_writes (ho : Writes Term.Readable operand) : Writes Exp.Readable (exp operand) :=
  chainOr_writes ho (sequence_writes ho)

theorem constant_writes : Writes Term.Readable constant := by
  intro p t q h hp
  obtain ⟨value, c, s, hvalue, _, rfl, rfl⟩ := constant_ok h
  have hexact := Constant.exact_of_token hvalue hp.peek.exact
  exact ⟨hp.advance.withStore s, Term.readable_constant hexact⟩

theorem signed_writes (ho : Writes Term.Readable operand) {t : Term}
    (h : signed operand p = .ok t q) (hp : p.Readable)
    (hk : p.peek.kind = .plus ∨ p.peek.kind = .dash) : q.Readable ∧ t.Readable := by
  obtain ⟨inner, r, c, s, hi, _, rfl, rfl⟩ := signed_ok h
  obtain ⟨hr, hi⟩ := ho hi hp.advance
  have hsign : Legible p.peek.value := by
    rcases hk with hk | hk
    · exact hp.peek.text (by rw [hk]; decide) (by rw [hk]; decide)
    · exact hp.peek.text (by rw [hk]; decide) (by rw [hk]; decide)
  exact ⟨hr.withStore s, Term.readable_unary hsign.line hi⟩

theorem name_writes (ho : Writes Term.Readable operand) : Writes Term.Readable (name operand) := by
  intro p t q h hp
  rcases name_ok h with ⟨x, hx, ⟨f, args, r, c, s, _, ha, _, rfl, rfl⟩ | ⟨rfl, rfl⟩⟩
  · obtain ⟨hr, ha⟩ := parenthesised_writes (exp_writes ho) ha hp.advance
    exact ⟨hr.withStore s, Term.readable_call (hp.found hx) ha⟩
  · exact ⟨hp.advance, Term.readable_var (hp.found hx)⟩

theorem grouping_writes (ho : Writes Term.Readable operand) :
    Writes Term.Readable (grouping operand) := by
  intro p t q h hp
  rcases grouping_ok h with
    ⟨first, r, hf, ⟨_, second, u, c, s, hs, _, _, rfl, rfl⟩ | ⟨_, rfl, rfl⟩⟩
  · obtain ⟨hr, hf⟩ := exp_writes ho hf hp.advance
    obtain ⟨hu, hs⟩ := exp_writes ho hs hr.advance
    exact ⟨hu.advance.withStore s, Term.readable_pair hf hs⟩
  · obtain ⟨hr, hf⟩ := exp_writes ho hf hp.advance
    exact ⟨hr.advance, Term.readable_paren hf⟩

theorem projection_writes (ho : Writes Term.Readable operand) :
    Writes Term.Readable (projection operand) := by
  intro p t q h hp
  obtain ⟨first, r, second, u, _, hf, _, hs, _, rfl, rfl⟩ := projection_ok h
  obtain ⟨hr, hf⟩ := exp_writes ho hf hp.advance.advance
  obtain ⟨hu, hs⟩ := exp_writes ho hs hr.advance
  exact ⟨hu.advance, Term.readable_projection hf hs⟩

theorem branch_writes (ho : Writes Term.Readable operand) :
    Writes (fun b => b.1.Readable) (branch operand) := by
  intro p b q h hp
  obtain ⟨r, he, _, rfl⟩ := branch_ok h
  obtain ⟨hr, hb⟩ := chainOr_writes ho (operators_writes ho) he (hp.enter .block)
  exact ⟨hr.leaveScope, hb⟩

theorem elseBranch_writes (ho : Writes Term.Readable operand) :
    Writes (fun b => ∀ c ∈ b, c.1.Readable) (elseBranch operand) := by
  intro p b q h hp
  rcases elseBranch_ok h with ⟨_, c, hc, rfl⟩ | ⟨rfl, rfl⟩
  · obtain ⟨hq, hc⟩ := branch_writes ho hc hp.advance
    exact ⟨hq, by simpa using hc⟩
  · exact ⟨hp, nofun⟩

theorem conditional_writes (ho : Writes Term.Readable operand) :
    Writes Term.Readable (conditional operand) := by
  intro p t q h hp
  obtain ⟨condition, r, first, u, second, v, c, s, hc, _, hf, hs, _, rfl, rfl⟩ :=
    conditional_ok h
  obtain ⟨hr, hc⟩ := exp_writes ho hc hp.advance
  obtain ⟨hu, hf⟩ := branch_writes ho hf hr.advance
  obtain ⟨hv, hs⟩ := elseBranch_writes ho hs hu
  have hw := (hv.withStore s).absorb first.2
  cases second with
  | none => exact ⟨hw, Term.readable_conditional hc hf nofun⟩
  | some b =>
    exact ⟨hw.absorb b.2, Term.readable_conditional hc hf (by simpa using hs b rfl)⟩

theorem loop_writes (ho : Writes Term.Readable operand) : Writes Term.Readable (loop operand) := by
  intro p t q h hp
  obtain ⟨condition, r, body, u, c, s, hc, _, hb, _, _, rfl, rfl⟩ := loop_ok h
  obtain ⟨hr, hc⟩ := exp_writes ho hc hp.advance
  obtain ⟨hu, hb⟩ := exp_writes ho hb (hr.advance.enter .block)
  exact ⟨(hu.leaveScope.advance.withStore s).absorb _, Term.readable_loop hc hb⟩

theorem identifier_writes : Writes (fun t => Legible t.value) (expect .identifier) := by
  intro p t q h hp
  obtain ⟨hk, rfl, rfl⟩ := expect_ok.mp h
  exact ⟨hp.advance, hp.named hk⟩

theorem parameters_readable {n : Nat} {tokens : List Token} {cells : List Cell}
    (h : ∀ t ∈ tokens, Legible t.value) : ∀ x ∈ parameters n tokens cells, x.Readable := by
  induction tokens generalizing n cells with
  | nil => simp [parameters]
  | cons token tokens ih =>
    obtain ⟨htoken, h⟩ := List.forall_mem_cons.mp h
    cases cells with
    | nil => simp [parameters]
    | cons c cells => exact List.forall_mem_cons.mpr ⟨htoken, ih h⟩

theorem function_writes (ho : Writes Term.Readable operand) {name : Token}
    (hname : Legible name.value) (isRec : Bool) :
    Writes Binding.Readable (function operand name isRec) := by
  intro p b q h hp
  obtain ⟨tokens, p₁, f, s₁, x, s₂, p₂, params, body, p₃, s₃, ht, _, hx, rfl, rfl, _, hb, _, rfl,
    rfl⟩ := function_ok h
  obtain ⟨hp₁, ht⟩ := parenthesised_writes identifier_writes ht hp
  obtain ⟨c, _, rfl⟩ := functionOf_ok.mp hx
  have hx : Symbol.Readable ⟨p₁.symbols, name.value, c, name, .function f⟩ := hname
  have hp₁ := (hp₁.numbered 1).withStore s₂
  have hparams : ∀ n, ∀ y ∈ parameters n tokens f.params, y.Readable := fun n =>
    parameters_readable ht
  cases isRec with
  | false =>
    obtain ⟨hp₃, hbody⟩ :=
      exp_writes ho hb (((hp₁.enter .function).numbered _).defineAll (hparams _)).advance
    exact ⟨((hp₃.leaveScope.withStore s₃).define hx).defineTag hx, hx, hparams _, hbody⟩
  | true =>
    obtain ⟨hp₃, hbody⟩ :=
      exp_writes ho hb
        ((((hp₁.define hx).enter .function).numbered _).defineAll (hparams _)).advance
    exact ⟨(hp₃.leaveScope.withStore s₃).defineTag hx, hx, hparams _, hbody⟩

theorem binding_writes (ho : Writes Term.Readable operand) (isRec : Bool) :
    Writes Binding.Readable (binding operand isRec) := by
  intro p b q h hp
  obtain ⟨hk, h⟩ := binding_ok h
  have hname := hp.named hk
  rcases h with h | ⟨body, r, _, hb, rfl, rfl⟩
  · exact function_writes ho hname isRec h hp.advance
  · obtain ⟨hr, hb⟩ := exp_writes ho hb hp.advance.advance
    have hx : (Symbol.variableOf r.symbols p.peek body.cell).Readable := hname
    exact ⟨(hr.numbered 1).define hx, hx, hb⟩

theorem letBindings_write (ho : Writes Term.Readable operand) {isRec : Bool} {bs : List Binding}
    (h : Separated .andWord (binding operand isRec) ((p.advance.skip .recWord).enter .block) bs q)
    (hp : p.Readable) : q.Readable ∧ ∀ b ∈ bs, b.Readable :=
  separated_writes (binding_writes ho isRec) h ((hp.advance.skip .recWord).enter .block)

theorem finishLet_writes (ho : Writes Term.Readable operand) {token : Token} {bs : List Binding}
    {scope : ScopeId} {t : Term} (h : finishLet operand token bs scope p = .ok t q)
    (hp : p.Readable) (hbs : ∀ b ∈ bs, b.Readable) : q.Readable ∧ t.Readable := by
  obtain ⟨body, r, _, hb, rfl, rfl⟩ := finishLet_ok h
  obtain ⟨hr, hb⟩ := exp_writes ho hb hp.advance
  exact ⟨hr.leaveScope.absorb scope, Term.readable_letIn hbs hb⟩

theorem letIn_writes (ho : Writes Term.Readable operand) :
    Writes Term.Readable (letIn operand) := by
  intro p t q h hp
  obtain ⟨bs, r, hbs, h⟩ := letIn_ok h
  obtain ⟨hr, hbs⟩ := letBindings_write ho hbs hp
  exact finishLet_writes ho h hr hbs

theorem operandStep_writes (ho : Writes Term.Readable operand) :
    Writes Term.Readable (operandStep operand) := by
  intro p t q h hp
  cases operandStep_ok h with
  | name _ h => exact name_writes ho h hp
  | constant _ h => exact constant_writes h hp
  | signed hk h => exact signed_writes ho h hp hk
  | grouping _ h => exact grouping_writes ho h hp
  | projection _ h => exact projection_writes ho h hp
  | conditional _ h => exact conditional_writes ho h hp
  | loop _ h => exact loop_writes ho h hp
  | letIn _ h => exact letIn_writes ho h hp

theorem operand_writes : Writes Term.Readable Parse.operand := by
  intro p t q h hp
  obtain ⟨n, h⟩ := operand_ok h
  exact operand_induction (P := Writes Term.Readable) (fun _ _ _ h => absurd h unexpected_ok)
    (fun _ => operandStep_writes) n h hp

/-! Statements. -/

theorem foldl_atTop_readable {bs : List Binding} (hp : p.Readable) (hbs : ∀ b ∈ bs, b.Readable) :
    (bs.foldl atTop p).Readable := by
  induction bs generalizing p with
  | nil => exact hp
  | cons b bs ih =>
    obtain ⟨hb, hrest⟩ := List.forall_mem_cons.mp hbs
    rw [List.foldl_cons]
    apply ih _ hrest
    cases b with
    | value x body => exact hp.bind Parser.fileScope _ hb.1
    | function x params body isRec scope =>
      exact (hp.bind Parser.fileScope _ hb.1).bind Parser.fileScope _ hb.1

def StmtsReadable (ss : List Stmt) : Prop := ∀ st ∈ ss, st.Readable

theorem expStmt_writes {token : Token} {block : ScopeId} :
    Writes StmtsReadable (expStmt token block) := by
  intro p ss q h hp
  obtain ⟨e, r, he, _, rfl, rfl⟩ := expStmt_ok h
  obtain ⟨hr, he⟩ := exp_writes operand_writes he hp
  refine ⟨hr.advance, List.forall_mem_singleton.mpr ?_⟩
  cases hv : e.var? with
  | none => exact Stmt.readable_exp he
  | some use =>
    obtain ⟨root, scope, rfl⟩ := exp_of_var? hv
    exact Stmt.readable_var he

theorem letStmt_writes {token : Token} {block : ScopeId} :
    Writes StmtsReadable (letStmt token block) := by
  intro p ss q h hp
  obtain ⟨bs, r, hbs, h⟩ := letStmt_ok h
  obtain ⟨hr, hbs⟩ := letBindings_write operand_writes hbs hp
  rcases h with ⟨item, u, hi, _, rfl, rfl⟩ | ⟨_, rfl, rfl⟩
  · obtain ⟨hu, hi⟩ := finishLet_writes operand_writes hi hr hbs
    exact ⟨hu.advance, List.forall_mem_singleton.mpr (Stmt.readable_exp (Exp.readable_single hi))⟩
  · exact ⟨foldl_atTop_readable hr.leaveScope.advance hbs,
      List.forall_mem_map.mpr fun b hb => Stmt.readable_define (hbs b hb)⟩

theorem stmt_writes : Writes StmtsReadable stmt := by
  intro p ss q h hp
  rcases stmt_ok h with ⟨r, rfl, ⟨_, h⟩ | h⟩
  · obtain ⟨hr, hs⟩ := letStmt_writes h (hp.enter .block)
    exact ⟨hr.leaveScope, hs⟩
  · obtain ⟨hr, hs⟩ := expStmt_writes h (hp.enter .block)
    exact ⟨hr.leaveScope, hs⟩

theorem stmts_write (n : Nat) : Writes StmtsReadable (stmts n) := by
  induction n with
  | zero =>
    intro p ss q h hp
    obtain ⟨rfl, rfl⟩ := pure_ok.mp h
    exact ⟨hp, by simp [StmtsReadable]⟩
  | succ n ih =>
    intro p ss q h hp
    rcases stmts_succ_ok h with ⟨_, _, h⟩ | ⟨_, first, r, others, hf, ho, rfl⟩ | ⟨_, rfl, rfl⟩
    · obtain ⟨hq, hs⟩ := ih h hp.advance
      exact ⟨hq, hs⟩
    · obtain ⟨hr, hf⟩ := stmt_writes hf hp
      obtain ⟨hq, ho⟩ := ih ho hr
      exact ⟨hq, List.forall_mem_append.mpr ⟨hf, ho⟩⟩
    · exact ⟨hp, by simp [StmtsReadable]⟩

end Parse

/-! The tokens of a source. -/

theorem Legible.of_all {p : Char → Bool} {cs : List Char} (hnewline : p '\n' = false)
    (hbracket : p '[' = false) (hall : ∀ c ∈ cs, p c) : Legible (String.ofList cs) := by
  constructor
  · rw [OneLine, String.toList_ofList]
    intro hmem
    simp [hall _ hmem] at hnewline
  · rw [String.toList_ofList]
    intro hmem
    simp [hall _ hmem] at hbracket

theorem Lexeme.legible {kind : TokenKind} {value : List Char} (h : Lexeme kind value)
    (hline : kind ≠ .newline) (hstring : kind ≠ .string) : Legible (String.ofList value) := by
  cases h.reads with
  | newline => exact absurd rfl hline
  | @word c cs hc hcs =>
    apply Legible.of_all (p := Lexer.isWordPart) (by decide) (by decide)
    exact List.forall_mem_cons.mpr ⟨isWordPart_of_start hc, hcs⟩
  | @number c cs hc hcs =>
    apply Legible.of_all (p := Lexer.isNumberPart) (by decide) (by decide)
    exact List.forall_mem_cons.mpr ⟨by simp [Lexer.isNumberPart, hc], hcs⟩
  | string _ _ => exact absurd rfl hstring
  | fixed hmem =>
    have hall : ∀ kind ∈ punctuation, '\n' ∉ kind.text.toList ∧ '[' ∉ kind.text.toList := by
      decide +kernel
    rw [String.ofList_toList]
    exact ⟨(hall kind hmem).1, (hall kind hmem).2⟩

/-- No token of the source is the literal of a float. -/
def FloatFree (source file : String) : Prop :=
  ∀ s, tokenize source file = .ok s → ∀ t ∈ s.toList, t.kind ≠ .float

theorem floatFree_iff {source file : String} : FloatFree source file ↔
    (tokenize source file).toOption.all fun s => s.toList.all (·.kind != .float) := by
  unfold FloatFree
  cases tokenize source file with
  | error d => simp [Except.toOption]
  | ok s => simp [Except.toOption]

instance (source file : String) : Decidable (FloatFree source file) :=
  decidable_of_iff _ floatFree_iff.symm

theorem FloatFree.tokens {source file : String} {s : TokenSequence} (h : FloatFree source file)
    (hs : tokenize source file = .ok s) : ∀ t ∈ s.toList, t.Readable := by
  intro t ht
  refine ⟨fun hline hstring => ?_, h s hs t ht⟩
  obtain ⟨ts, hts, hs⟩ := Lexer.bind_eq_ok.mp hs
  cases hs
  obtain ⟨lexed, hlexed, rfl⟩ := Lexer.tokens_segmented hts
  rcases endLine_mem ht with hmem | rfl
  · rw [← String.ofList_toList (s := t.value)]
    exact (hlexed.lexeme_mem hmem).legible hline hstring
  · exact absurd rfl hline

theorem Parser.Readable.initial {ts : List Token} (h : ∀ t ∈ ts, t.Readable) (file : String) :
    (Parser.ofTokens (.ofList ts file)).Readable where
  rest := fun t ht => h t (List.mem_of_mem_filter ht)
  sentinel := by
    have hname : Legible "EOF" := ⟨by decide, by decide⟩
    exact ⟨fun _ _ => hname, TokenKind.noConfusion⟩
  held := by
    apply Arena.Contains.create
    intro id entry hentry
    cases hentry

theorem FloatFree.program {source file : String} {p : Program} (h : FloatFree source file)
    (hp : compile source file = .ok p) : p.Readable := by
  obtain ⟨s, hs, hp⟩ := Lexer.bind_eq_ok.mp hp
  have htokens := h.tokens hs
  obtain ⟨ts, -, hs⟩ := Lexer.bind_eq_ok.mp hs
  cases hs
  obtain ⟨q, hstmts, -, harena, -⟩ := parse_ok hp
  obtain ⟨hq, hstmts⟩ := Parse.stmts_write _ hstmts (.initial htokens file)
  constructor
  · apply Rose.all_listRows
    intro t ht
    obtain ⟨stmt, hstmt, rfl⟩ := List.mem_map.mp ht
    exact hstmts stmt hstmt p.store
  · rw [harena]
    exact fun x hx => (hq.held.tags p.scope x hx).line

/-- Accepted programs without floats whose trees are shown by the same text have trees that are alike:
the same nodes in the same nesting, with the same names, operators, constants, parameters and
types. -/
theorem dump_determines_tree {source source' file file' : String} {p q : Program}
    (hp : compile source file = .ok p) (hq : compile source' file' = .ok q)
    (hsource : FloatFree source file) (hsource' : FloatFree source' file')
    (h : p.dump = q.dump) : p.Alike q := by
  apply Program.alike_of_skeleton
  exact Program.skeleton_of_dump (hsource.program hp) (hsource'.program hq) h

/-- A program and the same program in another layout, with a comment and a continuation. Its string
has a backslash, a newline and brackets in it. -/
theorem dump_determines_tree_relaid :
    let source := "let rec f(n, s) = if n < 1 then s else f(n - 1, \"[\\n\n]\") ;; f(2, \"\") ;;"
    let relaid :=
      "le\\\nt rec f (n,s) = (* [ *) if n<1\nthen s else f(n-1, \"[\\n\n]\");;\nf(2,\"\");;"
    FloatFree source "shell" ∧ FloatFree relaid "prelude" ∧
      ∃ p q, compile source "shell" = .ok p ∧ compile relaid "prelude" = .ok q ∧
        p.stmts.length = 2 ∧ p.dump = q.dump ∧ p.Alike q := by
  intro source relaid
  have hfree : FloatFree source "shell" := by decide +kernel
  have hfree' : FloatFree relaid "prelude" := by decide +kernel
  have hrun : ((compile source "shell").toOption.bind fun p =>
      (compile relaid "prelude").toOption.map fun q =>
        (p.stmts.length, decide (p.lines = q.lines))) = some (2, true) := by decide +kernel
  obtain ⟨p, hp, hrun⟩ := Option.bind_eq_some_iff.mp hrun
  obtain ⟨q, hq, hrun⟩ := Option.map_eq_some_iff.mp hrun
  have hp := ok_of_toOption hp
  have hq := ok_of_toOption hq
  have hlines : p.lines = q.lines := of_decide_eq_true (congrArg Prod.snd hrun)
  have hdump : p.dump = q.dump := congrArg Dump.unlines hlines
  exact ⟨hfree, hfree', p, q, hp, hq, congrArg Prod.fst hrun, hdump,
    dump_determines_tree hp hq hfree hfree' hdump⟩

end MiniMl
