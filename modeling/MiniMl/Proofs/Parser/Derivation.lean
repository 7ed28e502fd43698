import MiniMl.Proofs.Parser.Productions
import MiniMl.Proofs.Scope.Restoration
import MiniMl.Proofs.Token.Sequence
import MiniMl.Proofs.Tree.Written

/-! # The tree derives the whole input

The tokens a production reads are a word of the tree it makes. Newlines are stepped over, and
nothing else is dropped, read twice or moved.
-/

namespace MiniMl

open Written

namespace TokenSequence

variable {s t u : TokenSequence} {l m : Language Token}

/-- A word of the language was read. -/
structure Yields (s : TokenSequence) (l : Language Token) (t : TokenSequence) : Prop where
  word : ∃ ts ∈ l, s.rest = ts ++ t.rest
  ended : t.Ended

theorem Yields.mul (h : s.Yields l t) (h' : t.Yields m u) : s.Yields (l * m) u := by
  obtain ⟨ts, hts, hs⟩ := h.word
  obtain ⟨us, hus, ht⟩ := h'.word
  refine ⟨⟨ts ++ us, Language.append_mem_mul hts hus, ?_⟩, h'.ended⟩
  rw [hs, ht, List.append_assoc]

theorem Yields.refl (hs : s.Ended) : s.Yields 1 s := ⟨⟨[], Language.nil_mem_one, rfl⟩, hs⟩

theorem Yields.ofKind {kind : TokenKind} (hs : s.Ended) (hk : s.peek.kind = kind)
    (hend : kind ≠ .endOfInput) : s.Yields (ofKind kind) s.advance := by
  obtain ⟨hrest, hended⟩ := rest_eq_cons hs (hk ▸ hend)
  exact ⟨⟨[s.peek], ⟨s.peek, rfl, hk⟩, hrest⟩, hended⟩

theorem Yields.andKind {kind : TokenKind} (h : s.Yields l t) (hk : t.peek.kind = kind)
    (hend : kind ≠ .endOfInput) : s.Yields (l * Written.ofKind kind) t.advance :=
  h.mul (.ofKind h.ended hk hend)

theorem Yields.stored (admitted : TokenKind → Prop) (hs : s.Ended) (hk : admitted s.peek.kind)
    (hend : ¬ admitted .endOfInput) : s.Yields (stored s.peek admitted) s.advance := by
  have hne : s.peek.kind ≠ .endOfInput := by
    intro h
    exact hend (h ▸ hk)
  obtain ⟨hrest, hended⟩ := rest_eq_cons hs hne
  exact ⟨⟨[s.peek], ⟨rfl, hk⟩, hrest⟩, hended⟩

theorem Yields.storedKind {kind : TokenKind} (hs : s.Ended) (hk : s.peek.kind = kind)
    (hend : kind ≠ .endOfInput) : s.Yields (Written.stored s.peek (· = kind)) s.advance :=
  .stored (· = kind) hs hk hend.symm

theorem Yields.startingWith {token : Token} (h : s.Yields l t) (hl : Starts l token) :
    s.Yields (startingWith s.peek l) t := by
  obtain ⟨ts, hts, hs⟩ := h.word
  have hhead := hl ts hts
  refine ⟨⟨ts, ⟨hts, ?_⟩, hs⟩, h.ended⟩
  rw [peek_eq, hs]
  cases ts with
  | nil => cases hhead
  | cons a as => rfl

end TokenSequence

namespace Parse

variable {α : Type} {p q : Parser}

section Expressions

variable {words : α → Language Token} {operand other : Parse Term}

/-- What the reader makes is written as the tokens it has read. -/
def Derives (words : α → Language Token) (item : Parse α) : Prop :=
  ∀ ⦃p x q⦄, item p = .ok x q → p.tokens.Ended → p.tokens.Yields (words x) q.tokens

theorem Derives.behind {item : Parse α} {x : α} {s : TokenSequence} {l : Language Token}
    (hi : Derives words item) (h : s.Yields l p.tokens) (hx : item p = .ok x q) :
    s.Yields (l * words x) q.tokens :=
  h.mul (hi hx h.ended)

theorem separated_derives {separator : TokenKind} {item : Parse α} {xs : List α}
    (hend : separator ≠ .endOfInput) (hi : Derives words item)
    (h : Separated separator item p xs q) (hp : p.tokens.Ended) :
    p.tokens.Yields (joined separator (xs.map words)) q.tokens := by
  induction h with
  | last hx => exact hi hx hp
  | @cons p q r x xs hx hk hxs ih =>
    have hr := hi hx hp
    have hs := hr.andKind hk hend
    have hq := hs.mul (ih hs.ended)
    cases hxs with
    | last => exact hq
    | cons => exact hq

theorem separated_ne_nil {separator : TokenKind} {item : Parse α} {xs : List α}
    (h : Separated separator item p xs q) : xs ≠ [] := by
  cases h with
  | last => simp
  | cons => simp

theorem parenthesised_derives {item : Parse α} {xs : List α} (hi : Derives words item)
    (h : Parenthesised item p xs q) (hp : p.tokens.Ended) :
    p.tokens.Yields (Written.parenthesised (xs.map words)) q.tokens := by
  cases h with
  | unit hk =>
    have hq := TokenSequence.Yields.ofKind hp hk (by decide)
    exact hq
  | items ho hs hc =>
    have h₁ := TokenSequence.Yields.ofKind hp ho (by decide)
    have h₂ := h₁.mul (separated_derives (by decide) hi hs h₁.ended)
    have h₃ := h₂.andKind hc (by decide)
    cases xs with
    | nil => exact absurd rfl (separated_ne_nil hs)
    | cons x xs => exact h₃

theorem chained_derives (ho : Derives Term.written operand) {ts : List Term}
    (h : Chained operand p ts q) (hp : p.tokens.Ended) :
    p.tokens.Yields (Term.listWritten ts).prod q.tokens := by
  induction h with
  | stop => exact .refl hp
  | cons _ ht _ ih =>
    have hr := ho ht hp
    rw [Term.listWritten, List.prod_cons]
    exact hr.mul (ih hr.ended)

theorem climbs_derives (ho : Derives Term.written operand) {s : TokenSequence} {floor : Nat}
    {lhs t : Term} (h : Climbs operand floor lhs p t q)
    (hlhs : s.Yields lhs.written p.tokens) : s.Yields t.written q.tokens := by
  induction h generalizing s with
  | stop => exact hlhs
  | @step _ _ p _ _ _ _ _ _ _ _ _ hop _ hf _ _ _ ihr ih =>
    have hpower : p.tokens.peek.kind.power?.isSome = true := by
      change p.peek.kind.power?.isSome = true
      rw [hop]
      rfl
    have h₁ := hlhs.mul (.stored (·.power?.isSome = true) hlhs.ended hpower (by decide))
    have hf := ho hf h₁.ended
    exact ih (h₁.mul (ihr hf))

theorem operators_derives (ho : Derives Term.written operand) :
    Derives Term.written (operators operand) := by
  intro p t q h hp
  obtain ⟨first, r, hf, h⟩ := operators_ok h
  exact climbs_derives ho h (ho hf hp)

theorem sequence_derives (ho : Derives Term.written operand) :
    Derives Term.written (sequence operand) := by
  intro p t q h hp
  have hs := sequence_ok h
  clear h
  induction hs with
  | last h => exact operators_derives ho h hp
  | cons hf hk _ ih =>
    have h₁ := operators_derives ho hf hp
    have h₂ := h₁.mul (.storedKind h₁.ended hk (by decide))
    exact h₂.mul (ih h₂.ended)

theorem application_derives (ho : Derives Term.written operand) {e : Exp}
    (h : application operand p = .ok e q) (hk : p.peek.kind = .identifier)
    (hp : p.tokens.Ended) : p.tokens.Yields e.written q.tokens := by
  obtain ⟨x, f, args, r, c, s, _, _, ha, _, rfl, rfl⟩ := application_ok h
  have hhead := TokenSequence.Yields.storedKind hp hk (by decide)
  exact hhead.mul (chained_derives ho ha hhead.ended)

theorem chainOr_derives (ho : Derives Term.written operand) (hother : Derives Term.written other) :
    Derives Exp.written (chainOr operand other) := by
  intro p e q h hp
  rcases chainOr_ok h with ⟨hk, _, h⟩ | ⟨item, hi, rfl⟩
  · exact application_derives ho h hk hp
  · exact (hother hi hp).startingWith item.written_starts

theorem exp_derives (ho : Derives Term.written operand) : Derives Exp.written (exp operand) :=
  chainOr_derives ho (sequence_derives ho)

theorem constant_derives {t : Term} (h : constant p = .ok t q)
    (hk : p.peek.kind = .int ∨ p.peek.kind = .float ∨ p.peek.kind = .bool ∨
      p.peek.kind = .string ∨ p.peek.kind = .unit)
    (hp : p.tokens.Ended) : p.tokens.Yields t.written q.tokens := by
  obtain ⟨value, c, s, hv, _, rfl, rfl⟩ := constant_ok h
  have hne : p.tokens.peek.kind ≠ .endOfInput := by
    intro hend
    change p.peek.kind = .endOfInput at hend
    rw [hend] at hk
    revert hk
    decide
  obtain ⟨hrest, hended⟩ := TokenSequence.rest_eq_cons hp hne
  exact ⟨⟨[p.peek], ⟨rfl, hv, hk⟩, hrest⟩, hended⟩

theorem signed_derives (ho : Derives Term.written operand) {t : Term}
    (h : signed operand p = .ok t q) (hk : p.peek.kind = .plus ∨ p.peek.kind = .dash)
    (hp : p.tokens.Ended) : p.tokens.Yields t.written q.tokens := by
  obtain ⟨inner, r, c, s, hi, _, rfl, rfl⟩ := signed_ok h
  have hop := TokenSequence.Yields.stored (fun k => k = .plus ∨ k = .dash) hp hk (by decide)
  exact hop.mul (ho hi hop.ended)

theorem name_derives (ho : Derives Term.written operand) {t : Term}
    (h : name operand p = .ok t q) (hk : p.peek.kind = .identifier) (hp : p.tokens.Ended) :
    p.tokens.Yields t.written q.tokens := by
  have hname := TokenSequence.Yields.storedKind hp hk (by decide)
  rcases name_ok h with ⟨x, _, ⟨f, args, r, c, s, _, ha, _, rfl, rfl⟩ | ⟨rfl, rfl⟩⟩
  · have hargs := parenthesised_derives (exp_derives ho) ha hname.ended
    rw [← Exp.listWritten_eq] at hargs
    exact hname.mul hargs
  · exact hname

theorem grouping_derives (ho : Derives Term.written operand) {t : Term}
    (h : grouping operand p = .ok t q) (hk : p.peek.kind = .openParen) (hp : p.tokens.Ended) :
    p.tokens.Yields t.written q.tokens := by
  obtain ⟨first, r, hf, h⟩ := grouping_ok h
  have h₁ := TokenSequence.Yields.storedKind hp hk (by decide)
  have h₂ := (exp_derives ho).behind h₁ hf
  rcases h with ⟨hk, second, u, c, s, hs, hc, _, rfl, rfl⟩ | ⟨hc, rfl, rfl⟩
  · have h₃ := h₂.andKind hk (by decide)
    have h₄ := (exp_derives ho).behind h₃ hs
    exact h₄.andKind hc (by decide)
  · exact h₂.andKind hc (by decide)

theorem projection_derives (ho : Derives Term.written operand) {t : Term}
    (h : projection operand p = .ok t q) (hk : p.peek.kind = .fstWord ∨ p.peek.kind = .sndWord)
    (hp : p.tokens.Ended) : p.tokens.Yields t.written q.tokens := by
  obtain ⟨first, r, second, u, ho₁, hf, hc, hs, hc₁, rfl, rfl⟩ := projection_ok h
  have rest : ∀ kind : TokenKind, p.tokens.Yields (stored p.peek (· = kind)) p.advance.tokens →
      p.tokens.Yields (stored p.peek (· = kind) * ofKind .openParen * first.written *
        ofKind .comma * second.written * ofKind .closeParen) u.advance.tokens := by
    intro kind h₁
    have h₂ := h₁.andKind ho₁ (by decide)
    have h₃ := (exp_derives ho).behind h₂ hf
    have h₄ := h₃.andKind hc (by decide)
    have h₅ := (exp_derives ho).behind h₄ hs
    exact h₅.andKind hc₁ (by decide)
  rcases hk with hk | hk
  · rw [if_pos hk]
    exact rest .fstWord (.storedKind hp hk (by decide))
  · rw [if_neg (by rw [hk]; decide)]
    exact rest .sndWord (.storedKind hp hk (by decide))

theorem branch_derives (ho : Derives Term.written operand) :
    Derives (fun b => b.1.written) (branch operand) := by
  intro p b q h hp
  obtain ⟨r, he, _, rfl⟩ := branch_ok h
  have hr := chainOr_derives ho (operators_derives ho) he hp
  exact hr

theorem conditional_derives (ho : Derives Term.written operand) {t : Term}
    (h : conditional operand p = .ok t q) (hk : p.peek.kind = .ifWord) (hp : p.tokens.Ended) :
    p.tokens.Yields t.written q.tokens := by
  obtain ⟨condition, r, first, u, second, v, c, s, hc, hthen, hf, hs, _, rfl, hq⟩ :=
    conditional_ok h
  have hq : q.tokens = v.tokens := by
    subst hq
    cases second with
    | none => rfl
    | some b => rfl
  have h₁ := TokenSequence.Yields.storedKind hp hk (by decide)
  have h₂ := (exp_derives ho).behind h₁ hc
  have h₃ := h₂.andKind hthen (by decide)
  have h₄ := (branch_derives ho).behind h₃ hf
  rw [hq]
  rcases elseBranch_ok hs with ⟨helse, b, hb, rfl⟩ | ⟨rfl, rfl⟩
  · have h₅ := TokenSequence.Yields.ofKind h₄.ended helse (by decide)
    exact h₄.mul ((branch_derives ho).behind h₅ hb)
  · exact h₄.mul (.refl h₄.ended)

theorem loop_derives (ho : Derives Term.written operand) {t : Term}
    (h : loop operand p = .ok t q) (hk : p.peek.kind = .whileWord) (hp : p.tokens.Ended) :
    p.tokens.Yields t.written q.tokens := by
  obtain ⟨condition, r, body, u, c, s, hc, hdo, hb, hdone, _, rfl, rfl⟩ := loop_ok h
  have h₁ := TokenSequence.Yields.storedKind hp hk (by decide)
  have h₂ := (exp_derives ho).behind h₁ hc
  have h₃ := h₂.andKind hdo (by decide)
  have h₄ := (exp_derives ho).behind h₃ hb
  exact h₄.andKind hdone (by decide)

theorem identifier_derives :
    Derives (fun t => stored t (· = .identifier)) (expect .identifier) := by
  intro p t q h hp
  obtain ⟨hk, rfl, rfl⟩ := expect_ok.mp h
  exact .storedKind hp hk (by decide)

theorem parameters_tokens {n : Nat} {tokens : List Token} {cells : List Cell}
    (hl : cells.length = tokens.length) :
    (parameters n tokens cells).map Symbol.token = tokens := by
  induction tokens generalizing n cells with
  | nil => simp [parameters]
  | cons token tokens ih =>
    cases cells with
    | nil => cases hl
    | cons c cells =>
      rw [parameters, List.map_cons, ih (Nat.succ.inj hl)]
      rfl

theorem defineAll_tokens (p : Parser) (xs : List Symbol) : (p.defineAll xs).tokens = p.tokens := by
  induction xs generalizing p with
  | nil => rfl
  | cons x xs ih => exact ih (p.define x)

theorem function_derives (ho : Derives Term.written operand) {s : TokenSequence} {name : Token}
    {isRec : Bool} {b : Binding} (h : function operand name isRec p = .ok b q)
    (hname : s.Yields (stored name (· = .identifier)) p.tokens) :
    s.Yields b.written q.tokens ∧ b.recursion? = some isRec := by
  obtain ⟨tokens, p₁, f, s₁, x, s₂, p₂, params, body, p₃, s₃, ht, hf, hx, hp₂, hparams, hk, hb, _,
    rfl, hq⟩ := function_ok h
  obtain ⟨c, _, rfl⟩ := functionOf_ok.mp hx
  have hdefined : ((p₂.numbered params.length).defineAll params).tokens = p₁.tokens := by
    rw [defineAll_tokens, hp₂]
    cases isRec
    · rfl
    · rfl
  have hq : q.tokens = p₃.tokens := by
    rw [hq]
    cases isRec
    · rfl
    · rfl
  have h₁ := parenthesised_derives identifier_derives ht hname.ended
  rw [← parameters_tokens (n := p₂.symbols) (Signature.new_length hf), ← hparams,
    List.map_map] at h₁
  have h₂ := hname.mul h₁
  rw [← hdefined] at h₂
  have h₃ := h₂.andKind hk (by decide)
  have h₄ := (exp_derives ho).behind h₃ hb
  rw [hq]
  exact ⟨h₄, rfl⟩

theorem binding_derives (ho : Derives Term.written operand) {isRec : Bool} {b : Binding}
    (h : binding operand isRec p = .ok b q) (hp : p.tokens.Ended) :
    p.tokens.Yields b.written q.tokens ∧ (b.recursion? = none ∨ b.recursion? = some isRec) := by
  obtain ⟨hk, h⟩ := binding_ok h
  have hname := TokenSequence.Yields.storedKind hp hk (by decide)
  rcases h with h | ⟨body, r, ha, hb, rfl, rfl⟩
  · obtain ⟨hq, hrec⟩ := function_derives ho h hname
    exact ⟨hq, .inr hrec⟩
  · have h₂ := hname.andKind ha (by decide)
    have h₃ := (exp_derives ho).behind h₂ hb
    exact ⟨h₃, .inl rfl⟩

theorem bindings_derive (ho : Derives Term.written operand) {isRec : Bool} {bs : List Binding}
    (h : Separated .andWord (binding operand isRec) p bs q) (hp : p.tokens.Ended) :
    p.tokens.Yields (joined .andWord (Binding.listWritten bs)) q.tokens := by
  rw [Binding.listWritten_eq]
  exact separated_derives (by decide) (fun _ _ _ h hp => (binding_derives ho h hp).1) h hp

theorem bindings_recursion (ho : Derives Term.written operand) {isRec : Bool} {bs : List Binding}
    (h : Separated .andWord (binding operand isRec) p bs q) (hp : p.tokens.Ended) :
    ∀ b ∈ bs, b.recursion? = none ∨ b.recursion? = some isRec := by
  induction h with
  | last hb => exact List.forall_mem_singleton.mpr (binding_derives ho hb hp).2
  | cons hb hk _ ih =>
    obtain ⟨hr, hrec⟩ := binding_derives ho hb hp
    have hs := TokenSequence.Yields.ofKind hr.ended hk (by decide)
    exact List.forall_mem_cons.mpr ⟨hrec, ih hs.ended⟩

theorem recWord_yields {isRec : Bool} {bs : List Binding} (hp : p.tokens.Ended)
    (hrec : isRec = (p.taken? .recWord).isSome)
    (hbs : ∀ b ∈ bs, b.recursion? = none ∨ b.recursion? = some isRec) :
    p.tokens.Yields (recWord bs) (p.skip .recWord).tokens := by
  unfold Parser.taken? at hrec
  unfold Parser.skip Written.recWord
  by_cases hk : p.peek.kind = .recWord
  · rw [if_pos hk] at hrec ⊢
    have hword := TokenSequence.Yields.ofKind hp hk (by decide)
    split
    · exact hword
    · split
      · exact ⟨hword.word.imp fun ts hts => ⟨.inr hts.1, hts.2⟩, hword.ended⟩
      · rename_i hany hall
        refine absurd (List.all_eq_true.mpr ?_) hall
        intro b hb
        rcases hbs b hb with h | h
        · simp [h]
        · refine absurd (List.any_eq_true.mpr ⟨b, hb, ?_⟩) hany
          simp [h, hrec]
  · rw [if_neg hk] at hrec ⊢
    have hnone := TokenSequence.Yields.refl hp
    split
    · rename_i hany
      obtain ⟨b, hb, h⟩ := List.any_eq_true.mp hany
      rcases hbs b hb with h' | h'
      · simp [h'] at h
      · simp [h', hrec] at h
    · split
      · exact ⟨hnone.word.imp fun ts hts => ⟨.inl hts.1, hts.2⟩, hnone.ended⟩
      · exact hnone

theorem finishLet_derives (ho : Derives Term.written operand) {s : TokenSequence} {token : Token}
    {bs : List Binding} {scope : ScopeId} {t : Term}
    (h : finishLet operand token bs scope p = .ok t q)
    (hlet : s.Yields (stored token (· = .letWord) * recWord bs *
      joined .andWord (Binding.listWritten bs)) p.tokens) : s.Yields t.written q.tokens := by
  obtain ⟨body, r, hk, hb, rfl, rfl⟩ := finishLet_ok h
  have hin := hlet.andKind hk (by decide)
  have hq := (exp_derives ho).behind hin hb
  exact hq

theorem letBindings_derive (ho : Derives Term.written operand) {bs : List Binding}
    (h : Separated .andWord (binding operand (p.advance.taken? .recWord).isSome)
      ((p.advance.skip .recWord).enter .block) bs q)
    (hk : p.peek.kind = .letWord) (hp : p.tokens.Ended) :
    p.tokens.Yields (stored p.peek (· = .letWord) * recWord bs *
      joined .andWord (Binding.listWritten bs)) q.tokens := by
  have h₁ := TokenSequence.Yields.storedKind hp hk (by decide)
  have hended : (p.advance.skip .recWord).tokens.Ended := by
    unfold Parser.skip
    split
    · rename_i hr
      exact (TokenSequence.Yields.ofKind h₁.ended hr (by decide)).ended
    · exact h₁.ended
  have h₂ := h₁.mul (recWord_yields (p := p.advance) h₁.ended rfl (bindings_recursion ho h hended))
  have h₃ := bindings_derive ho h h₂.ended
  exact h₂.mul h₃

theorem letIn_derives (ho : Derives Term.written operand) {t : Term}
    (h : letIn operand p = .ok t q) (hk : p.peek.kind = .letWord) (hp : p.tokens.Ended) :
    p.tokens.Yields t.written q.tokens := by
  obtain ⟨bs, r, hbs, h⟩ := letIn_ok h
  exact finishLet_derives ho h (letBindings_derive ho hbs hk hp)

theorem operandStep_derives (ho : Derives Term.written operand) :
    Derives Term.written (operandStep operand) := by
  intro p t q h hp
  cases operandStep_ok h with
  | name hk h => exact name_derives ho h hk hp
  | constant hk h => exact constant_derives h hk hp
  | signed hk h => exact signed_derives ho h hk hp
  | grouping hk h => exact grouping_derives ho h hk hp
  | projection hk h => exact projection_derives ho h hk hp
  | conditional hk h => exact conditional_derives ho h hk hp
  | loop hk h => exact loop_derives ho h hk hp
  | letIn hk h => exact letIn_derives ho h hk hp

theorem operand_derives : Derives Term.written Parse.operand := by
  intro p t q h hp
  obtain ⟨n, h⟩ := operand_ok h
  exact operand_induction (P := Derives Term.written) (fun _ _ _ h => absurd h unexpected_ok)
    (fun _ => operandStep_derives) n h hp

end Expressions

/-! Statements. -/

theorem foldl_atTop_tokens (bs : List Binding) (p : Parser) :
    (bs.foldl atTop p).tokens = p.tokens := by
  induction bs generalizing p with
  | nil => rfl
  | cons b bs ih =>
    rw [List.foldl_cons, ih]
    cases b with
    | value x body => rfl
    | function x params body isRec scope => rfl

theorem exp_of_var? {e : Exp} {use : NameUse} (h : e.var? = some use) :
    ∃ root scope, e = .single root (.var use) scope := by
  cases e with
  | apply head args cell scope => cases h
  | single root item scope =>
    cases item with
    | var other =>
      cases h
      exact ⟨root, scope, rfl⟩
    | _ => cases h

/-- What was read is a word of these statements, which all belong to the scope. -/
structure YieldsStmts (s : TokenSequence) (block : ScopeId) (ss : List Stmt) (t : TokenSequence) :
    Prop where
  word : ∃ ts, StmtsWritten ss ts ∧ s.rest = ts ++ t.rest
  scope : ∀ st ∈ ss, st.scope = block
  ended : t.Ended

theorem expStmt_derives {block : ScopeId} {ss : List Stmt}
    (h : expStmt p.peek block p = .ok ss q) (hp : p.tokens.Ended) :
    YieldsStmts p.tokens block ss q.tokens := by
  obtain ⟨e, r, he, hk, rfl, rfl⟩ := expStmt_ok h
  have hr := exp_derives operand_derives he hp
  have hroot : p.peek = e.root := by
    obtain ⟨⟨ts, hts, _⟩, _⟩ := hr.startingWith e.written_starts
    have hhead := e.written_starts ts hts.1
    exact Option.some.inj (hts.2.symm.trans hhead)
  have hq := hr.andKind hk (by decide)
  refine ⟨?_, by simp, hq.ended⟩
  obtain ⟨ts, hts, hrest⟩ := hq.word
  refine ⟨ts, ?_, hrest⟩
  rw [hroot]
  cases hv : e.var? with
  | none => exact .exp hts
  | some use =>
    obtain ⟨root, scope, rfl⟩ := exp_of_var? hv
    obtain ⟨as, ⟨ha, hhead⟩, us, hus, rfl⟩ := Language.mem_mul.mp hts
    have huse : root = use.token := by
      rw [ha.1] at hhead
      exact (Option.some.inj hhead).symm
    rw [Option.elim_some, Exp.root, huse]
    exact .var (Language.append_mem_mul ha hus)

theorem letStmt_derives {block : ScopeId} {ss : List Stmt}
    (h : letStmt p.peek block p = .ok ss q) (hk : p.peek.kind = .letWord) (hp : p.tokens.Ended) :
    YieldsStmts p.tokens block ss q.tokens := by
  obtain ⟨bs, r, hbs, h⟩ := letStmt_ok h
  have hlet := letBindings_derive operand_derives hbs hk hp
  rcases h with ⟨item, u, hi, hk, rfl, rfl⟩ | ⟨hk, rfl, rfl⟩
  · have hitem := (finishLet_derives operand_derives hi hlet).startingWith item.written_starts
    have hq := hitem.andKind hk (by decide)
    obtain ⟨ts, hts, hrest⟩ := hq.word
    exact ⟨⟨ts, .exp (e := .single p.peek item block) hts, hrest⟩, by simp, hq.ended⟩
  · have hq := hlet.andKind hk (by decide)
    obtain ⟨ts, hts, hrest⟩ := hq.word
    have htokens := foldl_atTop_tokens bs r.leaveScope.advance
    refine ⟨⟨ts, .define (separated_ne_nil hbs) hts, ?_⟩, ?_, ?_⟩
    · rw [htokens]
      exact hrest
    · intro st hst
      obtain ⟨b, _, rfl⟩ := List.mem_map.mp hst
      rfl
    · rw [htokens]
      exact hq.ended

theorem stmt_derives {ss : List Stmt} (h : stmt p = .ok ss q) (hp : p.tokens.Ended) :
    YieldsStmts p.tokens p.arena.size ss q.tokens := by
  rcases stmt_ok h with ⟨r, rfl, ⟨hk, h⟩ | h⟩
  · have hr := letStmt_derives (p := p.enter .block) (q := r) h hk hp
    exact hr
  · have hr := expStmt_derives (p := p.enter .block) (q := r) h hp
    exact hr

theorem stmtsWritten_ne_nil {ss : List Stmt} {ts : List Token} (h : StmtsWritten ss ts) :
    ss ≠ [] ∧ ts ≠ [] := by
  cases h with
  | var h =>
    obtain ⟨as, _, us, ⟨t, rfl, _⟩, rfl⟩ := Language.mem_mul.mp h
    simp
  | exp h =>
    obtain ⟨as, _, us, ⟨t, rfl, _⟩, rfl⟩ := Language.mem_mul.mp h
    simp
  | define hbs h =>
    obtain ⟨as, _, us, ⟨t, rfl, _⟩, rfl⟩ := Language.mem_mul.mp h
    simpa using hbs

/-- Statements of one scope are a group of their own when younger scopes follow. -/
theorem groups_append {first others : List Stmt} {block : ScopeId} (hne : first ≠ [])
    (hfirst : ∀ st ∈ first, st.scope = block) (hothers : ∀ st ∈ others, block < st.scope) :
    (first ++ others).splitBy (fun a b => a.scope == b.scope) =
      first :: others.splitBy fun a b => a.scope == b.scope := by
  have hsplit : ∀ x ∈ first.getLast?, ∀ y ∈ others.head?, (x.scope == y.scope) = false := by
    intro x hx y hy
    have hx := hfirst x (List.mem_of_getLast? hx)
    have hy := hothers y (List.mem_of_head? hy)
    rw [hx]
    exact beq_false_of_ne (Nat.ne_of_lt hy)
  have hchain : first.IsChain fun x y => (x.scope == y.scope) = true := by
    refine List.Pairwise.isChain (List.pairwise_of_forall_mem_list ?_)
    intro x hx y hy
    rw [hfirst x hx, hfirst y hy]
    exact beq_self_eq_true block
  rw [List.splitBy_append hsplit, List.splitBy_of_isChain hne hchain]
  rfl

theorem stmts_derive {n : Nat} {ss : List Stmt} (h : stmts n p = .ok ss q) (hp : p.tokens.Ended)
    (hreachable : p.scopes.Reachable) (hn : p.tokens.rest.length ≤ n)
    (hend : ∀ t ∈ p.tokens.rest, t.kind ≠ .endOfInput) :
    GroupsWritten (ss.splitBy fun a b => a.scope == b.scope) p.tokens.rest ∧
      ∀ st ∈ ss, p.arena.size ≤ st.scope := by
  induction n generalizing p ss with
  | zero =>
    obtain ⟨rfl, rfl⟩ := pure_ok.mp h
    rw [List.length_eq_zero_iff.mp (Nat.le_zero.mp hn)]
    exact ⟨.nil, by simp⟩
  | succ n ih =>
    rcases stmts_succ_ok h with ⟨_, hk, h⟩ | ⟨_, first, r, others, hf, ho, rfl⟩ | ⟨hk, rfl, _⟩
    · obtain ⟨hrest, hended⟩ := TokenSequence.rest_eq_cons hp (by
        change p.peek.kind ≠ .endOfInput
        rw [hk]
        decide)
      rw [hrest] at hn hend ⊢
      have hn := Nat.le_of_succ_le_succ hn
      obtain ⟨hgroups, hscope⟩ := ih (p := p.advance) h hended hreachable hn
        fun t ht => hend t (List.mem_cons_of_mem _ ht)
      exact ⟨.stray hk hgroups, hscope⟩
    · obtain ⟨⟨ts, hts, hrest⟩, hblock, hended⟩ := stmt_derives hf hp
      obtain ⟨hr, hsize⟩ := stmt_reachable hf hreachable
      obtain ⟨hne, htokens⟩ := stmtsWritten_ne_nil hts
      have hpos := List.length_pos_iff.mpr htokens
      rw [hrest] at hn hend ⊢
      rw [List.length_append] at hn
      obtain ⟨hgroups, hscope⟩ := ih ho hended hr (by omega)
        fun t ht => hend t (List.mem_append_right _ ht)
      constructor
      · rw [groups_append hne hblock fun st hst => Nat.lt_of_lt_of_le hsize (hscope st hst)]
        exact .group hts hgroups
      · intro st hst
        rcases List.mem_append.mp hst with hst | hst
        · exact Nat.le_of_eq (hblock st hst).symm
        · exact Nat.le_trans (Nat.le_of_lt hsize) (hscope st hst)
    · have hkind : p.tokens.peek.kind = .endOfInput := by
        simpa [Parser.hasTokens, TokenSequence.atEnd, TokenSequence.test] using hk
      rw [TokenSequence.rest_eq_nil hend hkind]
      exact ⟨.nil, by simp⟩

end Parse

/-- The input without its newlines is a word of the program that was made of it, and whatever part
of it an expression is written as starts with the token that stands for the expression. -/
theorem parse_derives {tokens : List Token} {file : String} {program : Program}
    (hend : ∀ t ∈ tokens, t.kind ≠ .endOfInput)
    (h : parse (.ofList tokens file) = .ok program) :
    GroupsWritten program.groups (tokens.filter (!·.isNewline)) ∧
      (∀ t : Term, Starts t.written t.token) ∧ ∀ e : Exp, Starts e.written e.root := by
  obtain ⟨p, hp, _⟩ := parse_ok h
  refine ⟨?_, Term.written_starts, Exp.written_starts⟩
  have hlength : (tokens.filter (!·.isNewline)).length ≤ tokens.length := List.length_filter_le _ _
  exact (Parse.stmts_derive hp rfl .initial hlength
    fun t ht => hend t (List.mem_of_mem_filter ht)).1

/-- Two definitions that were read as one group, and an expression behind stray semicolons. -/
theorem parse_derives_groups :
    ∃ tokens program,
      Lexer.tokens "let rec f(n) = n + 1\nand y = (1, 2) ;; ;;\nf 3 ;;".toList "shell" =
        .ok tokens ∧
      parse (.ofList tokens "shell") = .ok program ∧
      program.stmts.length = 3 ∧ program.groups.length = 2 ∧
      GroupsWritten program.groups (tokens.filter (!·.isNewline)) := by
  have hrun : ((Lexer.tokens "let rec f(n) = n + 1\nand y = (1, 2) ;; ;;\nf 3 ;;".toList
      "shell").toOption.bind fun tokens =>
        (parse (.ofList tokens "shell")).toOption.map fun program =>
          (tokens.all (·.kind ≠ .endOfInput), program.stmts.length, program.groups.length)) =
      some (true, 3, 2) := by decide +kernel
  obtain ⟨tokens, ht, hrun⟩ := Option.bind_eq_some_iff.mp hrun
  obtain ⟨program, hp, hrun⟩ := Option.map_eq_some_iff.mp hrun
  obtain ⟨hend, hrun⟩ := Prod.mk.inj hrun
  obtain ⟨hstmts, hgroups⟩ := Prod.mk.inj hrun
  have hp := ok_of_toOption hp
  have hend : ∀ t ∈ tokens, t.kind ≠ .endOfInput := by simpa using hend
  exact ⟨tokens, program, ok_of_toOption ht, hp, hstmts, hgroups, (parse_derives hend hp).1⟩

end MiniMl
