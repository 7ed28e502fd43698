import MiniMl.Proofs.Parser.Derivation
import MiniMl.Proofs.Tree.Precedence

/-! # How operators are grouped

A climb takes in every operator of its level that is ahead. What it makes of the row of operators
and operands it has read is the one tree in which stronger operators stand lower and equal ones
group to the left.
-/

namespace MiniMl

theorem TokenSequence.Yields.length {s t : TokenSequence} {l : Language Token}
    (h : s.Yields l t) : t.rest.length ≤ s.rest.length := by
  obtain ⟨ts, _, hs⟩ := h.word
  rw [hs, List.length_append]
  exact Nat.le_add_left _ _

namespace Parse

variable {α : Type} {p q : Parser} {operand other : Parse Term}

/-- Operators with an operand behind each, read one after the other. Types may be checked in front
of any of them. -/
inductive Alternates (operand : Parse Term) : Parser → OperatorRow → Parser → Prop where
  | nil {p : Parser} (s : Store) : Alternates operand p [] (p.withStore s)
  | cons {p t r row q} (s : Store) : p.peek.kind ∈ operatorLevels.flatten →
      operand (p.withStore s).advance = .ok t r → Alternates operand r row q →
      Alternates operand p ((p.peek, t) :: row) q

theorem Alternates.withStore {row : OperatorRow} {s : Store}
    (h : Alternates operand (p.withStore s) row q) : Alternates operand p row q := by
  cases h with
  | nil s' => exact .nil s'
  | cons s' hop ht hrow => exact .cons s' hop ht hrow

theorem Alternates.append {r : Parser} {row row' : OperatorRow} (h : Alternates operand p row q)
    (h' : Alternates operand q row' r) : Alternates operand p (row ++ row') r := by
  induction h with
  | nil s => exact h'.withStore
  | cons s hop ht _ ih => exact .cons s hop ht (ih h')

inductive Exhausts (operand : Parse Term) : Nat → Term → Parser → Term → Parser → Prop where
  | stop {floor lhs p} : (∀ power, p.peek.kind.power? = some power → power.level < floor) →
      Exhausts operand floor lhs p lhs p
  | step {floor lhs p power first r rhs u cell s t q} : p.peek.kind.power? = some power →
      floor ≤ power.level → operand p.advance = .ok first r →
      Exhausts operand (power.level + 1) first r rhs u →
      Typing.binary p.peek lhs.typed rhs.typed u.store = .ok cell s →
      Exhausts operand floor (.binary p.peek lhs rhs cell) (u.withStore s) t q →
      Exhausts operand floor lhs p t q

/-- The bound of a climb is never what stops it: each round reads an operator. -/
theorem climb_exhausts (ho : Derives Term.written operand) {n floor : Nat} {lhs t : Term}
    (h : climb operand n floor lhs p = .ok t q) (hn : p.tokens.rest.length ≤ n)
    (hp : p.tokens.Ended) : Exhausts operand floor lhs p t q ∧ q.tokens.Ended ∧
      q.tokens.rest.length ≤ p.tokens.rest.length := by
  induction n generalizing floor lhs p t q with
  | zero =>
    obtain ⟨rfl, rfl⟩ := pure_ok.mp h
    refine ⟨.stop ?_, hp, Nat.le_refl _⟩
    intro power hpower
    have hpeek : p.peek = p.tokens.sentinel := by
      change p.tokens.peek = _
      rw [TokenSequence.peek_eq, List.length_eq_zero_iff.mp (Nat.le_zero.mp hn)]
      rfl
    rw [hpeek, hp] at hpower
    cases hpower
  | succ n ih =>
    rw [climb, peekKind_bind] at h
    cases hpower : p.peek.kind.power? with
    | none =>
      rw [hpower] at h
      obtain ⟨rfl, rfl⟩ := pure_ok.mp h
      exact ⟨.stop (by simp [hpower]), hp, Nat.le_refl _⟩
    | some power =>
      simp only [hpower] at h
      by_cases hlevel : power.level < floor
      · rw [if_pos hlevel] at h
        obtain ⟨rfl, rfl⟩ := pure_ok.mp h
        exact ⟨.stop (by simp [hpower, hlevel]), hp, Nat.le_refl _⟩
      · rw [if_neg hlevel, advance_bind] at h
        obtain ⟨first, r, hf, h⟩ := bind_ok.mp h
        obtain ⟨rhs, u, hr, h⟩ := bind_ok.mp h
        obtain ⟨cell, s, hc, h⟩ := typing_bind.mp h
        have hkind : p.tokens.peek.kind ≠ .endOfInput := by
          change p.peek.kind ≠ .endOfInput
          intro hend
          rw [hend] at hpower
          cases hpower
        obtain ⟨hrest, hadvance⟩ := TokenSequence.rest_eq_cons hp hkind
        rw [hrest, List.length_cons] at hn ⊢
        have hyields := ho hf hadvance
        have hlength : r.tokens.rest.length ≤ p.tokens.advance.rest.length := hyields.length
        obtain ⟨hrhs, hu, hulength⟩ := ih hr (by omega) hyields.ended
        obtain ⟨hclimb, hq, hqlength⟩ := ih (p := u.withStore s) h
          (by change u.tokens.rest.length ≤ n; omega) hu
        have hqlength : q.tokens.rest.length ≤ u.tokens.rest.length := hqlength
        exact ⟨.step hpower (Nat.not_lt.mp hlevel) hf hrhs hc hclimb, hq, by omega⟩

theorem climbs_alternate (ho : ∀ ⦃p t q⦄, operand p = .ok t q → t.IsOperand) {floor : Nat}
    {lhs t : Term} (h : Climbs operand floor lhs p t q) :
    ∃ row, Alternates operand p row q ∧ t.operatorTree.first = lhs.operatorTree.first ∧
      t.operatorTree.row = lhs.operatorTree.row ++ row := by
  induction h with
  | @stop _ _ p => exact ⟨[], .nil p.store, rfl, (List.append_nil _).symm⟩
  | @step _ lhs p _ first _ rhs _ cell _ t _ hop _ hf _ _ _ ihr ih =>
    obtain ⟨inner, hinner, hfirst, hrow⟩ := ihr
    obtain ⟨outer, houter, htfirst, htrow⟩ := ih
    have hoperand := (ho hf).operatorTree
    rw [hoperand] at hfirst hrow
    have hread : p.peek.kind ∈ operatorLevels.flatten := TokenKind.mem_levels hop
    refine ⟨(p.peek, first) :: (inner ++ outer), ?_, htfirst, ?_⟩
    · exact .cons p.store hread hf (hinner.append houter.withStore)
    · rw [htrow, Term.operatorTree, OperatorTree.row, hfirst, hrow]
      simp [OperatorTree.first, OperatorTree.row]

/-- What the reader makes has the property, also where it was read inside something else. -/
def Makes (P : α → Prop) (item : Parse α) : Prop :=
  ∀ ⦃p x q⦄, item p = .ok x q → p.tokens.Ended → P x ∧ q.tokens.Ended

structure OperandReader (operand : Parse Term) : Prop where
  derives : Derives Term.written operand
  isOperand : ∀ ⦃p t q⦄, operand p = .ok t q → t.IsOperand
  grouped : Makes Term.Grouped operand

/-- The left operand of a climb: nothing ahead binds more strongly than its own operator, which is
of the level of the climb. -/
structure Ready (floor : Nat) (lhs : Term) (p : Parser) : Prop where
  noSequence : lhs.isSequence = false
  floor : ∀ o ∈ lhs.operator?, floor ≤ o.level
  ahead : ∀ o ∈ lhs.operator?, ∀ power, p.peek.kind.power? = some power → power.level ≤ o.level

theorem Ready.of_operand {floor : Nat} {t : Term} (h : t.IsOperand) (p : Parser) :
    Ready floor t p := by
  refine ⟨h.noSequence, ?_, ?_⟩
  · intro o ho
    rw [h.noOperator] at ho
    cases ho
  · intro o ho
    rw [h.noOperator] at ho
    cases ho

theorem exhausts_grouped (ho : OperandReader operand) {floor : Nat} {lhs t : Term}
    (h : Exhausts operand floor lhs p t q) (hp : p.tokens.Ended) (hlhs : lhs.Grouped)
    (hready : Ready floor lhs p) :
    t.Grouped ∧ t.isSequence = false ∧ (∀ o ∈ t.operator?, floor ≤ o.level) ∧
      (∀ power, q.peek.kind.power? = some power → power.level < floor) ∧ q.tokens.Ended := by
  induction h with
  | stop hstop => exact ⟨hlhs, hready.noSequence, hready.floor, hstop, hp⟩
  | @step floor lhs p power first r rhs u cell s t q hop hfloor hf _ _ _ ihr ih =>
    have hlevel : p.peek.level = power.level := Token.level_of_power hop
    obtain ⟨hfirst, hr⟩ := ho.grouped hf hp.advance
    obtain ⟨hrhs, hseq, habove, hnext, hu⟩ := ihr hr hfirst (.of_operand (ho.isOperand hf) r)
    have hgroups : Groups p.peek lhs rhs :=
      { operator := TokenKind.mem_levels hop
        left := by
          intro o hlo
          rw [hlevel]
          exact hready.ahead o hlo power hop
        right := by
          intro o hro
          have := habove o hro
          omega
        noSequenceLeft := hready.noSequence
        noSequenceRight := hseq }
    apply ih hu ⟨hlhs, hrhs, hgroups⟩
    refine ⟨rfl, ?_, ?_⟩
    · intro o hop'
      cases hop'
      omega
    · intro o hop' next hahead
      cases hop'
      have := hnext next hahead
      omega

theorem operators_grouped (ho : OperandReader operand) {t : Term}
    (h : operators operand p = .ok t q) (hp : p.tokens.Ended) :
    t.Grouped ∧ t.isSequence = false ∧ q.peek.kind ∉ operatorLevels.flatten ∧ q.tokens.Ended := by
  obtain ⟨first, r, hf, h⟩ := bind_ok.mp h
  obtain ⟨hfirst, hr⟩ := ho.grouped hf hp
  have hn : r.tokens.rest.length ≤ r.tokens.ahead.length := List.length_filter_le _ _
  obtain ⟨hclimb, _⟩ := climb_exhausts ho.derives h hn hr
  obtain ⟨ht, hseq, _, hnext, hq⟩ :=
    exhausts_grouped ho hclimb hr hfirst (.of_operand (ho.isOperand hf) r)
  refine ⟨ht, hseq, fun hmem => ?_, hq⟩
  obtain ⟨power, hpower⟩ := TokenKind.power?_of_mem_levels hmem
  exact absurd (hnext power hpower) (Nat.not_lt_zero _)

theorem operators_makes (ho : OperandReader operand) :
    Makes Term.Grouped (operators operand) := by
  intro p t q h hp
  obtain ⟨ht, _, _, hq⟩ := operators_grouped ho h hp
  exact ⟨ht, hq⟩

theorem separated_makes {P : α → Prop} {separator : TokenKind} {item : Parse α} {xs : List α}
    (hi : Makes P item) (h : Separated separator item p xs q) (hp : p.tokens.Ended) :
    (∀ x ∈ xs, P x) ∧ q.tokens.Ended := by
  induction h with
  | last hx =>
    obtain ⟨hx, hq⟩ := hi hx hp
    exact ⟨List.forall_mem_singleton.mpr hx, hq⟩
  | cons hx _ _ ih =>
    obtain ⟨hx, hr⟩ := hi hx hp
    obtain ⟨hxs, hq⟩ := ih hr.advance
    exact ⟨List.forall_mem_cons.mpr ⟨hx, hxs⟩, hq⟩

theorem parenthesised_makes {P : α → Prop} {item : Parse α} {xs : List α} (hi : Makes P item)
    (h : Parenthesised item p xs q) (hp : p.tokens.Ended) : (∀ x ∈ xs, P x) ∧ q.tokens.Ended := by
  cases h with
  | unit => exact ⟨by simp, hp.advance⟩
  | items _ hs _ =>
    obtain ⟨hxs, hq⟩ := separated_makes hi hs hp.advance
    exact ⟨hxs, hq.advance⟩

theorem chained_makes (ho : OperandReader operand) {ts : List Term}
    (h : Chained operand p ts q) (hp : p.tokens.Ended) :
    (∀ t ∈ ts, t.Grouped) ∧ q.tokens.Ended := by
  induction h with
  | stop => exact ⟨by simp, hp⟩
  | cons _ ht _ ih =>
    obtain ⟨ht, hr⟩ := ho.grouped ht hp
    obtain ⟨hts, hq⟩ := ih hr
    exact ⟨List.forall_mem_cons.mpr ⟨ht, hts⟩, hq⟩

theorem sequence_makes (ho : OperandReader operand) : Makes Term.Grouped (sequence operand) := by
  intro p t q h hp
  have hs := sequence_ok h
  clear h
  induction hs with
  | last h => exact operators_makes ho h hp
  | cons hf _ _ ih =>
    obtain ⟨hf, hr⟩ := operators_makes ho hf hp
    obtain ⟨hs, hq⟩ := ih hr.advance
    exact ⟨⟨hf, hs⟩, hq⟩

theorem application_makes (ho : OperandReader operand) :
    Makes Exp.Grouped (application operand) := by
  intro p e q h hp
  obtain ⟨x, f, args, r, c, s, _, _, ha, _, rfl, rfl⟩ := application_ok h
  obtain ⟨hargs, hr⟩ := chained_makes ho ha hp.advance
  exact ⟨(Term.listGrouped_iff args).mpr hargs, hr⟩

theorem chainOr_makes (ho : OperandReader operand) (hother : Makes Term.Grouped other) :
    Makes Exp.Grouped (chainOr operand other) := by
  intro p e q h hp
  rcases chainOr_ok h with ⟨_, _, h⟩ | ⟨item, hi, rfl⟩
  · exact application_makes ho h hp
  · exact hother hi hp

theorem exp_makes (ho : OperandReader operand) : Makes Exp.Grouped (exp operand) :=
  chainOr_makes ho (sequence_makes ho)

theorem constant_makes : Makes Term.Grouped constant := by
  intro p t q h hp
  obtain ⟨value, c, s, _, _, rfl, rfl⟩ := constant_ok h
  exact ⟨trivial, hp.advance⟩

theorem signed_makes (ho : OperandReader operand) : Makes Term.Grouped (signed operand) := by
  intro p t q h hp
  obtain ⟨inner, r, c, s, hi, _, rfl, rfl⟩ := signed_ok h
  obtain ⟨hinner, hr⟩ := ho.grouped hi hp.advance
  exact ⟨⟨hinner, ho.isOperand hi⟩, hr⟩

theorem name_makes (ho : OperandReader operand) : Makes Term.Grouped (name operand) := by
  intro p t q h hp
  rcases name_ok h with ⟨x, _, ⟨f, args, r, c, s, _, ha, _, rfl, rfl⟩ | ⟨rfl, rfl⟩⟩
  · obtain ⟨hargs, hr⟩ := parenthesised_makes (exp_makes ho) ha hp.advance
    exact ⟨(Exp.listGrouped_iff args).mpr hargs, hr⟩
  · exact ⟨trivial, hp.advance⟩

theorem grouping_makes (ho : OperandReader operand) : Makes Term.Grouped (grouping operand) := by
  intro p t q h hp
  obtain ⟨first, r, hf, h⟩ := grouping_ok h
  obtain ⟨hf, hr⟩ := exp_makes ho hf hp.advance
  rcases h with ⟨_, second, u, c, s, hs, _, _, rfl, rfl⟩ | ⟨_, rfl, rfl⟩
  · obtain ⟨hs, hu⟩ := exp_makes ho hs hr.advance
    exact ⟨⟨hf, hs⟩, hu.advance⟩
  · exact ⟨hf, hr.advance⟩

theorem projection_makes (ho : OperandReader operand) :
    Makes Term.Grouped (projection operand) := by
  intro p t q h hp
  obtain ⟨first, r, second, u, _, hf, _, hs, _, rfl, rfl⟩ := projection_ok h
  obtain ⟨hf, hr⟩ := exp_makes ho hf hp.advance.advance
  obtain ⟨hs, hu⟩ := exp_makes ho hs hr.advance
  exact ⟨⟨hf, hs⟩, hu.advance⟩

theorem branch_makes (ho : OperandReader operand) :
    Makes (fun b => b.1.Grouped) (branch operand) := by
  intro p b q h hp
  obtain ⟨r, he, _, rfl⟩ := branch_ok h
  obtain ⟨he, hr⟩ := chainOr_makes ho (operators_makes ho) he (p := p.enter .block) hp
  exact ⟨he, hr⟩

theorem conditional_makes (ho : OperandReader operand) :
    Makes Term.Grouped (conditional operand) := by
  intro p t q h hp
  obtain ⟨condition, r, first, u, second, v, c, s, hc, _, hf, hs, _, rfl, rfl⟩ :=
    conditional_ok h
  obtain ⟨hcondition, hr⟩ := exp_makes ho hc hp.advance
  obtain ⟨hfirst, hu⟩ := branch_makes ho hf hr.advance
  rcases elseBranch_ok hs with ⟨_, b, hb, rfl⟩ | ⟨rfl, rfl⟩
  · obtain ⟨hsecond, hv⟩ := branch_makes ho hb hu.advance
    exact ⟨⟨hcondition, hfirst, hsecond⟩, hv⟩
  · exact ⟨⟨hcondition, hfirst, trivial⟩, hu⟩

theorem loop_makes (ho : OperandReader operand) : Makes Term.Grouped (loop operand) := by
  intro p t q h hp
  obtain ⟨condition, r, body, u, c, s, hc, _, hb, _, _, rfl, rfl⟩ := loop_ok h
  obtain ⟨hc, hr⟩ := exp_makes ho hc hp.advance
  obtain ⟨hb, hu⟩ := exp_makes ho hb (p := r.advance.enter .block) hr.advance
  exact ⟨⟨hc, hb⟩, hu.advance⟩

theorem expect_makes (kind : TokenKind) : Makes (fun _ => True) (expect kind) := by
  intro p t q h hp
  obtain ⟨_, _, rfl⟩ := expect_ok.mp h
  exact ⟨trivial, hp.advance⟩

theorem function_makes (ho : OperandReader operand) {name : Token} {isRec : Bool} :
    Makes Binding.Grouped (function operand name isRec) := by
  intro p b q h hp
  obtain ⟨tokens, p₁, f, s₁, x, s₂, p₂, params, body, p₃, s₃, ht, _, _, hp₂, _, _, hb, _, rfl,
    hq⟩ := function_ok h
  obtain ⟨_, hp₁⟩ := parenthesised_makes (expect_makes .identifier) ht hp
  have hstart : ((p₂.numbered params.length).defineAll params).tokens = p₁.tokens := by
    rw [defineAll_tokens, hp₂]
    cases isRec
    · rfl
    · rfl
  have hq : q.tokens = p₃.tokens := by
    rw [hq]
    cases isRec
    · rfl
    · rfl
  have hstart : ((p₂.numbered params.length).defineAll params).tokens.Ended := hstart ▸ hp₁
  obtain ⟨hb, hp₃⟩ := exp_makes ho hb hstart.advance
  exact ⟨hb, hq ▸ hp₃⟩

theorem binding_makes (ho : OperandReader operand) {isRec : Bool} :
    Makes Binding.Grouped (binding operand isRec) := by
  intro p b q h hp
  rcases binding_ok h with ⟨_, h | ⟨body, r, _, hb, rfl, rfl⟩⟩
  · exact function_makes ho h hp.advance
  · obtain ⟨hb, hr⟩ := exp_makes ho hb hp.advance.advance
    exact ⟨hb, hr⟩

theorem letIn_makes (ho : OperandReader operand) : Makes Term.Grouped (letIn operand) := by
  intro p t q h hp
  obtain ⟨bs, r, hbs, h⟩ := letIn_ok h
  obtain ⟨body, u, _, hb, rfl, rfl⟩ := finishLet_ok h
  have hstart : (p.advance.skip .recWord).tokens.Ended := by
    unfold Parser.skip
    split
    · exact hp.advance.advance
    · exact hp.advance
  obtain ⟨hbs, hr⟩ := separated_makes (binding_makes ho) hbs hstart
  obtain ⟨hb, hu⟩ := exp_makes ho hb hr.advance
  exact ⟨⟨(Binding.listGrouped_iff bs).mpr hbs, hb⟩, hu⟩

theorem operandStep_makes (ho : OperandReader operand) :
    Makes Term.Grouped (operandStep operand) := by
  intro p t q h hp
  cases operandStep_ok h with
  | name _ h => exact name_makes ho h hp
  | constant _ h => exact constant_makes h hp
  | signed _ h => exact signed_makes ho h hp
  | grouping _ h => exact grouping_makes ho h hp
  | projection _ h => exact projection_makes ho h hp
  | conditional _ h => exact conditional_makes ho h hp
  | loop _ h => exact loop_makes ho h hp
  | letIn _ h => exact letIn_makes ho h hp

theorem operandStep_isOperand {t : Term} (h : operandStep operand p = .ok t q) : t.IsOperand := by
  cases operandStep_ok h with
  | name _ h =>
    rcases name_ok h with ⟨x, _, ⟨f, args, r, c, s, _, _, _, rfl, _⟩ | ⟨rfl, _⟩⟩
    · exact ⟨rfl, rfl⟩
    · exact ⟨rfl, rfl⟩
  | constant _ h =>
    obtain ⟨value, c, s, _, _, rfl, _⟩ := constant_ok h
    exact ⟨rfl, rfl⟩
  | signed _ h =>
    obtain ⟨inner, r, c, s, _, _, rfl, _⟩ := signed_ok h
    exact ⟨rfl, rfl⟩
  | grouping _ h =>
    rcases grouping_ok h with
      ⟨first, r, _, ⟨_, second, u, c, s, _, _, _, rfl, _⟩ | ⟨_, rfl, _⟩⟩
    · exact ⟨rfl, rfl⟩
    · exact ⟨rfl, rfl⟩
  | projection _ h =>
    obtain ⟨first, r, second, u, _, _, _, _, _, rfl, _⟩ := projection_ok h
    exact ⟨rfl, rfl⟩
  | conditional _ h =>
    obtain ⟨condition, r, first, u, second, v, c, s, _, _, _, _, _, rfl, _⟩ := conditional_ok h
    exact ⟨rfl, rfl⟩
  | loop _ h =>
    obtain ⟨condition, r, body, u, c, s, _, _, _, _, _, rfl, _⟩ := loop_ok h
    exact ⟨rfl, rfl⟩
  | letIn _ h =>
    obtain ⟨bs, r, _, h⟩ := letIn_ok h
    obtain ⟨body, u, _, _, rfl, _⟩ := finishLet_ok h
    exact ⟨rfl, rfl⟩

theorem operandReader : OperandReader Parse.operand := by
  have hall : ∀ n, OperandReader (operandWithin n) := by
    intro n
    refine operand_induction (P := OperandReader) ?_ ?_ n
    · exact ⟨fun _ _ _ h => absurd h unexpected_ok, fun _ _ _ h => absurd h unexpected_ok,
        fun _ _ _ h => absurd h unexpected_ok⟩
    · intro operand ho
      exact ⟨operandStep_derives ho.derives, fun _ _ _ h => operandStep_isOperand h,
        operandStep_makes ho⟩
  refine ⟨operand_derives, ?_, ?_⟩
  · intro p t q h
    obtain ⟨n, h⟩ := operand_ok h
    exact (hall n).isOperand h
  · intro p t q h hp
    obtain ⟨n, h⟩ := operand_ok h
    exact (hall n).grouped h hp

end Parse

open Parse

/-- What operators and operands make is grouped at any depth, is the only grouped tree over the row
that was read, which can also be split at the weakest operators, and leaves no operator behind.
Disjunctions bind less than conjunctions, these less than comparisons, then come sums and products. -/
theorem operators_precedence {p q : Parser} {t : Term} (hp : p.tokens.Ended)
    (h : operators operand p = .ok t q) :
    (operatorLevels.Pairwise fun weaker stronger =>
      ∀ a b : Token, a.kind ∈ weaker → b.kind ∈ stronger → a.level < b.level) ∧
    (∀ level ∈ operatorLevels, ∀ a b : Token, a.kind ∈ level → b.kind ∈ level →
      a.level = b.level) ∧
    t.Grouped ∧ q.peek.kind ∉ operatorLevels.flatten ∧
    ∃ first r row, operand p = .ok first r ∧ Alternates operand r row q ∧
      t.operatorTree.first = first ∧ t.operatorTree.row = row ∧
      t.operatorTree = .ofRow first row ∧
      t.operatorTree.Grouped ∧
      ∀ tree : OperatorTree, tree.Grouped → tree.first = first → tree.row = row →
        tree = t.operatorTree := by
  obtain ⟨hgrouped, _, hnext, _⟩ := operators_grouped operandReader h hp
  obtain ⟨first, r, hf, hclimb⟩ := operators_ok h
  obtain ⟨row, hread, hfirst, hrow⟩ := climbs_alternate operandReader.isOperand hclimb
  rw [(operandReader.isOperand hf).operatorTree] at hfirst hrow
  have htree := hgrouped.operatorTree
  refine ⟨Token.level_lt, Token.level_eq, hgrouped, hnext, first, r, row, hf, hread, hfirst, hrow,
    ?_, htree, ?_⟩
  · rw [← htree.ofRow_eq, hfirst, hrow]
    rfl
  · intro tree hgroups htfirst htrow
    exact hgroups.unique htree (htfirst.trans hfirst.symm) (htrow.trans hrow.symm)

/-- All five levels in one row, a weaker one in front of a stronger one and the other way round. -/
theorem operators_precedence_levels :
    ∃ tokens t q,
      tokenize "true || 8 - 4 - 2 * -3 < 1 + 2 * 3 && false ;;" "shell" = .ok tokens ∧
      operators Parse.operand (.ofTokens tokens) = .ok t q ∧
      t.operatorTree.outline = "(_ || ((((_ - _) - (_ * _)) < (_ + (_ * _))) && _))" ∧
      t.operatorTree = .ofRow t.operatorTree.first t.operatorTree.row ∧
      q.peek.kind ∉ operatorLevels.flatten := by
  have hrun : ((tokenize "true || 8 - 4 - 2 * -3 < 1 + 2 * 3 && false ;;" "shell").toOption.bind
      fun tokens => ((operators Parse.operand).outcome? (.ofTokens tokens)).map fun (t, _) =>
        (decide (tokens.sentinel.kind = .endOfInput), t.operatorTree.outline)) =
      some (true, "(_ || ((((_ - _) - (_ * _)) < (_ + (_ * _))) && _))") := by decide +kernel
  obtain ⟨tokens, ht, hrun⟩ := Option.bind_eq_some_iff.mp hrun
  obtain ⟨⟨t, q⟩, hq, hrun⟩ := Option.map_eq_some_iff.mp hrun
  obtain ⟨hend, houtline⟩ := Prod.mk.inj hrun
  have hended : tokens.sentinel.kind = .endOfInput := of_decide_eq_true hend
  have hq := outcome?_eq_some.mp hq
  obtain ⟨-, -, -, hnext, _, _, _, _, _, rfl, rfl, htree, _⟩ :=
    operators_precedence (p := .ofTokens tokens) hended hq
  exact ⟨tokens, t, q, ok_of_toOption ht, hq, houtline, htree, hnext⟩

end MiniMl
