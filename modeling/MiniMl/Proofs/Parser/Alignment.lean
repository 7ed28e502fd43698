import MiniMl.Proofs.Parser.Runs
import MiniMl.Proofs.Token.Sequence
import MiniMl.Proofs.Tree.Relocation

/-! # Steps side by side

The parser steps over newlines, and locations only pass through it into trees and errors. Two runs
on the same tokens in two layouts go side by side: they read the same tokens at each step, and what
one makes is the relocated result of the other.
-/

namespace MiniMl

variable {f : Location → Location} {α β : Type}

/-- The same tokens are still to be read, laid out in another way. -/
structure TokenSequence.Relaid (f : Location → Location) (s t : TokenSequence) : Prop where
  ended : s.Ended
  rest : t.rest = s.rest.map (Token.relocate f)
  sentinel : t.sentinel = s.sentinel.relocate f

namespace TokenSequence.Relaid

variable {s t : TokenSequence}

theorem headD_map (f : Location → Location) (ts : List Token) (t : Token) :
    (ts.map (Token.relocate f)).headD (t.relocate f) = (ts.headD t).relocate f := by
  cases ts with
  | nil => rfl
  | cons u us => rfl

theorem peek (h : s.Relaid f t) : t.peek = s.peek.relocate f := by
  rw [peek_eq, peek_eq, h.rest, h.sentinel, headD_map]

theorem peekNext (h : s.Relaid f t) : t.peekNext = s.peekNext.relocate f := by
  rw [peekNext_eq, peekNext_eq, h.rest, h.sentinel, ← List.map_tail, headD_map]

theorem advance (h : s.Relaid f t) : s.advance.Relaid f t.advance := by
  refine ⟨h.ended.advance, ?_, ?_⟩
  · rw [rest_advance, rest_advance, h.rest, List.map_tail]
  · rw [sentinel_advance, sentinel_advance, h.sentinel]

end TokenSequence.Relaid

def Parser.left (p : Parser) : Nat := p.tokens.rest.length

structure Parser.Relaid (f : Location → Location) (p q : Parser) : Prop where
  tokens : p.tokens.Relaid f q.tokens
  arena : q.arena = p.arena.relocate f
  scope : q.scope = p.scope
  store : q.store = p.store
  symbols : q.symbols = p.symbols

namespace Parser

variable {p q : Parser}

theorem left_le_ahead (p : Parser) : p.left ≤ p.tokens.ahead.length := List.length_filter_le _ _

theorem left_advance (p : Parser) : p.advance.left = p.left - 1 := by
  rw [left, advance, TokenSequence.rest_advance, List.length_tail]
  rfl

theorem left_pos (hp : p.tokens.Ended) (hnext : p.peek.kind ≠ .endOfInput) : 0 < p.left := by
  rw [left, (TokenSequence.rest_eq_cons hp hnext).1]
  exact Nat.succ_pos _

namespace Relaid

theorem at_end (h : p.Relaid f q) (hleft : p.left = 0) : p.peek.kind = .endOfInput := by
  have hrest : p.tokens.rest = [] := List.length_eq_zero_iff.mp hleft
  rw [Parser.peek, TokenSequence.peek_eq, hrest]
  exact h.tokens.ended

theorem left_eq (h : p.Relaid f q) : q.left = p.left := by
  rw [left, left, h.tokens.rest, List.length_map]

theorem peek (h : p.Relaid f q) : q.peek = p.peek.relocate f := h.tokens.peek

theorem advance (h : p.Relaid f q) : p.advance.Relaid f q.advance :=
  { h with tokens := h.tokens.advance }

theorem enter (h : p.Relaid f q) (kind : ScopeKind) : (p.enter kind).Relaid f (q.enter kind) := by
  refine { h with arena := ?_, scope := ?_ }
  · change (q.arena.create kind (some q.scope)).2 = _
    rw [h.arena, h.scope, ← Arena.relocate_create]
    rfl
  · change q.arena.size = p.arena.size
    rw [h.arena, Arena.relocate_size]

theorem leaveScope (h : p.Relaid f q) : p.leaveScope.Relaid f q.leaveScope := by
  refine { h with scope := ?_ }
  change (q.arena.parent? q.scope).getD q.scope = _
  rw [h.arena, h.scope, Arena.relocate_parent?]
  rfl

theorem absorb (h : p.Relaid f q) (source : ScopeId) :
    (p.absorb source).Relaid f (q.absorb source) := by
  refine { h with arena := ?_ }
  change q.arena.append source q.scope = _
  rw [h.arena, h.scope, ← Arena.relocate_append]
  rfl

theorem defineIn (h : p.Relaid f q) (scope : ScopeId) (x : Symbol) :
    (p.defineIn scope x).Relaid f (q.defineIn scope (x.relocate f)) := by
  refine { h with arena := ?_ }
  change q.arena.insert scope (x.relocate f) = _
  rw [h.arena, ← Arena.relocate_insert]
  rfl

theorem defineTagIn (h : p.Relaid f q) (scope : ScopeId) (x : Symbol) :
    (p.defineTagIn scope x).Relaid f (q.defineTagIn scope (x.relocate f)) := by
  refine { h with arena := ?_ }
  change q.arena.insertTag scope (x.relocate f) = _
  rw [h.arena, ← Arena.relocate_insertTag]
  rfl

theorem withStore (h : p.Relaid f q) (s : Store) : (p.withStore s).Relaid f (q.withStore s) :=
  { h with store := rfl }

theorem numbered (h : p.Relaid f q) (n : Nat) : (p.numbered n).Relaid f (q.numbered n) :=
  { h with symbols := congrArg (· + n) h.symbols }

end Relaid

end Parser

namespace Parse

variable {p q : Parser} {k j c d n : Nat} {g : α → α} {h : β → β}

/-- Either both runs fail or both succeed, and then the first one leaves `n - c` tokens or fewer.
What it makes is relocated by `g`. -/
inductive Same (f : Location → Location) (g : α → α) (c n : Nat) :
    EStateM.Result Diagnostic Parser α → EStateM.Result Diagnostic Parser α → Prop where
  | ok {a b : α} {p q : Parser} :
    b = g a → p.Relaid f q → p.left + c ≤ n → Same f g c n (.ok a p) (.ok b q)
  | error {d e : Diagnostic} {p q : Parser} :
    e = d.relocate f → Same f g c n (.error d p) (.error e q)

/-- With at most `k` tokens left, the second step does in its layout what the first one does, and
a success reads `c` tokens or more. -/
def Agree (f : Location → Location) (k c : Nat) (g : α → α) (x y : Parse α) : Prop :=
  ∀ ⦃p q : Parser⦄, p.Relaid f q → p.left ≤ k → Same f g c p.left (x p) (y q)

/-- The same where a token comes next and at most `k` are left behind it. -/
def AgreeAhead (f : Location → Location) (k c : Nat) (g : α → α) (x y : Parse α) : Prop :=
  ∀ ⦃p q : Parser⦄, p.Relaid f q → p.peek.kind ≠ .endOfInput → p.left ≤ k + 1 →
    Same f g c p.left (x p) (y q)

namespace Same

theorem behind {m : Nat} {r r' : EStateM.Result Diagnostic Parser α} (hr : Same f g d m r r')
    (hm : m + c ≤ n + d) : Same f g c n r r' := by
  cases hr with
  | error hde => exact .error hde
  | ok hab hrelaid hleft => exact .ok hab hrelaid (by omega)

theorem seq {x y : Parse α} {m m' : α → Parse β} (hx : Same f g d n (x p) (y q))
    (hm : ∀ a j, j + d ≤ n → Agree f j (c - d) h (m a) (m' (g a))) :
    Same f h c n ((x >>= m) p) ((y >>= m') q) := by
  change Same f h c n (EStateM.bind x m p) (EStateM.bind y m' q)
  unfold EStateM.bind
  generalize x p = r, y q = r' at hx
  cases hx with
  | error hde => exact .error hde
  | @ok a b p' q' hab hrelaid hleft =>
    subst hab
    exact (hm a p'.left hleft hrelaid (Nat.le_refl _)).behind (by omega)

end Same

namespace Agree

theorem upTo {x y : Parse α} (hxy : Agree f k c g x y) (hj : j ≤ k) : Agree f j c g x y :=
  fun _ _ hp hleft => hxy hp (Nat.le_trans hleft hj)

theorem atLeast {x y : Parse α} (hxy : Agree f k d g x y) (hc : c ≤ d) : Agree f k c g x y :=
  fun _ _ hp hleft => (hxy hp hleft).behind (Nat.add_le_add_left hc _)

theorem seq {x y : Parse α} {m m' : α → Parse β} (hx : Agree f k d g x y)
    (hm : ∀ a j, j + d ≤ k → Agree f j (c - d) h (m a) (m' (g a))) :
    Agree f k c h (x >>= m) (y >>= m') :=
  fun _ _ hp hleft => (hx hp hleft).seq fun a j hj => hm a j (Nat.le_trans hj hleft)

theorem map {x y : Parse α} (hx : Agree f k c g x y) (wrap : α → β)
    (hwrap : ∀ a, wrap (g a) = h (wrap a)) : Agree f k c h (wrap <$> x) (wrap <$> y) := by
  intro p q hp hleft
  have hrun := hx hp hleft
  change Same f h c _ (EStateM.map wrap x p) (EStateM.map wrap y q)
  unfold EStateM.map
  generalize x p = r, y q = r' at hrun
  cases hrun with
  | error hde => exact .error hde
  | ok hab hrelaid hread => exact .ok (hab ▸ hwrap _) hrelaid hread

theorem pure {a b : α} (hab : b = g a) : Agree f k 0 g (pure a) (pure b) :=
  fun _ _ hp _ => .ok hab hp (Nat.le_refl _)

theorem throw {d e : Diagnostic} (hde : e = d.relocate f) :
    Agree f k c g (throw d) (throw e) :=
  fun _ _ _ _ => .error hde

theorem read {look : Parser → α} (hlook : ∀ ⦃p q : Parser⦄, p.Relaid f q → look q = g (look p)) :
    Agree f k 0 g (look <$> get) (look <$> get) :=
  fun _ _ hp _ => .ok (hlook hp) hp (Nat.le_refl _)

theorem write {change change' : Parser → Parser}
    (hchange : ∀ ⦃p q : Parser⦄, p.Relaid f q → (change p).Relaid f (change' q))
    (hleft : ∀ p, (change p).left = p.left) :
    Agree f k 0 (fun a => a) (modify change) (modify change') :=
  fun _ _ hp _ => .ok rfl (hchange hp) (Nat.le_of_eq (hleft _))

theorem peek : Agree f k 0 (Token.relocate f) peek peek := read fun _ _ hp => hp.peek

theorem peekKind : Agree f k 0 (fun a => a) peekKind peekKind :=
  read fun p q hp => by rw [hp.peek, Token.relocate_kind]

theorem hasTokens : Agree f k 0 (fun a => a) hasTokens hasTokens :=
  read fun p q hp => by
    change (!q.tokens.atEnd) = !p.tokens.atEnd
    rw [TokenSequence.atEnd, TokenSequence.test, hp.tokens.peek]
    rfl

theorem currentScope : Agree f k 0 (fun a => a) currentScope currentScope :=
  read fun _ _ hp => hp.scope

theorem advance : Agree f k 0 (Token.relocate f) advance advance :=
  fun p _ hp _ => .ok hp.peek hp.advance (p.left_advance ▸ Nat.sub_le _ _)

theorem tryConsume (kind : TokenKind) :
    Agree f k 0 (Option.map (Token.relocate f)) (tryConsume kind) (tryConsume kind) := by
  intro p q hp hleft
  rw [tryConsume_run, tryConsume_run, Parser.taken?, Parser.taken?, Parser.skip, Parser.skip,
    hp.peek, Token.relocate_kind]
  split
  · exact .ok rfl hp.advance (p.left_advance ▸ Nat.sub_le _ _)
  · exact .ok rfl hp (Nat.le_refl _)

theorem tryConsume_seq {kind : TokenKind} (hkind : kind ≠ .endOfInput)
    {m m' : Option Token → Parse β}
    (hsome : ∀ t j, j + 1 ≤ k → Agree f j (c - 1) h (m (some t)) (m' (some (t.relocate f))))
    (hnone : Agree f k c h (m none) (m' none)) :
    Agree f k c h (Parse.tryConsume kind >>= m) (Parse.tryConsume kind >>= m') := by
  intro p q hp hleft
  rw [tryConsume_bind, tryConsume_bind, hp.peek, Token.relocate_kind]
  split
  next hnext =>
    have hpos := Parser.left_pos hp.tokens.ended (hnext ▸ hkind)
    have hread : p.advance.left + 1 ≤ p.left := by
      rw [p.left_advance]
      omega
    exact (hsome p.peek p.advance.left (Nat.le_trans hread hleft) hp.advance
      (Nat.le_refl _)).behind (by omega)
  next => exact hnone hp hleft

theorem expect (kind : TokenKind) (hkind : kind ≠ .endOfInput) :
    Agree f k 1 (Token.relocate f) (expect kind) (expect kind) := by
  intro p q hp hleft
  rw [expect_run, expect_run, hp.peek, Token.relocate_kind]
  split
  next hnext =>
    have hpos := Parser.left_pos hp.tokens.ended (hnext ▸ hkind)
    exact .ok rfl hp.advance (by rw [p.left_advance]; omega)
  next =>
    refine .error ?_
    simp only [TokenSequence.mismatch, TokenSequence.test, hp.tokens.peek, Diagnostic.relocate]
    rfl

theorem unexpected : Agree f k c g unexpected unexpected := by
  refine (peek.seq fun token j hj => throw ?_)
  rfl

theorem enterScope (kind : ScopeKind) :
    Agree f k 0 (fun a => a) (enterScope kind) (enterScope kind) :=
  fun p q hp _ => .ok (by
    change q.arena.size = p.arena.size
    rw [hp.arena, Arena.relocate_size]) (hp.enter kind) (Nat.le_refl _)

theorem leaveScope : Agree f k 0 (fun a => a) leaveScope leaveScope :=
  write (fun _ _ hp => hp.leaveScope) fun _ => rfl

theorem thenLeaveScope {x y : Parse α} (hxy : Agree f k c g x y) :
    Agree f k c g (thenLeaveScope x) (thenLeaveScope y) := by
  intro p q hp hleft
  have hrun := hxy hp hleft
  unfold Parse.thenLeaveScope
  generalize x p = r, y q = r' at hrun
  cases hrun with
  | error hde => exact .error hde
  | ok hab hrelaid hread => exact .ok hab hrelaid.leaveScope hread

theorem appendToCurrent (source : ScopeId) :
    Agree f k 0 (fun a => a) (appendToCurrent source) (appendToCurrent source) :=
  write (fun _ _ hp => hp.absorb source) fun _ => rfl

theorem defineIn (scope : ScopeId) (x : Symbol) :
    Agree f k 0 (fun a => a) (defineIn scope x) (defineIn scope (x.relocate f)) :=
  write (fun _ _ hp => hp.defineIn scope x) fun _ => rfl

theorem defineTagIn (scope : ScopeId) (x : Symbol) :
    Agree f k 0 (fun a => a) (defineTagIn scope x) (defineTagIn scope (x.relocate f)) :=
  write (fun _ _ hp => hp.defineTagIn scope x) fun _ => rfl

theorem define (x : Symbol) : Agree f k 0 (fun a => a) (define x) (define (x.relocate f)) :=
  currentScope.seq fun scope _ _ => defineIn scope x

theorem defineTag (x : Symbol) :
    Agree f k 0 (fun a => a) (defineTag x) (defineTag (x.relocate f)) :=
  currentScope.seq fun scope _ _ => defineTagIn scope x

theorem defineWhen (condition : Prop) [Decidable condition] (x : Symbol) {m m' : Unit → Parse β}
    (hm : Agree f k c h (m ()) (m' ())) :
    Agree f k c h (if condition then Parse.define x >>= m else m ())
      (if condition then Parse.define (x.relocate f) >>= m' else m' ()) := by
  split
  · exact (define x).seq fun _ _ hj => hm.upTo hj
  · exact hm

theorem defineAll (xs : List Symbol) :
    Agree f k 0 (fun a => a) (defineAll xs) (defineAll (xs.map (Symbol.relocate f))) := by
  induction xs generalizing k with
  | nil => exact pure rfl
  | cons x xs ih => exact (define x).seq fun _ _ _ => ih

theorem resolve (name : Token) :
    Agree f k 0 (Symbol.relocate f) (resolve name) (resolve (name.relocate f)) := by
  intro p q hp hleft
  have hfind : q.arena.findToken? q.scope (name.relocate f) =
      (p.arena.findToken? p.scope name).map (Symbol.relocate f) := by
    rw [hp.arena, hp.scope, Arena.relocate_findToken?]
  cases hname : p.arena.findToken? p.scope name with
  | none =>
    rw [hname] at hfind
    rw [resolve_missing hname, resolve_missing hfind]
    exact .error rfl
  | some x =>
    rw [hname] at hfind
    rw [resolve_found hname, resolve_found hfind]
    exact .ok rfl hp (Nat.le_refl _)

theorem typing {rule rule' : Typing α} (hrule : rule' = rule.relocate f) :
    Agree f k 0 (fun a => a) (typing rule) (typing rule') := by
  intro p q hp hleft
  rw [hrule]
  unfold Parse.typing Typing.relocate
  rw [hp.store]
  cases rule p.store with
  | ok a s => exact .ok rfl (hp.withStore s) (Nat.le_refl _)
  | error d s => exact .error rfl

theorem newVariable (name : Token) (cell : Cell) :
    Agree f k 0 (Symbol.relocate f) (newVariable name cell)
      (newVariable (name.relocate f) cell) := by
  intro p q hp hleft
  refine .ok ?_ (hp.numbered 1) (Nat.le_refl _)
  rw [hp.symbols]
  rfl

theorem newVariables (tokens : List Token) (cells : List Cell) :
    Agree f k 0 (List.map (Symbol.relocate f)) (newVariables tokens cells)
      (newVariables (tokens.map (Token.relocate f)) cells) := by
  induction tokens generalizing k cells with
  | nil => exact pure rfl
  | cons token tokens ih =>
    cases cells with
    | nil => exact pure rfl
    | cons cell cells =>
      exact (newVariable token cell).seq fun x _ _ => (ih cells).seq fun xs _ _ => pure rfl

theorem newFunction (name : Token) (signature : Signature) :
    Agree f k 0 (Symbol.relocate f) (newFunction name signature)
      (newFunction (name.relocate f) signature) := by
  intro p q hp hleft
  have hrun : ∀ (token : Token) (r : Parser), Parse.newFunction token signature r =
      .ok ⟨r.symbols, token.value, (r.store.add (.known .function)).1, token, .function signature⟩
        ((r.numbered 1).withStore (r.store.add (.known .function)).2) := fun _ _ => rfl
  rw [hrun, hrun, hp.store, hp.symbols]
  exact .ok rfl ((hp.numbered 1).withStore _) (Nat.le_refl _)

theorem signatureOf (use : Token) (x : Symbol) :
    Agree f k 0 (fun a => a) (signatureOf use x) (signatureOf (use.relocate f) (x.relocate f)) := by
  unfold Parse.signatureOf
  rw [Symbol.relocate_signature?]
  cases x.signature? with
  | none => exact throw rfl
  | some signature => exact pure rfl

/-- The bounds of loops differ, since newlines count in them. -/
theorem tokensAhead_seq {m m' : Nat → Parse α}
    (hm : ∀ j b b', j ≤ k → j ≤ b → j ≤ b' → Agree f j c g (m b) (m' b')) :
    Agree f k c g (tokensAhead >>= m) (tokensAhead >>= m') :=
  fun p q hp hleft => hm p.left _ _ hleft p.left_le_ahead (hp.left_eq ▸ q.left_le_ahead) hp
    (Nat.le_refl _)

theorem nothing_left {x y : Parse α} {m m' : α → Parse β} (hx : Agree f k 1 g x y) (hk : k ≤ 0) :
    Agree f k c h (x >>= m) (y >>= m') :=
  hx.seq fun _ _ hj => absurd hj (by omega)

/-- Where nothing is left, loops that may take no turn take none, whatever their bounds. -/
theorem at_end {x y : Parse α} {a b : α} (hk : k ≤ 0)
    (hx : ∀ p : Parser, p.peek.kind = .endOfInput → x p = .ok a p)
    (hy : ∀ p : Parser, p.peek.kind = .endOfInput → y p = .ok b p) (hab : b = g a) :
    Agree f k 0 g x y := by
  intro p q hp hleft
  have hend := hp.at_end (Nat.le_zero.mp (Nat.le_trans hleft hk))
  rw [hx p hend, hy q (by rw [hp.peek, Token.relocate_kind, hend])]
  exact .ok hab hp (Nat.le_refl _)

theorem advance_seq {m m' : Token → Parse β}
    (hm : ∀ t, Agree f k (c - 1) h (m t) (m' (t.relocate f))) :
    AgreeAhead f k c h (Parse.advance >>= m) (Parse.advance >>= m') := by
  intro p q hp hnext hleft
  have hpos := Parser.left_pos hp.tokens.ended hnext
  have hadvance := p.left_advance
  rw [advance_bind, advance_bind, hp.peek]
  exact (hm p.peek hp.advance (by omega)).behind (by omega)

end Agree

end Parse

end MiniMl
