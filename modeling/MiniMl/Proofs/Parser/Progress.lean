import MiniMl.Proofs.Parser.Relocation

/-! # The parser moves on

Every step of the parser reads tokens one after the other, and the end of the input is none of them.
Two readers of operands that do the same on fewer tokens lead to the same runs, since operands inside
an operand are read behind its first token.
-/

namespace MiniMl

/-- Tokens are read one after the other, each of which is not the end of the input. -/
inductive TokenSequence.Reads : TokenSequence → List Token → TokenSequence → Prop where
  | done {s : TokenSequence} : Reads s [] s
  | read {s t : TokenSequence} {ts : List Token} : s.peek.kind ≠ .endOfInput →
      Reads s.advance ts t → Reads s (s.peek :: ts) t

namespace TokenSequence

variable {s t u : TokenSequence} {ts us : List Token}

/-- Where the cursor stands that has been moved past tokens. -/
structure Moved (s : TokenSequence) (ts : List Token) (t : TokenSequence) : Prop where
  passed : ∃ passed, s.ahead = passed ++ t.ahead ∧ t.behind = passed.reverse ++ s.behind ∧
    passed.filter (!·.isNewline) = ts
  overrun : t.overrun = s.overrun
  sentinel : t.sentinel = s.sentinel
  kinds : ∀ u ∈ ts, u.kind ≠ .newline ∧ u.kind ≠ .endOfInput

theorem Moved.refl (s : TokenSequence) : s.Moved [] s :=
  ⟨⟨[], rfl, rfl, rfl⟩, rfl, rfl, by simp⟩

theorem Moved.trans (h : s.Moved ts t) (k : t.Moved us u) : s.Moved (ts ++ us) u := by
  obtain ⟨first, hahead, hbehind, hts⟩ := h.passed
  obtain ⟨second, hahead', hbehind', hus⟩ := k.passed
  constructor
  · refine ⟨first ++ second, ?_, ?_, ?_⟩
    · rw [hahead, hahead', List.append_assoc]
    · rw [hbehind', hbehind, List.reverse_append, List.append_assoc]
    · rw [List.filter_append, hts, hus]
  · rw [k.overrun, h.overrun]
  · rw [k.sentinel, h.sentinel]
  · intro v hv
    rcases List.mem_append.mp hv with hv | hv
    · exact h.kinds v hv
    · exact k.kinds v hv

theorem Moved.ended (h : s.Moved ts t) (hs : s.Ended) : t.Ended := by
  rw [Ended, h.sentinel]
  exact hs

theorem Moved.rest (h : s.Moved ts t) : s.rest = ts ++ t.rest := by
  obtain ⟨passed, hahead, -, hts⟩ := h.passed
  rw [TokenSequence.rest, TokenSequence.rest, hahead, List.filter_append, hts]

theorem advance_moved (hs : s.Ended) (hnext : s.peek.kind ≠ .endOfInput) :
    s.Moved [s.peek] s.advance := by
  rcases s.upcoming_cases with ⟨hnone, -⟩ | ⟨t, us, hsome, hnewline, hahead, -⟩
  · refine absurd ?_ hnext
    rw [peek, hnone]
    exact hs
  · have hpeek : s.peek = t := by rw [peek, hsome]; rfl
    have hadvance : s.advance = { s with
        behind := t :: ((s.ahead.takeWhile Token.isNewline).reverse ++ s.behind), ahead := us } := by
      rw [advance, hsome]
    constructor
    · refine ⟨s.ahead.takeWhile Token.isNewline ++ [t], ?_, ?_, ?_⟩
      · rw [hadvance, List.append_assoc]
        exact hahead
      · rw [hadvance]
        simp
      · rw [List.filter_append, hpeek, List.filter_eq_nil_iff.mpr]
        · simp [hnewline]
        · intro u hu
          simpa using List.all_eq_true.mp List.all_takeWhile u hu
    · rw [hadvance]
    · exact s.sentinel_advance
    · intro u hu
      obtain rfl := List.mem_singleton.mp hu
      refine ⟨?_, hnext⟩
      rw [hpeek]
      simpa [Token.isNewline] using hnewline

theorem Reads.moved (h : s.Reads ts t) (hs : s.Ended) : s.Moved ts t := by
  induction h with
  | done => exact .refl _
  | read hnext _ ih => exact (advance_moved hs hnext).trans (ih hs.advance)

theorem Reads.trans (h : s.Reads ts t) (k : t.Reads us u) : s.Reads (ts ++ us) u := by
  induction h with
  | done => exact k
  | read hnext _ ih => exact .read hnext (ih k)

theorem Reads.once (hnext : s.peek.kind ≠ .endOfInput) : s.Reads [s.peek] s.advance :=
  .read hnext .done

end TokenSequence

namespace Parse

variable {p q : Parser} {k c d : Nat} {α β : Type}

/-- A run has only read tokens, and `c` of them or more if it has succeeded. -/
inductive Ran (c : Nat) (s : TokenSequence) : EStateM.Result Diagnostic Parser α → Prop where
  | ok {a : α} {q : Parser} {ts : List Token} : s.Reads ts q.tokens → c ≤ ts.length →
      Ran c s (.ok a q)
  | error {d : Diagnostic} {q : Parser} {ts : List Token} : s.Reads ts q.tokens →
      Ran c s (.error d q)

/-- Two steps do the same, and what they do is to read `c` tokens or more. -/
structure AlikeAt (c : Nat) (x y : Parse α) (p : Parser) : Prop where
  same : y p = x p
  ran : Ran c p.tokens (x p)

/-- They do so as long as fewer than `k` tokens are left. -/
def Alike (k c : Nat) (x y : Parse α) : Prop :=
  ∀ ⦃p : Parser⦄, p.tokens.Ended → p.left < k → AlikeAt c x y p

/-- They do so where a token comes next. -/
def AlikeAhead (k c : Nat) (x y : Parse α) : Prop :=
  ∀ ⦃p : Parser⦄, p.tokens.Ended → p.peek.kind ≠ .endOfInput → p.left < k → AlikeAt c x y p

namespace Ran

variable {s t : TokenSequence} {r : EStateM.Result Diagnostic Parser α}

theorem atLeast (h : Ran d s r) (hc : c ≤ d) : Ran c s r := by
  cases h with
  | ok hreads hd => exact .ok hreads (Nat.le_trans hc hd)
  | error hreads => exact .error hreads

theorem behind {ts : List Token} (hreads : s.Reads ts t) (h : Ran d t r)
    (hc : c ≤ ts.length + d) : Ran c s r := by
  cases h with
  | ok hmore hd => exact .ok (hreads.trans hmore) (by rw [List.length_append]; omega)
  | error hmore => exact .error (hreads.trans hmore)

end Ran

theorem left_of_reads {ts : List Token} (h : p.tokens.Reads ts q.tokens) (hp : p.tokens.Ended) :
    p.left = ts.length + q.left := by
  rw [Parser.left, Parser.left, (h.moved hp).rest, List.length_append]

theorem peek_at_end (hp : p.tokens.Ended) (hleft : p.left = 0) : p.peek.kind = .endOfInput := by
  rw [Parser.peek, TokenSequence.peek_eq, List.length_eq_zero_iff.mp hleft]
  exact hp

theorem reads_advance (hnext : p.peek.kind ≠ .endOfInput) :
    p.tokens.Reads [p.peek] p.advance.tokens := .once hnext

theorem bind_congr_run {x y : Parse α} {m : α → Parse β} (h : x p = y p) :
    (x >>= m) p = (y >>= m) p := by
  change EStateM.bind x m p = EStateM.bind y m p
  unfold EStateM.bind
  rw [h]

namespace AlikeAt

variable {x y : Parse α} {m m' : α → Parse β}

theorem atLeast (h : AlikeAt d x y p) (hc : c ≤ d) : AlikeAt c x y p := ⟨h.same, h.ran.atLeast hc⟩

theorem of_run {x' y' : Parse α} (h : AlikeAt c x y p) (hx : x' p = x p)
    (hy : y' p = y p) : AlikeAt c x' y' p := by
  constructor
  · rw [hx, hy]
    exact h.same
  · rw [hx]
    exact h.ran

/-- The second step counts on the tokens that the first one has read. -/
theorem seq (hx : AlikeAt d x y p) (hp : p.tokens.Ended) (hleft : p.left < k)
    (hm : ∀ a, Alike (k - d) (c - d) (m a) (m' a)) : AlikeAt c (x >>= m) (y >>= m') p := by
  obtain ⟨hsame, hran⟩ := hx
  suffices hboth : EStateM.bind y m' p = EStateM.bind x m p ∧ Ran c p.tokens (EStateM.bind x m p) by
    exact ⟨hboth.1, hboth.2⟩
  unfold EStateM.bind
  rw [hsame]
  generalize x p = r at hran
  cases hran with
  | @ok a q ts hreads hd =>
    have hq := left_of_reads hreads hp
    have hrest := hm a ((hreads.moved hp).ended hp) (by omega : q.left < k - d)
    exact ⟨hrest.same, .behind hreads hrest.ran (by omega)⟩
  | error hreads => exact ⟨rfl, .error hreads⟩

theorem map (hx : AlikeAt c x y p) (wrap : α → β) : AlikeAt c (wrap <$> x) (wrap <$> y) p := by
  obtain ⟨hsame, hran⟩ := hx
  suffices hboth : EStateM.map wrap y p = EStateM.map wrap x p ∧
      Ran c p.tokens (EStateM.map wrap x p) by
    exact ⟨hboth.1, hboth.2⟩
  unfold EStateM.map
  rw [hsame]
  generalize x p = r at hran
  cases hran with
  | ok hreads hc => exact ⟨rfl, .ok hreads hc⟩
  | error hreads => exact ⟨rfl, .error hreads⟩

theorem thenLeaveScope (hx : AlikeAt c x y p) :
    AlikeAt c (thenLeaveScope x) (thenLeaveScope y) p := by
  obtain ⟨hsame, hran⟩ := hx
  suffices hboth : Parse.thenLeaveScope y p = Parse.thenLeaveScope x p ∧
      Ran c p.tokens (Parse.thenLeaveScope x p) by
    exact ⟨hboth.1, hboth.2⟩
  unfold Parse.thenLeaveScope
  rw [hsame]
  generalize x p = r at hran
  cases hran with
  | ok hreads hc => exact ⟨rfl, .ok hreads hc⟩
  | error hreads => exact ⟨rfl, .error hreads⟩

theorem advance {m m' : Token → Parse β} (hp : p.tokens.Ended) (hnext : p.peek.kind ≠ .endOfInput)
    (hleft : p.left < k) (hm : Alike (k - 1) (c - 1) (m p.peek) (m' p.peek)) :
    AlikeAt c (Parse.advance >>= m) (Parse.advance >>= m') p := by
  have hreads := reads_advance hnext
  have hq := left_of_reads hreads hp
  rw [List.length_singleton] at hq
  have hrest := hm hp.advance (by omega : p.advance.left < k - 1)
  exact ⟨hrest.same, .behind hreads hrest.ran (by rw [List.length_singleton]; omega)⟩

theorem peekKind {m m' : TokenKind → Parse β} (hm : AlikeAt c (m p.peek.kind) (m' p.peek.kind) p) :
    AlikeAt c (Parse.peekKind >>= m) (Parse.peekKind >>= m') p := ⟨hm.same, hm.ran⟩

theorem peek {m m' : Token → Parse β} (hm : AlikeAt c (m p.peek) (m' p.peek) p) :
    AlikeAt c (Parse.peek >>= m) (Parse.peek >>= m') p := ⟨hm.same, hm.ran⟩

theorem peekNext {m m' : Token → Parse β}
    (hm : AlikeAt c (m p.tokens.peekNext) (m' p.tokens.peekNext) p) :
    AlikeAt c (Parse.peekNext >>= m) (Parse.peekNext >>= m') p := ⟨hm.same, hm.ran⟩

theorem currentScope {m m' : ScopeId → Parse β} (hm : AlikeAt c (m p.scope) (m' p.scope) p) :
    AlikeAt c (Parse.currentScope >>= m) (Parse.currentScope >>= m') p := ⟨hm.same, hm.ran⟩

theorem enterScope {kind : ScopeKind} {m m' : ScopeId → Parse β}
    (hm : AlikeAt c (m p.arena.size) (m' p.arena.size) (p.enter kind)) :
    AlikeAt c (Parse.enterScope kind >>= m) (Parse.enterScope kind >>= m') p := ⟨hm.same, hm.ran⟩

end AlikeAt

namespace Alike

theorem atLeast {x y : Parse α} (h : Alike k d x y) (hc : c ≤ d) : Alike k c x y :=
  fun _ hp hleft => (h hp hleft).atLeast hc

theorem upTo {x y : Parse α} (h : Alike k c x y) {j : Nat} (hj : j ≤ k) : Alike j c x y :=
  fun _ hp hleft => h hp (Nat.lt_of_lt_of_le hleft hj)

theorem nowhere {x y : Parse α} : Alike 0 c x y := fun _ _ hleft => absurd hleft (Nat.not_lt_zero _)

theorem seqBehind {x y : Parse α} {m m' : α → Parse β} (hx : Alike k d x y)
    (hm : ∀ a, Alike (k - d) (c - d) (m a) (m' a)) : Alike k c (x >>= m) (y >>= m') :=
  fun _ hp hleft => (hx hp hleft).seq hp hleft hm

theorem seq {x y : Parse α} {m m' : α → Parse β} (hx : Alike k d x y)
    (hm : ∀ a, Alike k (c - d) (m a) (m' a)) : Alike k c (x >>= m) (y >>= m') :=
  hx.seqBehind fun a => (hm a).upTo (Nat.sub_le k d)

theorem map {x y : Parse α} (hx : Alike k c x y) (wrap : α → β) :
    Alike k c (wrap <$> x) (wrap <$> y) := fun _ hp hleft => (hx hp hleft).map wrap

theorem pure (a : α) : Alike k 0 (pure a) (pure a) :=
  fun _ _ _ => ⟨rfl, .ok .done (Nat.zero_le _)⟩

theorem throw (d : Diagnostic) : Alike k c (throw d : Parse α) (throw d) :=
  fun _ _ _ => ⟨rfl, .error .done⟩

theorem still {x : Parse α} (hok : ∀ p a q, x p = .ok a q → q.tokens = p.tokens)
    (herror : ∀ p d q, x p = .error d q → q.tokens = p.tokens) : Alike k 0 x x := by
  intro p _ _
  refine ⟨rfl, ?_⟩
  cases hrun : x p with
  | ok a q =>
    have hreads : p.tokens.Reads [] q.tokens := by
      rw [hok p a q hrun]
      exact .done
    exact .ok hreads (Nat.le_refl 0)
  | error d q =>
    have hreads : p.tokens.Reads [] q.tokens := by
      rw [herror p d q hrun]
      exact .done
    exact .error hreads

theorem modifyGet {step : Parser → α × Parser} (h : ∀ p, (step p).2.tokens = p.tokens) :
    Alike k 0 (modifyGet step : Parse α) (modifyGet step) :=
  still (fun p a q hrun => by cases hrun; exact h p) fun _ _ _ hrun => by cases hrun

theorem look (f : Parser → α) : Alike k 0 (f <$> get : Parse α) (f <$> get) :=
  still (fun p a q hrun => by cases hrun; rfl) fun _ _ _ hrun => by cases hrun

theorem peek : Alike k 0 peek peek := look _

theorem peekKind : Alike k 0 peekKind peekKind := look _

theorem hasTokens : Alike k 0 hasTokens hasTokens := look _

theorem tokensAhead : Alike k 0 tokensAhead tokensAhead := look _

theorem currentScope : Alike k 0 currentScope currentScope := look _

theorem enterScope (kind : ScopeKind) : Alike k 0 (enterScope kind) (enterScope kind) :=
  modifyGet fun _ => rfl

theorem leaveScope : Alike k 0 leaveScope leaveScope := modifyGet fun _ => rfl

theorem appendToCurrent (source : ScopeId) :
    Alike k 0 (appendToCurrent source) (appendToCurrent source) := modifyGet fun _ => rfl

theorem defineIn (scope : ScopeId) (x : Symbol) :
    Alike k 0 (defineIn scope x) (defineIn scope x) := modifyGet fun _ => rfl

theorem defineTagIn (scope : ScopeId) (x : Symbol) :
    Alike k 0 (defineTagIn scope x) (defineTagIn scope x) := modifyGet fun _ => rfl

theorem define (x : Symbol) : Alike k 0 (define x) (define x) :=
  currentScope.seq fun scope => defineIn scope x

theorem defineTag (x : Symbol) : Alike k 0 (defineTag x) (defineTag x) :=
  currentScope.seq fun scope => defineTagIn scope x

theorem defineWhen (condition : Prop) [Decidable condition] (x : Symbol) {m m' : Unit → Parse β}
    (hm : Alike k c (m ()) (m' ())) :
    Alike k c (if condition then Parse.define x >>= m else m ())
      (if condition then Parse.define x >>= m' else m' ()) := by
  split
  · exact (define x).seq fun _ => hm
  · exact hm

theorem defineAll (xs : List Symbol) : Alike k 0 (defineAll xs) (defineAll xs) := by
  induction xs with
  | nil => exact pure ()
  | cons x xs ih => exact (define x).seq fun _ => ih

theorem resolve (name : Token) : Alike k 0 (resolve name) (resolve name) := by
  have hread : Alike k 0 (get : Parse Parser) get :=
    still (fun _ _ _ hrun => by cases hrun; rfl) fun _ _ _ hrun => by cases hrun
  refine hread.seq fun p => ?_
  cases p.arena.findToken? p.scope name with
  | none => exact throw _
  | some x => exact pure x

theorem typing (rule : Typing α) : Alike k 0 (typing rule) (typing rule) := by
  refine still (fun p a q hrun => ?_) fun p d q hrun => ?_
  · obtain ⟨s, -, rfl⟩ := typing_ok.mp hrun
    rfl
  · unfold Parse.typing at hrun
    split at hrun
    · cases hrun
    · cases hrun
      rfl

theorem newVariable (name : Token) (cell : Cell) :
    Alike k 0 (newVariable name cell) (newVariable name cell) :=
  (modifyGet fun _ => rfl).seq fun _ => pure _

theorem newVariables (tokens : List Token) (cells : List Cell) :
    Alike k 0 (newVariables tokens cells) (newVariables tokens cells) := by
  refine still (fun p a q hrun => ?_) fun p d q hrun => ?_
  · rw [newVariables_run] at hrun
    cases hrun
    rfl
  · rw [newVariables_run] at hrun
    cases hrun

theorem newFunction (name : Token) (signature : Signature) :
    Alike k 0 (newFunction name signature) (newFunction name signature) :=
  (modifyGet fun _ => rfl).seq fun _ => typing _

theorem signatureOf (use : Token) (x : Symbol) :
    Alike k 0 (signatureOf use x) (signatureOf use x) := by
  unfold Parse.signatureOf
  cases x.signature? with
  | none => exact throw _
  | some signature => exact pure signature

theorem defineAllAtTop (bs : List Binding) :
    Alike k 0 (defineAllAtTop bs) (defineAllAtTop bs) := by
  induction bs with
  | nil => exact pure ()
  | cons b bs ih =>
    have hb : Alike k 0 (Parse.defineAtTop b) (Parse.defineAtTop b) := by
      cases b with
      | value symbol body => exact defineIn _ symbol
      | function symbol params body isRec scope =>
        exact (defineIn _ symbol).seq fun _ => defineTagIn _ symbol
    exact hb.seq fun _ => ih

theorem unexpected : Alike k c (unexpected : Parse α) unexpected :=
  (peek.atLeast (Nat.zero_le 0)).seq fun _ => throw _

/-! The steps that read a token. -/

theorem expect {kind : TokenKind} (hkind : kind ≠ .endOfInput) :
    Alike k 1 (expect kind) (expect kind) := by
  intro p _ _
  refine ⟨rfl, ?_⟩
  rw [expect_run]
  split
  next hnext => exact .ok (reads_advance (hnext ▸ hkind)) (Nat.le_refl 1)
  next => exact .error .done

theorem tryConsume {kind : TokenKind} (hkind : kind ≠ .endOfInput) :
    Alike k 0 (tryConsume kind) (tryConsume kind) := by
  intro p _ _
  refine ⟨rfl, ?_⟩
  rw [tryConsume_run, Parser.skip]
  split
  next hnext => exact .ok (reads_advance (hnext ▸ hkind)) (Nat.zero_le _)
  next => exact .ok .done (Nat.le_refl 0)

theorem tryConsume_seq {kind : TokenKind} (hkind : kind ≠ .endOfInput)
    {m m' : Option Token → Parse β}
    (hsome : ∀ t, Alike (k - 1) (c - 1) (m (some t)) (m' (some t)))
    (hnone : Alike k c (m none) (m' none)) :
    Alike k c (Parse.tryConsume kind >>= m) (Parse.tryConsume kind >>= m') := by
  intro p hp hleft
  by_cases hnext : p.peek.kind = kind
  · have hread : AlikeAt c (Parse.advance >>= fun t => m (some t))
        (Parse.advance >>= fun t => m' (some t)) p :=
      .advance hp (hnext ▸ hkind) hleft (hsome p.peek)
    constructor
    · rw [tryConsume_bind, tryConsume_bind, if_pos hnext, if_pos hnext]
      exact hread.same
    · rw [tryConsume_bind, if_pos hnext]
      exact hread.ran
  · have hstay := hnone hp hleft
    constructor
    · rw [tryConsume_bind, tryConsume_bind, if_neg hnext, if_neg hnext]
      exact hstay.same
    · rw [tryConsume_bind, if_neg hnext]
      exact hstay.ran

end Alike

theorem AlikeAhead.advance {m m' : Token → Parse β}
    (hm : ∀ t, Alike (k - 1) (c - 1) (m t) (m' t)) :
    AlikeAhead k c (Parse.advance >>= m) (Parse.advance >>= m') :=
  fun p hp hnext hleft => .advance hp hnext hleft (hm p.peek)

end Parse

end MiniMl
