import MiniMl.Proofs.Parser.Productions
import MiniMl.Proofs.Parser.Relocation

/-! # Other tokens behind

A step that succeeds depends on the tokens that it reads and on whether the next one goes on with
what was read. So it does the same with other tokens behind, which are left for what comes after.
-/

namespace MiniMl

def TokenKind.continues (kind : TokenKind) : Bool :=
  kind.power?.isSome || kind.startsArgument ||
    [openParen, unit, semicolon, comma, elseWord, andWord].contains kind

namespace TokenKind

variable {kind : TokenKind}

theorem power?_of_rests (h : kind.continues = false) : kind.power? = none := by
  cases kind
  all_goals first | rfl | cases h

theorem startsArgument_of_rests (h : kind.continues = false) : kind.startsArgument = false := by
  cases kind
  all_goals first | rfl | cases h

theorem ne_of_rests {other : TokenKind} (h : kind.continues = false)
    (hother : other.continues = true) : kind ≠ other := by
  rintro rfl
  rw [h] at hother
  cases hother

end TokenKind

def TokenKind.opensArguments : TokenKind → Bool
  | openParen | unit => true
  | _ => false

def lookahead (ts : List Token) : TokenKind := (ts.head?.map Token.kind).getD .endOfInput

/-- An expression ends in front of both lists of tokens. -/
structure Resting (us vs : List Token) : Prop where
  left : (lookahead us).continues = false
  right : (lookahead vs).continues = false

structure Unopened (us vs : List Token) : Prop where
  left : (lookahead us).opensArguments = false
  right : (lookahead vs).opensArguments = false

theorem TokenKind.unopened_of_rests {kind : TokenKind} (h : kind.continues = false) :
    kind.opensArguments = false := by
  cases kind
  all_goals first | rfl | cases h

theorem Resting.unopened {us vs : List Token} (h : Resting us vs) : Unopened us vs :=
  ⟨TokenKind.unopened_of_rests h.left, TokenKind.unopened_of_rests h.right⟩

theorem TokenSequence.peek_kind {s : TokenSequence} (hs : s.Ended) :
    s.peek.kind = lookahead s.rest := by
  rw [peek_eq]
  cases s.rest with
  | nil => exact hs
  | cons t ts => rfl

namespace Parser

variable {p p' q q' : Parser} {us vs : List Token} {calm calm' : Prop}

/-- The same state in front of other tokens. -/
def reading (p : Parser) (s : TokenSequence) : Parser := { p with tokens := s }

/-- After the same tokens, `us` are to be read in one state and `vs` in the other. -/
structure Swapped (us vs : List Token) (p q : Parser) : Prop where
  ended : p.tokens.Ended
  ended' : q.tokens.Ended
  rest : ∃ front, p.tokens.rest = front ++ us ∧ q.tokens.rest = front ++ vs
  same : q = p.reading q.tokens

/-- None of `us` was read; where they come next, `calm` holds. -/
def Before (us : List Token) (calm : Prop) (p : Parser) : Prop :=
  us.length < p.left ∨ us.length = p.left ∧ calm

theorem Before.earlier (h : p'.Before us calm) (hle : p'.left ≤ p.left)
    (hcalm : p'.left < p.left ∨ (calm → calm')) : p.Before us calm' := by
  rcases h with h | ⟨h, hc⟩
  · exact .inl (by omega)
  · by_cases hlt : us.length < p.left
    · exact .inl hlt
    · exact .inr ⟨by omega, (hcalm.resolve_left (by omega)) hc⟩

theorem Before.le (h : p.Before us calm) : us.length ≤ p.left := by
  rcases h with h | ⟨h, -⟩
  · exact Nat.le_of_lt h
  · exact Nat.le_of_eq h

theorem Relaid.refl (hp : p.tokens.Ended) : p.Relaid id p := by
  refine ⟨⟨hp, ?_, rfl⟩, p.arena.relocate_id.symm, rfl, rfl, rfl⟩
  exact (List.map_id p.tokens.rest).symm

theorem Relaid.reading (h : p.Relaid id q) :
    q = p.reading q.tokens ∧ q.tokens.rest = p.tokens.rest ∧ q.tokens.Ended := by
  obtain ⟨⟨hended, hrest, hsentinel⟩, harena, hscope, hstore, hsymbols⟩ := h
  refine ⟨?_, hrest.trans (List.map_id _), ?_⟩
  · rw [Arena.relocate_id] at harena
    obtain ⟨tokens, arena, scope, store, symbols⟩ := q
    simp only at harena hscope hstore hsymbols
    rw [harena, hscope, hstore, hsymbols]
    rfl
  · rw [TokenSequence.Ended, hsentinel]
    exact hended

namespace Swapped

theorem symm (h : p.Swapped us vs q) : q.Swapped vs us p where
  ended := h.ended'
  ended' := h.ended
  rest := by
    obtain ⟨front, hp, hq⟩ := h.rest
    exact ⟨front, hq, hp⟩
  same := by
    rw [h.same]
    rfl

theorem relaid (h : p.Swapped us vs q) (hp : p'.Relaid id p) (hq : q.Relaid id q') :
    p'.Swapped us vs q' := by
  obtain ⟨hsame, hrest, -⟩ := hp.reading
  obtain ⟨hsame', hrest', hended'⟩ := hq.reading
  obtain ⟨front, hfront, hfront'⟩ := h.rest
  refine ⟨hp.tokens.ended, hended', ⟨front, ?_, ?_⟩, ?_⟩
  · rw [← hrest, hfront]
  · rw [hrest', hfront']
  · rw [hsame', h.same, hsame]
    rfl

theorem next (h : p.Swapped us vs q) (hleft : us.length < p.left) :
    q.peek = p.peek ∧ p.advance.Swapped us vs q.advance := by
  obtain ⟨front, hp, hq⟩ := h.rest
  cases front with
  | nil =>
    rw [left, hp] at hleft
    exact absurd hleft (Nat.lt_irrefl _)
  | cons t front =>
    refine ⟨?_, h.ended.advance, h.ended'.advance, ⟨front, ?_, ?_⟩, ?_⟩
    · rw [peek, peek, TokenSequence.peek_eq, TokenSequence.peek_eq, hp, hq]
      rfl
    · rw [advance, TokenSequence.rest_advance, hp]
      rfl
    · rw [advance, TokenSequence.rest_advance, hq]
      rfl
    · rw [h.same]
      rfl

theorem stop (h : p.Swapped us vs q) (hleft : us.length = p.left) :
    p.peek.kind = lookahead us ∧ q.peek.kind = lookahead vs := by
  obtain ⟨front, hp, hq⟩ := h.rest
  have hfront : front = [] := by
    rw [left, hp, List.length_append] at hleft
    exact List.length_eq_zero_iff.mp (by omega)
  subst hfront
  rw [peek, peek, TokenSequence.peek_kind h.ended, TokenSequence.peek_kind h.ended', hp, hq]
  exact ⟨rfl, rfl⟩

theorem startsArgument (h : p.Swapped us vs q) (hread : p'.left + 1 ≤ p.left)
    (hbefore : p'.Before us (Resting us vs)) :
    q.tokens.peekNext.kind.startsArgument = p.tokens.peekNext.kind.startsArgument := by
  have hnext := (h.next (Nat.lt_of_le_of_lt hbefore.le hread)).2
  have hafter : p.advance.Before us (Resting us vs) :=
    hbefore.earlier (by rw [left_advance]; omega) (.inr id)
  rw [TokenSequence.peekNext_eq_advance, TokenSequence.peekNext_eq_advance]
  change q.advance.peek.kind.startsArgument = p.advance.peek.kind.startsArgument
  rcases hafter with hlt | ⟨heq, hrests⟩
  · rw [(hnext.next hlt).1]
  · rw [(hnext.stop heq).1, (hnext.stop heq).2, TokenKind.startsArgument_of_rests hrests.left,
      TokenKind.startsArgument_of_rests hrests.right]

end Swapped

end Parser

namespace Parse

variable {us vs : List Token} {calm calm' : Prop} {c d : Nat} {α β : Type} {x : Parse α}
  {m : α → Parse β} {p : Parser}

/-- A run of the step has read `c` tokens or more, and if it has not read into `us`, it is also one
with `vs` in their place. -/
structure Carries (us vs : List Token) (calm : Prop) (c : Nat) (x : Parse α) (p : Parser) (a : α)
    (p' : Parser) : Prop where
  sentinel : p'.tokens.sentinel = p.tokens.sentinel
  read : p'.left + c ≤ p.left
  again : ∀ ⦃q⦄, p.Swapped us vs q → p'.Before us calm → ∃ q', x q = .ok a q' ∧ p'.Swapped us vs q'

theorem Carries.ended {a : α} {p' : Parser} (h : Carries us vs calm c x p a p')
    (hp : p.tokens.Ended) : p'.tokens.Ended := by
  rw [TokenSequence.Ended, h.sentinel]
  exact hp

theorem Agree.run {y : Parse α} {k : Nat} {g : α → α} {a : α} {p' : Parser}
    (hxy : Agree id k c g x y) (hg : ∀ a, g a = a) (hp : p.tokens.Ended) (hk : p.left ≤ k)
    (h : x p = .ok a p') : ∃ p'', y p = .ok a p'' ∧ p'.Relaid id p'' := by
  have hsame := hxy (.refl hp) hk
  rw [h] at hsame
  generalize y p = r at hsame
  cases hsame with
  | ok hab hrelaid hleft => exact ⟨_, by rw [hab, hg], hrelaid⟩

def SteadyAt (us vs : List Token) (calm : Prop) (c : Nat) (x : Parse α) (p : Parser) : Prop :=
  ∀ ⦃a p'⦄, x p = .ok a p' → Carries us vs calm c x p a p'

/-- Every run that succeeds can be had with other tokens behind those that it reads. -/
def Steady (us vs : List Token) (calm : Prop) (c : Nat) (x : Parse α) : Prop :=
  ∀ ⦃p : Parser⦄, p.tokens.Ended → SteadyAt us vs calm c x p

/-- The same where a token comes next. -/
def SteadyAhead (us vs : List Token) (calm : Prop) (c : Nat) (x : Parse α) : Prop :=
  ∀ ⦃p : Parser⦄, p.tokens.Ended → p.peek.kind ≠ .endOfInput → SteadyAt us vs calm c x p

/-- A step that looks at no token. -/
def Still (x : Parse α) : Prop :=
  ∀ ⦃p a p'⦄, x p = .ok a p' →
    p'.tokens = p.tokens ∧ ∀ s, x (p.reading s) = .ok a (p'.reading s)

namespace Still

theorem seq (hx : Still x) (hm : ∀ a, Still (m a)) : Still (x >>= m) := by
  intro p b p' h
  obtain ⟨a, r, ha, h⟩ := bind_ok.mp h
  obtain ⟨hr, hx⟩ := hx ha
  obtain ⟨hp', hm⟩ := hm a h
  refine ⟨hp'.trans hr, fun s => ?_⟩
  rw [bind_of_run (hx s)]
  exact hm s

theorem pure (a : α) : Still (pure a) := by
  intro p b p' h
  obtain ⟨rfl, rfl⟩ := pure_ok.mp h
  exact ⟨rfl, fun s => rfl⟩

theorem throw (e : Diagnostic) : Still (throw e : Parse α) := fun _ _ _ h => absurd h throw_ok

theorem modifyGet (step : Parser → α × Parser)
    (htokens : ∀ p, (step p).2.tokens = p.tokens)
    (hstep : ∀ p s, step (p.reading s) = ((step p).1, (step p).2.reading s)) :
    Still (modifyGet step) := by
  intro p a p' h
  cases h
  refine ⟨htokens p, fun s => ?_⟩
  change EStateM.Result.ok (step (p.reading s)).1 (step (p.reading s)).2 = _
  rw [hstep]

theorem currentScope : Still currentScope := by
  intro p a p' h
  cases h
  exact ⟨rfl, fun s => rfl⟩

theorem enterScope (kind : ScopeKind) : Still (enterScope kind) :=
  modifyGet _ (fun _ => rfl) fun _ _ => rfl

theorem leaveScope : Still leaveScope := modifyGet _ (fun _ => rfl) fun _ _ => rfl

theorem appendToCurrent (source : ScopeId) : Still (appendToCurrent source) :=
  modifyGet _ (fun _ => rfl) fun _ _ => rfl

theorem defineIn (scope : ScopeId) (x : Symbol) : Still (defineIn scope x) :=
  modifyGet _ (fun _ => rfl) fun _ _ => rfl

theorem defineTagIn (scope : ScopeId) (x : Symbol) : Still (defineTagIn scope x) :=
  modifyGet _ (fun _ => rfl) fun _ _ => rfl

theorem define (x : Symbol) : Still (define x) := currentScope.seq fun scope => defineIn scope x

theorem defineTag (x : Symbol) : Still (defineTag x) :=
  currentScope.seq fun scope => defineTagIn scope x

theorem defineAll (xs : List Symbol) : Still (defineAll xs) := by
  induction xs with
  | nil => exact pure ()
  | cons x xs ih => exact (define x).seq fun _ => ih

theorem resolve (name : Token) : Still (resolve name) := by
  intro p x p' h
  cases hname : p.arena.findToken? p.scope name with
  | none =>
    rw [resolve_missing hname] at h
    cases h
  | some y =>
    rw [resolve_found hname] at h
    cases h
    exact ⟨rfl, fun s => resolve_found hname⟩

theorem typing (rule : Typing α) : Still (typing rule) := by
  intro p a p' h
  obtain ⟨store, hrule, rfl⟩ := typing_ok.mp h
  exact ⟨rfl, fun s => typing_ok.mpr ⟨store, hrule, rfl⟩⟩

theorem newVariable (name : Token) (cell : Cell) : Still (newVariable name cell) :=
  (modifyGet _ (fun _ => rfl) fun _ _ => rfl).seq fun _ => pure _

theorem newVariables (tokens : List Token) (cells : List Cell) :
    Still (newVariables tokens cells) := by
  induction tokens generalizing cells with
  | nil => exact pure []
  | cons token tokens ih =>
    cases cells with
    | nil => exact pure []
    | cons cell cells =>
      exact (newVariable token cell).seq fun x => (ih cells).seq fun xs => pure _

theorem newFunction (name : Token) (signature : Signature) : Still (newFunction name signature) :=
  (modifyGet _ (fun _ => rfl) fun _ _ => rfl).seq fun _ => typing _

theorem signatureOf (use : Token) (x : Symbol) : Still (signatureOf use x) := by
  unfold Parse.signatureOf
  cases x.signature? with
  | none => exact throw _
  | some signature => exact pure signature

theorem defineAllAtTop (bs : List Binding) : Still (defineAllAtTop bs) := by
  induction bs with
  | nil => exact pure ()
  | cons b bs ih =>
    refine Still.seq ?_ fun _ => ih
    cases b with
    | value symbol body => exact defineIn _ symbol
    | function symbol params body isRec scope =>
      exact (defineIn _ symbol).seq fun _ => defineTagIn _ symbol

theorem steady (hx : Still x) : Steady us vs calm 0 x := by
  intro p hp a p' h
  obtain ⟨htokens, hagain⟩ := hx h
  have hleft : p'.left = p.left := by rw [Parser.left, Parser.left, htokens]
  refine ⟨congrArg _ htokens, Nat.le_of_eq hleft, fun q hq _ => ?_⟩
  refine ⟨p'.reading q.tokens, ?_, htokens ▸ hq.ended, hq.ended', ?_, rfl⟩
  · rw [hq.same]
    exact hagain q.tokens
  · rw [htokens]
    exact hq.rest

end Still

namespace SteadyAt

/-- In front of a step that reads a token, one that is steady only in a calm place always is. -/
theorem seq (hx : SteadyAt us vs calm' d x p) (hp : p.tokens.Ended)
    (hm : ∀ a, Steady us vs calm (c - d) (m a)) (hcalm : d < c ∨ (calm → calm')) :
    SteadyAt us vs calm c (x >>= m) p := by
  intro b p' h
  obtain ⟨a, r, ha, h⟩ := bind_ok.mp h
  have hr := (hx ha).ended hp
  obtain ⟨hsentinel, hread, hagain⟩ := hx ha
  obtain ⟨hsentinel', hread', hagain'⟩ := hm a hr h
  refine ⟨hsentinel'.trans hsentinel, by omega, fun q hq hbefore => ?_⟩
  have hbetween : r.Before us calm' :=
    hbefore.earlier (by omega) (hcalm.imp_left fun hc => by omega)
  obtain ⟨q₁, hq₁, hswapped⟩ := hagain hq hbetween
  obtain ⟨q', hq', hswapped'⟩ := hagain' hswapped hbefore
  exact ⟨q', (bind_of_run hq₁).trans hq', hswapped'⟩

theorem of_eq {y : Parse α} (hy : SteadyAt us vs calm c y p) (hxy : x p = y p)
    (hother : ∀ q p' : Parser, p.Swapped us vs q → p'.Before us calm → p'.left + c ≤ p.left →
      x q = y q) :
    SteadyAt us vs calm c x p := by
  intro a p' h
  rw [hxy] at h
  obtain ⟨hsentinel, hread, hagain⟩ := hy h
  refine ⟨hsentinel, hread, fun q hq hbefore => ?_⟩
  rw [hother q p' hq hbefore hread]
  exact hagain hq hbefore

theorem weaken (hx : SteadyAt us vs calm d x p) (hc : c ≤ d) : SteadyAt us vs calm c x p := by
  intro a p' h
  obtain ⟨hsentinel, hread, hagain⟩ := hx h
  exact ⟨hsentinel, by omega, hagain⟩

theorem never (hx : ∀ a q, ¬ x p = .ok a q) : SteadyAt us vs calm c x p :=
  fun a q h => absurd h (hx a q)

theorem advance (hp : p.tokens.Ended) (hnext : p.peek.kind ≠ .endOfInput) :
    SteadyAt us vs calm 1 advance p := by
  intro t p' h
  cases h
  have hpos := Parser.left_pos hp hnext
  have hleft : p.advance.left + 1 ≤ p.left := by
    rw [p.left_advance]
    omega
  refine ⟨p.tokens.sentinel_advance, hleft, fun q hq hbefore => ?_⟩
  obtain ⟨hpeek, hswapped⟩ := hq.next (Nat.lt_of_le_of_lt hbefore.le hleft)
  exact ⟨q.advance, by rw [← Parser.peek, ← hpeek]; rfl, hswapped⟩

theorem peekKind_seq {m : TokenKind → Parse β} (hm : SteadyAt us vs calm c (m p.peek.kind) p)
    (hcalm : 0 < c ∨ (calm → m (lookahead vs) = m (lookahead us))) :
    SteadyAt us vs calm c (peekKind >>= m) p := by
  refine hm.of_eq rfl fun q p' hq hbefore hread => ?_
  rw [peekKind_bind]
  by_cases hlt : us.length < p.left
  · rw [(hq.next hlt).1]
  · -- Nothing was read, and the tokens that differ come next.
    rcases hbefore with hbefore | ⟨hbefore, hc⟩
    · omega
    · obtain ⟨hus, hvs⟩ := hq.stop (by omega)
      rw [hus, hvs, hcalm.resolve_left (by omega) hc]

theorem peek_seq {m : Token → Parse β} (hm : SteadyAt us vs calm c (m p.peek) p) (hc : 0 < c) :
    SteadyAt us vs calm c (peek >>= m) p := by
  refine hm.of_eq rfl fun q p' hq hbefore hread => ?_
  have hle := hbefore.le
  rw [peek_bind, (hq.next (by omega)).1]

theorem currentScope_seq {m : ScopeId → Parse β} (hm : SteadyAt us vs calm c (m p.scope) p) :
    SteadyAt us vs calm c (currentScope >>= m) p := by
  refine hm.of_eq rfl fun q p' hq hbefore hread => ?_
  rw [currentScope_bind, hq.same]
  rfl

/-- The bound of a loop differs with the tokens behind, but bounds that cover them all agree. -/
theorem tokensAhead_seq {m : Nat → Parse α} {g : α → α} (hp : p.tokens.Ended) (hg : ∀ a, g a = a)
    (hagree : ∀ k b b', k ≤ b → k ≤ b' → Agree id k d g (m b) (m b'))
    (hm : ∀ b, SteadyAt us vs calm c (m b) p) : SteadyAt us vs calm c (tokensAhead >>= m) p := by
  intro a p' h
  obtain ⟨hsentinel, hread, -⟩ := hm _ h
  refine ⟨hsentinel, hread, fun q hq hbefore => ?_⟩
  -- A bound for both states is put in between.
  have hleft := p.left_le_ahead
  have hleft' := q.left_le_ahead
  let b := max p.tokens.ahead.length q.tokens.ahead.length
  obtain ⟨p₁, hp₁, hrelaid⟩ := (hagree p.left _ b hleft (by omega)).run hg hp (Nat.le_refl _) h
  have hleft₁ : p₁.left = p'.left := hrelaid.left_eq
  have hbefore₁ : p₁.Before us calm := by
    rw [Parser.Before, hleft₁]
    exact hbefore
  obtain ⟨q₁, hq₁, hswapped⟩ := (hm _ hp₁).again hq hbefore₁
  obtain ⟨q', hq', hrelaid'⟩ :=
    (hagree q.left b _ (by omega) hleft').run hg hq.ended' (Nat.le_refl _) hq₁
  exact ⟨q', hq', hswapped.relaid hrelaid hrelaid'⟩

end SteadyAt

namespace Steady

theorem weaken (hx : Steady us vs calm d x) (hc : c ≤ d) : Steady us vs calm c x :=
  fun _ hp => (hx hp).weaken hc

theorem seq (hx : Steady us vs calm d x) (hm : ∀ a, Steady us vs calm (c - d) (m a)) :
    Steady us vs calm c (x >>= m) :=
  fun _ hp => (hx hp).seq hp hm (.inr id)

theorem seq_reading (hx : Steady us vs calm' d x) (hm : ∀ a, Steady us vs calm (c - d) (m a))
    (hc : d < c) : Steady us vs calm c (x >>= m) :=
  fun _ hp => (hx hp).seq hp hm (.inl hc)

theorem andThen (hx : Steady us vs calm d x) (hm : ∀ a, Steady us vs calm c (m a)) :
    Steady us vs calm c (x >>= m) := (hx.weaken (Nat.zero_le d)).seq hm

theorem pure (a : α) : Steady us vs calm 0 (pure a) := (Still.pure a).steady

theorem map (hx : Steady us vs calm c x) (wrap : α → β) : Steady us vs calm c (wrap <$> x) := by
  rw [map_eq_pure_bind]
  exact hx.seq fun a => (pure (wrap a)).weaken (by omega)

theorem never (hx : ∀ p a q, ¬ x p = .ok a q) : Steady us vs calm c x := fun p _ => .never (hx p)

theorem expect {kind : TokenKind} (hkind : kind ≠ .endOfInput) :
    Steady us vs calm 1 (expect kind) := by
  intro p hp
  by_cases hnext : p.peek.kind = kind
  · refine (SteadyAt.advance hp (hnext ▸ hkind)).of_eq ?_ fun q p' hq hbefore hread => ?_
    · rw [expect_run, if_pos hnext]
      rfl
    · rw [expect_run, (hq.next (Nat.lt_of_le_of_lt hbefore.le hread)).1, if_pos hnext,
        ← (hq.next (Nat.lt_of_le_of_lt hbefore.le hread)).1]
      rfl
  · exact .never fun t q h => hnext (expect_ok.mp h).1

theorem advance_seq {m : Token → Parse β} (hm : ∀ t, Steady us vs calm (c - 1) (m t)) :
    SteadyAhead us vs calm c (advance >>= m) :=
  fun _ hp hnext => (SteadyAt.advance hp hnext).seq hp hm (.inr id)

theorem tryConsume_seq {kind : TokenKind} (hkind : kind ≠ .endOfInput)
    {m : Option Token → Parse β} (hsome : ∀ t, Steady us vs calm (c - 1) (m (some t)))
    (hnone : Steady us vs calm c (m none)) (hcalm : 0 < c ∨ (calm → lookahead vs ≠ kind)) :
    Steady us vs calm c (tryConsume kind >>= m) := by
  intro p hp
  by_cases hnext : p.peek.kind = kind
  · -- A token is read here, whether or not one is counted.
    have hread : SteadyAt us vs calm (max c 1) (Parse.advance >>= fun t => m (some t)) p :=
      advance_seq (fun t => (hsome t).weaken (by omega)) hp (hnext ▸ hkind)
    refine (hread.of_eq ?_ fun q p' hq hbefore hread => ?_).weaken (Nat.le_max_left c 1)
    · rw [tryConsume_bind, if_pos hnext, advance_bind]
    · have hle := hbefore.le
      have hpeek := (hq.next (by omega)).1
      rw [tryConsume_bind, hpeek, if_pos hnext, advance_bind, hpeek]
  · refine (hnone hp).of_eq ?_ fun q p' hq hbefore hread => ?_
    · rw [tryConsume_bind, if_neg hnext]
    · have hother : q.peek.kind ≠ kind := by
        by_cases hlt : us.length < p.left
        · rw [(hq.next hlt).1]
          exact hnext
        · rcases hbefore with hbefore | ⟨hbefore, hc⟩
          · omega
          · rw [(hq.stop (by omega)).2]
            exact hcalm.resolve_left (by omega) hc
      rw [tryConsume_bind, if_neg hother]

theorem peekKind_seq {m : TokenKind → Parse β} (hm : ∀ kind, Steady us vs calm c (m kind))
    (hcalm : 0 < c ∨ (calm → m (lookahead vs) = m (lookahead us))) :
    Steady us vs calm c (peekKind >>= m) :=
  fun _ hp => (hm _ hp).peekKind_seq hcalm

theorem tryConsume_resting {kind : TokenKind} (hkind : kind.continues = true)
    {m : Option Token → Parse β}
    (hsome : ∀ t, Steady us vs (Resting us vs) (c - 1) (m (some t)))
    (hnone : Steady us vs (Resting us vs) c (m none)) :
    Steady us vs (Resting us vs) c (Parse.tryConsume kind >>= m) := by
  refine tryConsume_seq ?_ hsome hnone (.inr fun h => TokenKind.ne_of_rests h.right hkind)
  rintro rfl
  cases hkind

theorem peekKind_resting {m : TokenKind → Parse β} {y : Parse β}
    (hm : ∀ kind, Steady us vs (Resting us vs) c (m kind))
    (hy : ∀ kind, kind.continues = false → m kind = y) :
    Steady us vs (Resting us vs) c (peekKind >>= m) :=
  peekKind_seq hm (.inr fun h => (hy _ h.right).trans (hy _ h.left).symm)

theorem peekKind_unopened {m : TokenKind → Parse β} {y : Parse β} (hcalm : calm → Unopened us vs)
    (hm : ∀ kind, Steady us vs calm c (m kind))
    (hy : ∀ kind, kind.opensArguments = false → m kind = y) :
    Steady us vs calm c (peekKind >>= m) :=
  peekKind_seq hm (.inr fun h => (hy _ (hcalm h).right).trans (hy _ (hcalm h).left).symm)

theorem advance : Steady us vs False 0 advance := by
  intro p hp t p' h
  cases h
  have hleft := p.left_advance
  refine ⟨p.tokens.sentinel_advance, p.left_advance ▸ Nat.sub_le _ _, fun q hq hbefore => ?_⟩
  have hlt : us.length < p.left := by
    have hbefore := hbefore.resolve_right fun h => h.2
    change us.length < p.advance.left at hbefore
    omega
  obtain ⟨hpeek, hswapped⟩ := hq.next hlt
  exact ⟨q.advance, by rw [← Parser.peek, ← hpeek]; rfl, hswapped⟩

theorem tryConsume {kind : TokenKind} (hkind : kind ≠ .endOfInput) :
    Steady us vs (lookahead vs ≠ kind) 0 (tryConsume kind) := by
  have hseq : Steady us vs (lookahead vs ≠ kind) 0 (Parse.tryConsume kind >>= Pure.pure) :=
    tryConsume_seq hkind (fun t => pure (some t)) (pure none) (.inr id)
  rwa [bind_pure] at hseq

theorem defineWhen (condition : Prop) [Decidable condition] (x : Symbol) {m : Unit → Parse β}
    (hm : Steady us vs calm c (m ())) :
    Steady us vs calm c (if condition then Parse.define x >>= m else m ()) := by
  split
  · exact (Still.define x).steady.seq fun _ => hm
  · exact hm

theorem thenLeaveScope (hx : Steady us vs calm c x) : Steady us vs calm c (thenLeaveScope x) := by
  intro p hp a p' h
  obtain ⟨r, hr, rfl⟩ := thenLeaveScope_ok h
  obtain ⟨hsentinel, hread, hagain⟩ := hx hp hr
  refine ⟨hsentinel, hread, fun q hq hbefore => ?_⟩
  obtain ⟨q', hq', hswapped⟩ := hagain hq hbefore
  refine ⟨q'.leaveScope, ?_, ⟨hswapped.ended, hswapped.ended', hswapped.rest, ?_⟩⟩
  · rw [Parse.thenLeaveScope, hq']
  · rw [hswapped.same]
    rfl

theorem tokensAhead_seq {m : Nat → Parse α} {g : α → α} (hg : ∀ a, g a = a)
    (hagree : ∀ k b b', k ≤ b → k ≤ b' → Agree id k d g (m b) (m b'))
    (hm : ∀ b, Steady us vs calm c (m b)) : Steady us vs calm c (tokensAhead >>= m) :=
  fun _ hp => SteadyAt.tokensAhead_seq hp hg hagree fun b => hm b hp

end Steady

end Parse

end MiniMl
