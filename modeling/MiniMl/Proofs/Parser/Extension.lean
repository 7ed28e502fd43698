import MiniMl.Proofs.Parser.Derivation
import MiniMl.Proofs.Parser.Errors
import MiniMl.Proofs.Parser.Steady
import MiniMl.Proofs.Typing.Soundness

/-! # Longer programs

More tokens behind an accepted program are read from the state that the program leaves. So its
statements stay what they are, its types only become known, and what is wrong is wrong with the
tokens that were added.
-/

namespace MiniMl

namespace Parse

variable {p p' q : Parser} {vs : List Token} {ss : List Stmt} {n : Nat}

/-! A turn of the loop over statements. -/

theorem stmts_stray (n : Nat) (h : p.peek.kind = .doubleSemicolon) :
    stmts (n + 1) p = stmts n p.advance := by
  have hmore : p.hasTokens = true := by
    simp only [Parser.hasTokens, TokenSequence.atEnd, test_eq, h]
    rfl
  rw [stmts, hasTokens_bind, hmore, if_pos rfl, tryConsume_bind, if_pos h]

theorem stmts_stmt (n : Nat) (hend : p.peek.kind ≠ .endOfInput)
    (h : p.peek.kind ≠ .doubleSemicolon) :
    stmts (n + 1) p = (do
      let first ← stmt
      let others ← stmts n
      pure (first ++ others)) p := by
  have hmore : p.hasTokens = true := by
    simp only [Parser.hasTokens, TokenSequence.atEnd, test_eq, hend]
    rfl
  rw [stmts, hasTokens_bind, hmore, if_pos rfl, tryConsume_bind, if_neg h]

theorem map_congr_run {α β : Type} {x y : Parse α} (f : α → β) (h : x p = y q) :
    (f <$> x) p = (f <$> y) q := by
  change EStateM.map f x p = EStateM.map f y q
  unfold EStateM.map
  rw [h]

theorem map_error {α β : Type} {x : Parse α} {f : α → β} {d : Diagnostic}
    (h : (f <$> x) p = .error d q) : x p = .error d q := by
  change EStateM.map f x p = _ at h
  unfold EStateM.map at h
  cases hx : x p with
  | ok a r =>
    rw [hx] at h
    cases h
  | error e r =>
    rw [hx] at h
    cases h
    rfl

/-- From the state `q'` on the loop reads `vs`, and `ss` was made before. -/
structure Resumes (vs : List Token) (ss : List Stmt) (p' : Parser) (n : Nat) (q : Parser) (m : Nat)
    (q' : Parser) : Prop where
  swapped : p'.Swapped [] vs q'
  rest : q'.tokens.rest = vs
  sentinel : q'.tokens.sentinel = q.tokens.sentinel
  run : stmts n q = ((ss ++ ·) <$> stmts m) q'

theorem Resumes.at_end (h : stmts n p = .ok ss p') (hp : p.Swapped [] vs q)
    (hrest : p.tokens.rest = []) (m : Nat) : Resumes vs ss p' m q m q := by
  have hend : p.peek.kind = .endOfInput := by
    rw [Parser.peek, TokenSequence.peek_kind hp.ended, hrest]
    rfl
  rw [Agree.stmts_at_end n p hend] at h
  cases h
  obtain ⟨front, hfront, hrest'⟩ := hp.rest
  rw [hrest, List.append_nil] at hfront
  subst hfront
  exact ⟨hp, hrest', rfl, congrFun (id_map (stmts m)).symm q⟩

/-- With other tokens behind, the loop makes the same statements and goes on with those. -/
theorem stmts_resumed (h : stmts n p = .ok ss p') (hp : p.Swapped [] vs q) (hleft : p.left ≤ n)
    (hend : ∀ t ∈ p.tokens.rest, t.kind ≠ .endOfInput) (more : Nat) :
    ∃ m q', Resumes vs ss p' (n + more) q m q' := by
  induction n generalizing p q ss with
  | zero =>
    have hrest := List.length_eq_zero_iff.mp (Nat.le_zero.mp hleft)
    exact ⟨_, q, .at_end h hp hrest _⟩
  | succ n ih =>
    by_cases hrest : p.tokens.rest = []
    · exact ⟨_, q, .at_end h hp hrest _⟩
    have hkind : p.peek.kind ≠ .endOfInput := fun hk => hrest (TokenSequence.rest_eq_nil hend hk)
    obtain ⟨hpeek, hadvance⟩ := hp.next (Parser.left_pos hp.ended hkind)
    rw [Nat.add_right_comm]
    by_cases hstray : p.peek.kind = .doubleSemicolon
    · rw [stmts_stray n hstray] at h
      obtain ⟨m, q', hresumes⟩ := ih h hadvance (by rw [p.left_advance]; omega) fun t ht => by
        rw [Parser.advance, TokenSequence.rest_advance] at ht
        exact hend t (List.mem_of_mem_tail ht)
      refine ⟨m, q', { hresumes with sentinel := ?_, run := ?_ }⟩
      · exact hresumes.sentinel.trans q.tokens.sentinel_advance
      · rw [stmts_stray _ (hpeek ▸ hstray)]
        exact hresumes.run
    · rw [stmts_stmt n hkind hstray] at h
      obtain ⟨first, r, hfirst, h⟩ := bind_ok.mp h
      obtain ⟨others, u, hothers, h⟩ := bind_ok.mp h
      obtain ⟨rfl, rfl⟩ := pure_ok.mp h
      have hcarries : Carries [] vs True 1 stmt p first r := Steady.stmt hp.ended hfirst
      have hread := hcarries.read
      obtain ⟨q₁, hq₁, hswapped⟩ := hcarries.again hp (by
        rcases Nat.eq_zero_or_pos r.left with hzero | hpos
        · exact .inr ⟨hzero.symm, trivial⟩
        · exact .inl hpos)
      have hcarries' : Carries [] vs True 1 stmt q first q₁ := Steady.stmt hp.ended' hq₁
      obtain ⟨⟨ts, -, hts⟩, -, -⟩ := stmt_derives hfirst hp.ended
      obtain ⟨m, q', hresumes⟩ := ih hothers hswapped (by omega) fun t ht => by
        refine hend t ?_
        rw [hts]
        exact List.mem_append_right ts ht
      refine ⟨m, q', { hresumes with sentinel := ?_, run := ?_ }⟩
      · exact hresumes.sentinel.trans hcarries'.sentinel
      · rw [stmts_stmt _ (hpeek ▸ hkind) (hpeek ▸ hstray), bind_of_run hq₁, ← map_eq_pure_bind,
          map_congr_run (first ++ ·) hresumes.run, Functor.map_map]
        simp only [List.append_assoc]

namespace Resumes

variable {q' r : Parser} {m : Nat} (h : Resumes vs ss p' n q m q')

include h

theorem refines (hp' : Consistent p'.store p'.arena) {bs : List Stmt}
    (hrun : stmts n q = .ok bs r) :
    (∃ more, bs = ss ++ more) ∧ p'.store.Evolves r.store := by
  rw [h.run, map_eq_pure_bind] at hrun
  obtain ⟨more, u, hmore, hrun⟩ := bind_ok.mp hrun
  obtain ⟨rfl, rfl⟩ := pure_ok.mp hrun
  have hsame := h.swapped.same
  have hq' : Consistent q'.store q'.arena := by
    rw [hsame]
    exact hp'
  have hevolves := (stmts_sound m hmore hq').evolves
  rw [hsame] at hevolves
  exact ⟨⟨more, rfl⟩, hevolves⟩

/-- There is something to read where an error is found, so the end of the input stands behind it. -/
theorem error_located {L : Location → Prop} {d : Diagnostic} (hvs : ∀ t ∈ vs, L t.location)
    (hsentinel : vs ≠ [] → L q.tokens.sentinel.location) (hrun : stmts n q = .error d r) :
    L d.location := by
  rw [h.run] at hrun
  have hfailed := map_error hrun
  have hne : vs ≠ [] := by
    intro hnil
    have hdone : q'.peek.kind = .endOfInput := by
      rw [Parser.peek, TokenSequence.peek_kind h.swapped.ended', h.rest, hnil]
      rfl
    rw [Agree.stmts_at_end m q' hdone] at hfailed
    cases hfailed
  have hwithin : q'.Within L := by
    constructor
    · rw [h.rest]
      exact hvs
    · rw [h.sentinel]
      exact hsentinel hne
  have hlocated := Locates.stmts m hwithin
  rw [hfailed] at hlocated
  cases hlocated with
  | error hfound => exact hfound.location

end Resumes

end Parse

theorem parse_resumes {p : List Token} {file : String} {a : Program}
    (hend : ∀ t ∈ p, t.kind ≠ .endOfInput) (ha : parse (.ofList p file) = .ok a) (q : List Token) :
    ∃ p' m q', Consistent p'.store p'.arena ∧ a.store = p'.store ∧
      Parse.Resumes (q.filter (!·.isNewline)) a.stmts p' (p ++ q).length
        (.ofTokens (.ofList (p ++ q) file)) m q' := by
  obtain ⟨p', hrun, -, -, hstore⟩ := parse_ok ha
  have hswapped : (Parser.ofTokens (.ofList p file)).Swapped [] (q.filter (!·.isNewline))
      (.ofTokens (.ofList (p ++ q) file)) := by
    refine ⟨rfl, rfl, ⟨p.filter (!·.isNewline), ?_, ?_⟩, rfl⟩
    · exact (List.append_nil _).symm
    · exact List.filter_append p q
  obtain ⟨m, q', hresumes⟩ := Parse.stmts_resumed hrun hswapped (Parser.left_le_ahead _)
    (fun t ht => hend t (List.mem_of_mem_filter ht)) q.length
  refine ⟨p', m, q', (Parse.stmts_sound _ hrun Consistent.initial).consistent, hstore, ?_⟩
  rw [List.length_append]
  exact hresumes

theorem TokenSequence.sentinel_append (p : List Token) {q : List Token} (file : String)
    (hq : q.filter (!·.isNewline) ≠ []) :
    ∃ t ∈ q, (ofList (p ++ q) file).sentinel.location = t.location := by
  obtain ⟨t, ht, hlocation⟩ := sentinel_visible p file hq
  exact ⟨t, List.mem_of_mem_filter ht, hlocation⟩

/-- Tokens behind an accepted program only refine it. If the longer program is accepted, its first
statements are those of the shorter one, known cells keep their kinds, and cells that share go on
sharing. If it is rejected, the error is at one of the tokens that were added. -/
theorem parse_extended {p q : List Token} {file : String} {a : Program}
    (hend : ∀ t ∈ p, t.kind ≠ .endOfInput) (ha : parse (.ofList p file) = .ok a) :
    (∀ b, parse (.ofList (p ++ q) file) = .ok b →
      (∃ more, b.stmts = a.stmts ++ more) ∧
      (∀ c k, a.store.kind? c = some k → b.store.kind? c = some k) ∧
      ∀ c d, a.store.shares c d = true → b.store.shares c d = true) ∧
    ∀ e, parse (.ofList (p ++ q) file) = .error e → ∃ t ∈ q, e.location = t.location := by
  obtain ⟨p', m, q', hconsistent, hstore, hresumes⟩ := parse_resumes hend ha q
  constructor
  · intro b hb
    obtain ⟨r, hrun, -, -, hstore'⟩ := parse_ok hb
    obtain ⟨hstmts, hlater⟩ := hresumes.refines hconsistent hrun
    rw [hstore, hstore']
    exact ⟨hstmts, fun c k => hlater.kind, fun c d => hlater.shares⟩
  · intro e he
    obtain ⟨r, hrun⟩ := parse_error he
    refine hresumes.error_located (L := fun l => ∃ t ∈ q, l = t.location) (fun t ht => ?_) ?_ hrun
    · exact ⟨t, List.mem_of_mem_filter ht, rfl⟩
    · exact TokenSequence.sentinel_append p file

/-- The first use of a function makes its parameter an int, and a second one is rejected for it. -/
theorem parse_extended_calls :
    ∃ p q q' a b e, Lexer.tokens "let f(x) = x ;;".toList "shell" = .ok p ∧
      Lexer.tokens "f(1) ;;".toList "shell" = .ok q ∧
      Lexer.tokens "f(1) ;; f(true) ;;".toList "shell" = .ok q' ∧
      parse (.ofList p "shell") = .ok a ∧ a.store.kind? 0 = none ∧
      parse (.ofList (p ++ q) "shell") = .ok b ∧ b.store.kind? 0 = some .int ∧
      (∃ more, b.stmts = a.stmts ++ more) ∧
      parse (.ofList (p ++ q') "shell") = .error e ∧ ∃ t ∈ q', e.location = t.location := by
  have hrun : ((Lexer.tokens "let f(x) = x ;;".toList "shell").toOption.bind fun p =>
      (Lexer.tokens "f(1) ;;".toList "shell").toOption.bind fun q =>
      (Lexer.tokens "f(1) ;; f(true) ;;".toList "shell").toOption.bind fun q' =>
      (parse (.ofList p "shell")).toOption.bind fun a =>
      (parse (.ofList (p ++ q) "shell")).toOption.map fun b =>
        (p.all (·.kind ≠ .endOfInput), a.store.kind? 0, b.store.kind? 0,
          (parse (.ofList (p ++ q') "shell")).toOption.isNone)) =
      some (true, none, some .int, true) := by decide +kernel
  obtain ⟨p, hp, hrun⟩ := Option.bind_eq_some_iff.mp hrun
  obtain ⟨q, hq, hrun⟩ := Option.bind_eq_some_iff.mp hrun
  obtain ⟨q', hq', hrun⟩ := Option.bind_eq_some_iff.mp hrun
  obtain ⟨a, ha, hrun⟩ := Option.bind_eq_some_iff.mp hrun
  obtain ⟨b, hb, hrun⟩ := Option.map_eq_some_iff.mp hrun
  obtain ⟨hend, hrun⟩ := Prod.mk.inj hrun
  obtain ⟨hunknown, hrun⟩ := Prod.mk.inj hrun
  obtain ⟨hknown, hfails⟩ := Prod.mk.inj hrun
  have hend : ∀ t ∈ p, t.kind ≠ .endOfInput := by simpa using hend
  have ha := ok_of_toOption ha
  have hb := ok_of_toOption hb
  cases he : parse (.ofList (p ++ q') "shell") with
  | ok program =>
    rw [he] at hfails
    cases hfails
  | error e =>
    exact ⟨p, q, q', a, b, e, ok_of_toOption hp, ok_of_toOption hq, ok_of_toOption hq', ha,
      hunknown, hb, hknown, ((parse_extended hend ha).1 b hb).1, he,
      (parse_extended hend ha).2 e he⟩

end MiniMl
