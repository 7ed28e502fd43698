import Mathlib.Logic.Relation
import MiniMl.Proofs.Token.Locations
import MiniMl.Proofs.Token.Runs
import MiniMl.Proofs.Token.Scanner

/-! # Reading a source ends

The lexer goes round: it passes continuations, looks up a handler and lets it read. Each round fails
or takes a character for good and pushes at most one token, and no loop within it goes on more often
than characters are left. So the rounds end, too, and with the tokens of the source or its problem.
-/

namespace MiniMl

theorem Position.offset_behind (p : Position) (text : List Char) :
    (p.behind text).offset = p.offset + utf8Length text := by
  induction text generalizing p with
  | nil => rfl
  | cons c text ih =>
    have hafter : (p.after c).offset = p.offset + c.utf8Size := by
      unfold after
      split <;> rfl
    change ((p.after c).behind text).offset = _
    rw [ih, hafter, utf8Length, Nat.add_assoc]

namespace Reader

/-- The loops of the handlers end where the reader stands, each with what it has taken before, and go
on no more often than characters are left. -/
structure LoopsEnd (r : Reader) : Prop where
  run : ∀ accept taken, ∃ result, Turn.loop? (takeTurn accept) r.left (taken, r) = some result
  string : ∀ opening body, ∃ result,
    Turn.loop? (stringTurn opening) r.left (body, r) = some result
  comment : ∃ result, Turn.loop? commentTurn r.left r = some result

theorem loopsEnd (r : Reader) : r.LoopsEnd := by
  constructor
  · intro accept taken
    obtain ⟨result, hloop, -⟩ := Turn.loop?_ends (fun s _ => takeTurn_proper accept s)
      (s := (taken, r)) trivial (Nat.le_refl r.left)
    exact ⟨result, hloop⟩
  · intro opening body
    obtain ⟨result, hloop, -⟩ := Turn.loop?_ends (fun s _ => stringTurn_proper opening s)
      (s := (body, r)) trivial (Nat.le_refl r.left)
    exact ⟨result, hloop⟩
  · obtain ⟨result, hloop, -⟩ := Turn.loop?_ends (fun s _ => commentTurn_proper s)
      (s := r) trivial (Nat.le_refl r.left)
    exact ⟨result, hloop⟩

end Reader

namespace Scanner

open Lexer (scan)

variable {file : String} {limit : Nat} {s t : Scanner}

def checked (s : Scanner) : Except Diagnostic Scanner :=
  match s.tokens.getLast? with
  | some t => if t.kind = .invalid then .error ⟨.invalidCharacter t.value, t.location⟩ else .ok s
  | none => .ok s

def handle (s : Scanner) (file : String) (limit : Nat) : Option (Except Diagnostic Scanner) :=
  Pattern.select s.cursor.rest file limit s

/-- The scanner at the beginning of a round: asked for the end, and a lexeme begun. -/
def begun (s : Scanner) : Scanner := s.atEnd.2.beginToken

def turn (file : String) (limit : Nat) (s : Scanner) :
    Turn Scanner (Option (Except Diagnostic Scanner)) :=
  if s.atEnd.1 then .done (some (.ok s.atEnd.2))
  else
    match (s.begun.handle file limit).map (· >>= checked) with
    | some (.ok t) => .again t
    | outcome => .done outcome

def finish (file : String) (s : Scanner) : List Token :=
  if s.tokens.getLast?.any Token.isNewline then s.tokens
  else (s.beginToken.push file .newline "\n").tokens

/-- What reading a source comes to if no loop goes on more than `limit` times. -/
def tokenize? (limit : Nat) (source file : String) : Option (Except Diagnostic TokenSequence) :=
  (Turn.loop? (turn file limit) limit (.ofText source.toList)).join.map fun outcome =>
    outcome.map fun s => .ofList (s.finish file) file

def Untroubled (s : Scanner) : Prop := ∀ token ∈ s.tokens.getLast?, token.kind ≠ .invalid

/-- From `s` to `t` something is passed, and at most one token is pushed. -/
structure Advances (s t : Scanner) : Prop where
  left : t.left < s.left
  offset : s.cursor.position.offset < t.cursor.position.offset
  pushed : t.tokens = s.tokens ∨ ∃ token, t.tokens = s.tokens ++ [token]

/-- The outcome of a round that has begun at `s` is that of a step of the lexer. -/
inductive Rounds (s : Scanner) :
    Except Diagnostic Scanner → Except Diagnostic (Option Token × Cursor) → Prop where
  | read {t : Scanner} {token : Option Token} : s.Advances t →
      t.tokens = s.tokens ++ token.toList → t.Untroubled → Rounds s (.ok t) (.ok (token, t.cursor))
  | failed {d : Diagnostic} : Rounds s (.error d) (.error d)

theorem atEnd_iff (s : Scanner) : s.atEnd.1 = true ↔ s.cursor.settle.rest = [] := by
  change s.cursor.settle.rest.head?.isNone = true ↔ _
  rw [Option.isNone_iff_eq_none, List.head?_eq_none_iff]

theorem Untroubled.checked (h : s.Untroubled) : s.checked = .ok s := by
  unfold Scanner.checked
  split
  · next token htoken => rw [if_neg (h token htoken)]
  · rfl

theorem checked_invalid {ts : List Token} {value : String} {location : Location}
    (h : s.tokens = ts ++ [⟨.invalid, value, location⟩]) :
    s.checked = .error ⟨.invalidCharacter value, location⟩ := by
  unfold checked
  rw [h, List.getLast?_concat]
  rfl

theorem settle_offset (c : Cursor) : c.position.offset ≤ c.settle.position.offset := by
  obtain ⟨gap, -, hpass, -⟩ := c.settle_passes
  rw [hpass.position, Position.offset_behind]
  exact Nat.le_add_right _ _

theorem Advances.of_passes {raw : List Char} {token : Option Token}
    (hpass : s.cursor.Passes raw t.cursor) (hraw : raw ≠ [])
    (htokens : t.tokens = s.tokens ++ token.toList) : s.Advances t := by
  constructor
  · have hlength := hpass.length
    have hpos := List.length_pos_iff.mpr hraw
    change t.cursor.rest.length < s.cursor.rest.length
    omega
  · have hpos := utf8Length_pos hraw
    rw [hpass.position, Position.offset_behind]
    omega
  · cases token with
    | none => exact .inl (htokens.trans (List.append_nil _))
    | some token => exact .inr ⟨token, htokens⟩

theorem Advances.of_step {token : Option Token} (h : Lexer.Step file s.cursor token t.cursor)
    (htokens : t.tokens = s.tokens ++ token.toList) : s.Advances t := by
  obtain ⟨raw, hpass⟩ := h.passes
  refine .of_passes hpass ?_ htokens
  rintro rfl
  have hlength := hpass.length
  have hshorter := h.progress
  rw [List.length_nil] at hlength
  omega

theorem Untroubled.of_step {token : Option Token} {c d : Cursor} (hs : s.Untroubled)
    (h : Lexer.Step file c token d) (htokens : t.tokens = s.tokens ++ token.toList) :
    t.Untroubled := by
  unfold Untroubled
  rw [htokens]
  cases h with
  | blanks _ _ _ =>
    rw [Option.toList_none, List.append_nil]
    exact hs
  | comment _ _ =>
    rw [Option.toList_none, List.append_nil]
    exact hs
  | lexeme _ _ _ hlexeme _ _ _ =>
    rw [Option.toList_some, List.getLast?_concat]
    rintro _ ⟨⟩
    exact hlexeme.proper.1

/-- Where a lexeme is begun, its handler ends. If it does not fail, it has advanced, also over a
character that the check finds to be invalid. -/
theorem handle_ends (hs : s.Untroubled) (hstart : s.start = s.cursor.position)
    (hopen : ¬ Continued s.cursor.rest) (hmore : s.cursor.rest ≠ []) (hlimit : s.left ≤ limit) :
    ∃ outcome, s.handle file limit = some outcome ∧ (∀ t, outcome = .ok t → s.Advances t) ∧
      s.Rounds (outcome >>= checked) (Lexer.lexeme file s.cursor) := by
  obtain ⟨outcome, hhandle, hfollows⟩ := Pattern.select_follows file hstart hopen hmore hlimit
  refine ⟨outcome, hhandle, ?_⟩
  generalize hlexeme : Lexer.lexeme file s.cursor = result at hfollows
  cases hfollows with
  | failed =>
    refine ⟨fun t ht => ?_, .failed⟩
    cases ht
  | @invalid t c value location htokens hpass =>
    have hpushed : t.tokens =
        s.tokens ++ (some (⟨.invalid, value, location⟩ : Token)).toList := htokens
    constructor
    · rintro _ ⟨⟩
      exact .of_passes hpass (List.cons_ne_nil _ _) hpushed
    · change s.Rounds (checked _) _
      rw [checked_invalid htokens]
      exact .failed
  | @read t token next htokens hcursor =>
    subst hcursor
    have hstep := Lexer.lexeme_step hmore hlexeme
    have hadvances : s.Advances t := .of_step hstep htokens
    have huntroubled : t.Untroubled := hs.of_step hstep htokens
    constructor
    · rintro _ ⟨⟩
      exact hadvances
    · change s.Rounds (checked t) _
      rw [huntroubled.checked]
      exact .read hadvances htokens huntroubled

theorem begun_ends (file : String) (hs : s.Untroubled) (hlimit : s.begun.left ≤ limit)
    (hmore : s.atEnd.1 = false) :
    ∃ outcome, s.begun.handle file limit = some outcome ∧
      (∀ t, outcome = .ok t → s.begun.Advances t) ∧
      s.begun.Rounds (outcome >>= checked) (Lexer.lexeme file s.begun.cursor) := by
  obtain ⟨-, -, -, hopen⟩ := s.cursor.settle.settle_passes
  refine handle_ends hs rfl hopen ?_ hlimit
  change s.cursor.settle.settle.rest ≠ []
  rw [Cursor.settle_settle, ne_eq, ← atEnd_iff, hmore]
  exact Bool.false_ne_true

/-- The tokens that a scan from here on gives, behind those pushed, and the place where it stops. -/
def value (file : String) (s : Scanner) : Except Diagnostic (List Token × Position) :=
  (scan file s.left s.cursor).map fun r => (s.tokens ++ r.1, r.2)

theorem value_read {token : Option Token} (hless : t.left < s.left)
    (htokens : t.tokens = s.tokens ++ token.toList) (hmore : s.cursor.settle.rest ≠ [])
    (hlexeme : Lexer.lexeme file s.cursor.settle = .ok (token, t.cursor)) :
    t.value file = s.value file := by
  obtain ⟨n, hn⟩ := Lexer.bound_turn hmore (Nat.le_refl s.left)
  rw [hn] at hless
  have hbound : scan file t.left t.cursor = scan file n t.cursor :=
    Lexer.scan_bound (Nat.le_refl t.left) (Nat.le_of_lt_succ hless)
  rw [value, value, hn, Lexer.scan_read n hmore, hlexeme, hbound, htokens]
  change _ = ((scan file n t.cursor).map _).map _
  cases scan file n t.cursor with
  | ok r => simp [Except.map]
  | error d => rfl

theorem value_failed {d : Diagnostic} (hmore : s.cursor.settle.rest ≠ [])
    (hlexeme : Lexer.lexeme file s.cursor.settle = .error d) : s.value file = .error d := by
  obtain ⟨n, hn⟩ := Lexer.bound_turn hmore (Nat.le_refl s.left)
  rw [value, hn, Lexer.scan_read n hmore, hlexeme]
  rfl

theorem value_atEnd (h : s.cursor.settle.rest = []) :
    s.value file = .ok (s.tokens, s.cursor.settle.position) := by
  rw [value, Lexer.scan_settled h]
  simp [Except.map]

theorem turn_proper (file : String) (hs : s.Untroubled ∧ s.left ≤ limit) :
    Turn.Proper (fun s => s.Untroubled ∧ s.left ≤ limit) left (fun s => some (s.value file))
      (fun outcome => outcome.map (·.map fun s => (s.tokens, s.cursor.settle.position))) s
      (s.turn file limit) := by
  rw [turn]
  cases hend : s.atEnd.1 with
  | true =>
    apply Turn.Proper.done
    rw [value_atEnd ((atEnd_iff s).mp hend)]
    change some (Except.ok (s.tokens, s.cursor.settle.settle.position)) = _
    rw [Cursor.settle_settle]
  | false =>
    have hmore : s.cursor.settle.rest ≠ [] := by
      rw [ne_eq, ← atEnd_iff, hend]
      exact Bool.false_ne_true
    have hbegun : s.begun.cursor = s.cursor.settle := s.cursor.settle_settle
    have hless : s.begun.left ≤ s.left := by
      change s.begun.cursor.rest.length ≤ _
      rw [hbegun]
      exact s.cursor.settle_length
    obtain ⟨outcome, hhandle, -, hrounds⟩ := begun_ends file hs.1
      (Nat.le_trans hless hs.2) hend
    rw [hbegun] at hrounds
    rw [if_neg Bool.false_ne_true, hhandle, Option.map_some]
    generalize outcome >>= checked = checkedOutcome at hrounds
    generalize hlexeme : Lexer.lexeme file s.cursor.settle = result at hrounds
    cases hrounds with
    | failed =>
      apply Turn.Proper.done
      rw [value_failed hmore hlexeme]
      rfl
    | read hadvances htokens huntroubled =>
      have hshorter := Nat.lt_of_lt_of_le hadvances.left hless
      refine .again ⟨huntroubled, Nat.le_of_lt (Nat.lt_of_lt_of_le hshorter hs.2)⟩ hshorter ?_
      rw [value_read hshorter htokens hmore hlexeme]

theorem untroubled_ofText (text : List Char) : (ofText text).Untroubled :=
  fun token htoken => by cases htoken

theorem untroubled_of_turns {source : String}
    (h : Relation.ReflTransGen (fun s t => s.turn file limit = .again t) (.ofText source.toList) s)
    (hlimit : source.toList.length ≤ limit) : s.Untroubled ∧ s.left ≤ limit := by
  induction h with
  | refl => exact ⟨untroubled_ofText _, hlimit⟩
  | tail _ hturn ih =>
    have hproper := turn_proper file ih
    rw [hturn] at hproper
    cases hproper with
    | again hinv _ _ => exact hinv

theorem tokenize?_eq {source : String} (hlimit : source.toList.length ≤ limit) :
    tokenize? limit source file = some (tokenize source file) := by
  obtain ⟨result, hloop, hresult⟩ :=
    Turn.loop?_ends (fun s hs => turn_proper file hs)
      (s := ofText source.toList) ⟨untroubled_ofText _, hlimit⟩ hlimit
  rw [tokenize?, hloop]
  have hvalue : value file (ofText source.toList) =
      scan file source.toList.length (.ofText source.toList) := by
    change (scan file source.toList.length (.ofText source.toList)).map _ = _
    cases scan file source.toList.length (.ofText source.toList) with
    | ok r => rfl
    | error d => rfl
  rw [hvalue] at hresult
  cases result with
  | none => cases hresult
  | some outcome =>
    have hscan := Option.some.inj hresult
    rw [tokenize, Lexer.tokens, ← hscan]
    cases outcome with
    | error d => rfl
    | ok s =>
      change some (Except.ok (TokenSequence.ofList (s.finish file) file)) = _
      rw [finish]
      by_cases hline : s.tokens.getLast?.any Token.isNewline
      · simp [Except.map, bind, Except.bind, pure, Except.pure, hline]
      · simp [Except.map, bind, Except.bind, pure, Except.pure, hline]
        rfl

end Scanner

/-- Splitting a source into tokens always ends. The lexer as rounds of handlers, in which neither the
rounds nor a loop of a handler go on more often than there are characters, comes to what splitting the
source comes to, and so it does with any greater limit. Wherever a reader stands, a loop of a handler
goes on no more often than characters are left there. In every round, wherever the rounds before have
led, the handler fails or leads to a greater offset than that of the place where the round began, with
at most one token more; checked, its outcome is that of a step of the lexer. -/
theorem tokenizing_ends (source file : String) {limit : Nat} (h : source.toList.length ≤ limit) :
    Scanner.tokenize? limit source file = some (tokenize source file) ∧
    (∀ r : Reader, r.LoopsEnd) ∧
    ∀ s : Scanner,
      Relation.ReflTransGen (fun s t => s.turn file limit = .again t) (.ofText source.toList) s →
      s.atEnd.1 = false →
        s.cursor.position.offset ≤ s.begun.cursor.position.offset ∧
        ∃ outcome,
          s.begun.handle file s.begun.left = some outcome ∧
          (∀ t, outcome = .ok t → s.begun.Advances t) ∧
          s.begun.Rounds (outcome >>= Scanner.checked) (Lexer.lexeme file s.begun.cursor) := by
  refine ⟨Scanner.tokenize?_eq h, Reader.loopsEnd, fun s hs hmore => ⟨?_, ?_⟩⟩
  · exact Nat.le_trans (Scanner.settle_offset s.cursor) (Scanner.settle_offset s.cursor.settle)
  · exact Scanner.begun_ends file (Scanner.untroubled_of_turns hs h).1 (Nat.le_refl _) hmore

/-- The first round passes a comment whose last star stands in front of a continuation. -/
theorem tokenizing_ends_comment :
    let source := "(* (* **\\\n) a\\\n1 <= é"
    let s := (Scanner.ofText source.toList).begun
    source.toList.length ≤ 21 ∧
      Scanner.tokenize? 21 source "shell" = some (tokenize source "shell") ∧
      tokenize source "shell" = .error ⟨.invalidCharacter "é", ⟨"shell", 3, 6, 15⟩⟩ ∧
      (Scanner.ofText source.toList).atEnd.1 = false ∧
      ∃ outcome, s.handle "shell" s.left = some outcome ∧
        (∀ t, outcome = .ok t → s.Advances t) ∧
        s.Rounds (outcome >>= Scanner.checked)
          (.ok (none, ⟨" a\\\n1 <= é".toList, ⟨11, 2, 2, 10⟩⟩)) := by
  intro source s
  have hlength : source.toList.length ≤ 21 := by decide +kernel
  obtain ⟨htokens, -, hrounds⟩ := tokenizing_ends source "shell" hlength
  have hmore : (Scanner.ofText source.toList).atEnd.1 = false := by decide +kernel
  obtain ⟨-, outcome, hhandle, hadvances, hround⟩ := hrounds (.ofText source.toList) .refl hmore
  have hlexeme : Lexer.lexeme "shell" s.cursor =
      .ok (none, ⟨" a\\\n1 <= é".toList, ⟨11, 2, 2, 10⟩⟩) := by decide +kernel
  rw [hlexeme] at hround
  exact ⟨hlength, htokens, by decide +kernel, hmore, outcome, hhandle, hadvances, hround⟩

end MiniMl
