import Mathlib.Logic.Function.Iterate
import MiniMl.Proofs.Token.Continuations
import MiniMl.Proofs.Token.Loops

/-! # The lexer as a table of handlers

What comes next is looked up in a table of patterns, and the handler found there reads it through the
reader, which passes continuations, and pushes a token. Handlers are loops or take a fixed number of
characters. From every text they lead where one step of the lexer leads.
-/

namespace MiniMl

open Lexer

/-- A lexer at work: its reader, the place where it has begun to read a lexeme, and the tokens
pushed. -/
structure Scanner where
  reader : Reader
  start : Position
  tokens : List Token

namespace Scanner

def ofText (text : List Char) : Scanner := ⟨.ofText text, .start, []⟩

def cursor (s : Scanner) : Cursor := s.reader.cursor

def left (s : Scanner) : Nat := s.reader.left

def atEnd (s : Scanner) : Bool × Scanner := (s.reader.atEnd.1, { s with reader := s.reader.atEnd.2 })

def beginToken (s : Scanner) : Scanner :=
  { s with reader := s.reader.peek.2, start := s.reader.peek.2.cursor.position }

def push (file : String) (kind : TokenKind) (value : String) (s : Scanner) : Scanner :=
  { s with tokens := s.tokens ++ [⟨kind, value, s.start.location file⟩] }

end Scanner

/-- What reads a lexeme, blanks or a comment, each loop going on at most `limit` times. There is no
outcome if that is too few. -/
abbrev Handler := (file : String) → (limit : Nat) → Scanner → Option (Except Diagnostic Scanner)

namespace Handler

def run? (accept : Char → Bool) (limit : Nat) (s : Scanner) : Option (List Char × Scanner) :=
  (Turn.loop? (Reader.takeTurn accept) limit ([], s.reader)).map
    fun read => (read.1, { s with reader := read.2 })

def blanks : Handler := fun _ limit s => (run? isBlank limit s).map fun read => .ok read.2

def lexemeRun (accept : Char → Bool) (kind : List Char → TokenKind) : Handler := fun file limit s =>
  (run? accept limit s).map fun read =>
    .ok (read.2.push file (kind read.1) (String.ofList read.1))

def word : Handler := lexemeRun isWordPart fun run => wordKind (String.ofList run)

def number : Handler := lexemeRun isNumberPart numberKind

def string : Handler := fun file limit s =>
  (Turn.loop? (Reader.stringTurn s.cursor.position) limit ([], s.reader.next.2)).map fun outcome =>
    match outcome with
    | .ok (body, r) =>
      .ok ({ s with reader := r }.push file .string ("\"" ++ String.ofList body ++ "\""))
    | .error (problem, p) => .error ⟨problem, p.location file⟩

def comment : Handler := fun file limit s =>
  (Turn.loop? Reader.commentTurn limit s.reader.next.2.next.2).map fun outcome =>
    match outcome with
    | some r => .ok { s with reader := r }
    | none => .error ⟨.unterminatedComment, s.cursor.position.location file⟩

/-- Takes as many characters as the value has, whatever they are. -/
def fixed (kind : TokenKind) (value : String) : Handler := fun file _ s =>
  some (.ok ({ s with reader := (fun r : Reader => r.next.2)^[value.length] s.reader }.push
    file kind value))

def invalid : Handler := fun file _ s =>
  some (.ok ({ s with reader := s.reader.next.2 }.push file .invalid
    ((s.reader.next.1.map Char.toString).getD "")))

end Handler

structure Pattern where
  fits : List Char → Bool
  handler : Handler

namespace Pattern

def startsIn (accept : Char → Bool) (text : List Char) : Bool := text.head?.any accept

def startsWith (lexeme : String) (text : List Char) : Bool := lexeme.toList.isPrefixOf text

/-- The kinds of punctuation in the order in which they are tried, the longer ones first. -/
def operators : List TokenKind :=
  [.unit, .openParen, .closeParen, .doubleSemicolon, .semicolon, .comma, .equals, .notEquals,
    .assignment, .lessEquals, .less, .greaterEquals, .greater, .logicalAnd, .logicalOr, .plus, .dash,
    .star, .slash]

/-- The patterns in the order in which they are tried. -/
def table : List Pattern :=
  [⟨startsWith "\n", .fixed .newline "\n"⟩, ⟨startsIn isBlank, .blanks⟩, ⟨startsIn isWordStart, .word⟩,
    ⟨startsIn Char.isDigit, .number⟩, ⟨startsWith "\"", .string⟩, ⟨startsWith "(*", .comment⟩] ++
  operators.map (fun kind => ⟨startsWith kind.text, .fixed kind kind.text⟩) ++
  [⟨startsIn fun _ => true, .invalid⟩]

/-- The handler of the first pattern that fits. -/
def select (text : List Char) : Handler :=
  ((table.find? (·.fits text)).map (·.handler)).getD .invalid

theorem not_isPrefixOf {lexeme text : List Char} (h : ∀ tail, text = lexeme ++ tail → False) :
    lexeme.isPrefixOf text = false := by
  rw [Bool.eq_false_iff, ne_eq, List.isPrefixOf_iff_prefix]
  exact Lexer.not_prefix h

theorem not_isPrefixOf_one {c : Char} {text : List Char} (h : ∀ tail, text = c :: tail → False) :
    [c].isPrefixOf text = false :=
  not_isPrefixOf h

theorem not_isPrefixOf_two {c d : Char} {text : List Char}
    (h : ∀ tail, text = c :: d :: tail → False) : [c, d].isPrefixOf text = false :=
  not_isPrefixOf h

theorem find?_operators (text : List Char) :
    operators.find? (fun kind => startsWith kind.text text) = punctuation? text := by
  fun_cases punctuation? text
  all_goals simp only [operators, startsWith, TokenKind.text, String.reduceToList, List.find?_cons]
  case case20 =>
    simp (disch := assumption) only [not_isPrefixOf_one, not_isPrefixOf_two, List.find?_nil]
  all_goals first | rfl | simp (disch := assumption) [List.isPrefixOf, not_isPrefixOf_one]

theorem select_cons (c : Char) (rest : List Char) :
    select (c :: rest) =
      if c = '\n' then .fixed .newline "\n"
      else if isBlank c then .blanks
      else if isWordStart c then .word
      else if c.isDigit then .number
      else if c = '"' then .string
      else if startsWith "(*" (c :: rest) then .comment
      else
        match punctuation? (c :: rest) with
        | some kind => .fixed kind kind.text
        | none => .invalid := by
  have hone : ∀ d, [d].isPrefixOf (c :: rest) = decide (c = d) := by
    intro d
    by_cases hd : c = d
    · simp [hd, List.isPrefixOf]
    · simp [hd, List.isPrefixOf, Ne.symm hd]
  have hnewline : startsWith "\n" (c :: rest) = decide (c = '\n') := hone '\n'
  have hquote : startsWith "\"" (c :: rest) = decide (c = '"') := hone '"'
  have hfixed : (operators.map fun kind => Pattern.mk (startsWith kind.text)
        (.fixed kind kind.text)).find? (·.fits (c :: rest)) =
      (punctuation? (c :: rest)).map fun kind => ⟨startsWith kind.text, .fixed kind kind.text⟩ := by
    rw [List.find?_map, ← find?_operators]
    rfl
  unfold select table
  simp only [List.cons_append, List.nil_append, List.find?_cons, startsIn, List.head?_cons,
    Option.any_some, hnewline, hquote, List.find?_append, hfixed]
  by_cases hn : c = '\n'
  · rw [if_pos hn, decide_eq_true hn]
    rfl
  rw [if_neg hn, decide_eq_false hn]
  cases isBlank c with
  | true => rfl
  | false =>
  cases isWordStart c with
  | true => rfl
  | false =>
  cases c.isDigit with
  | true => rfl
  | false =>
  by_cases hq : c = '"'
  · rw [if_neg Bool.false_ne_true, if_neg Bool.false_ne_true, if_neg Bool.false_ne_true, if_pos hq,
      decide_eq_true hq]
    rfl
  rw [if_neg Bool.false_ne_true, if_neg Bool.false_ne_true, if_neg Bool.false_ne_true, if_neg hq,
    decide_eq_false hq]
  cases startsWith "(*" (c :: rest) with
  | true => rfl
  | false =>
  cases punctuation? (c :: rest) with
  | none => rfl
  | some kind => rfl

end Pattern

theorem Reader.iterate_next {text : List Char} (h : '\\' ∉ text) (after : List Char) (p : Position)
    (previous : Option Cursor) :
    ((fun r : Reader => r.next.2)^[text.length] ⟨⟨text ++ after, p⟩, previous⟩).cursor =
      ⟨after, p.behind text⟩ := by
  induction text generalizing p previous with
  | nil => rfl
  | cons c text ih =>
    obtain ⟨hc, htext⟩ := not_or.mp (List.mem_cons.not.mp h)
    have hopen : ¬ Continued (c :: (text ++ after)) := by
      intro hcont
      exact hc (continued_cons.mp hcont).1.symm
    have hnext : (Reader.mk ⟨c :: text ++ after, p⟩ previous).next.2 =
        ⟨⟨text ++ after, p.after c⟩, some ⟨c :: text ++ after, p⟩⟩ := by
      rw [Reader.next, Cursor.next?, Cursor.settle, List.cons_append,
        Cursor.skipContinuations_open hopen]
    rw [List.length_cons, Function.iterate_succ_apply, hnext, ih htext]
    rfl

namespace Scanner

/-- An outcome of a handler that was called with the scanner `s`, and what a step of the lexer gives.
A character that the step fails at as invalid is passed and pushed as a token. -/
inductive Follows (s : Scanner) :
    Except Diagnostic Scanner → Except Diagnostic (Option Token × Cursor) → Prop where
  | read {t : Scanner} {token : Option Token} {next : Cursor} :
      t.tokens = s.tokens ++ token.toList → t.cursor = next → Follows s (.ok t) (.ok (token, next))
  | failed {d : Diagnostic} : Follows s (.error d) (.error d)
  | invalid {t : Scanner} {c : Char} {value : String} {location : Location} :
      t.tokens = s.tokens ++ [⟨.invalid, value, location⟩] → s.cursor.Passes [c] t.cursor →
      Follows s (.ok t) (.error ⟨.invalidCharacter value, location⟩)

end Scanner

namespace Handler

variable {file : String} {limit : Nat} {c : Char} {rest : List Char} {p : Position}
  {previous : Option Cursor} {ts : List Token}

theorem run?_reads (accept : Char → Bool) {s : Scanner} (hlimit : s.left ≤ limit) :
    ∃ r, run? accept limit s =
        some ((takeRun accept s.cursor.rest s.cursor.position).1, { s with reader := r }) ∧
      r.cursor = (takeRun accept s.cursor.rest s.cursor.position).2 := by
  obtain ⟨⟨run, r⟩, hloop, hresult⟩ :=
    Turn.loop?_ends (fun s _ => Reader.takeTurn_proper accept s) (s := ([], s.reader)) trivial hlimit
  obtain ⟨hrun, hcursor⟩ := Prod.mk.inj hresult
  obtain rfl : run = (takeRun accept s.cursor.rest s.cursor.position).1 := hrun
  refine ⟨r, ?_, hcursor⟩
  rw [run?, hloop]
  rfl

theorem punctuation_unescaped {kind : TokenKind} (h : kind ∈ punctuation) :
    '\\' ∉ kind.text.toList := by
  have hall : ∀ kind ∈ punctuation, '\\' ∉ kind.text.toList := by decide +kernel
  exact hall kind h

theorem fixed_follows (kind : TokenKind) {value : String} {text after : List Char}
    (htext : text = value.toList ++ after) (hplain : '\\' ∉ value.toList) :
    ∃ outcome, fixed kind value file limit ⟨⟨⟨text, p⟩, previous⟩, p, ts⟩ = some outcome ∧
      Scanner.Follows ⟨⟨⟨text, p⟩, previous⟩, p, ts⟩ outcome
        (.ok (some ⟨kind, value, p.location file⟩, pass value.length ⟨text, p⟩)) := by
  subst htext
  have hcursor := Reader.iterate_next hplain after p previous
  have hpass : pass value.length ⟨value.toList ++ after, p⟩ = ⟨after, p.behind value.toList⟩ := by
    rw [Lexer.pass, ← String.length_toList, List.drop_left, List.take_left]
    rfl
  rw [String.length_toList] at hcursor
  exact ⟨_, rfl, .read rfl (hcursor.trans hpass.symm)⟩

theorem string_follows (hlimit : rest.length < limit) :
    ∃ outcome, string file limit ⟨⟨⟨'"' :: rest, p⟩, previous⟩, p, ts⟩ = some outcome ∧
      Scanner.Follows ⟨⟨⟨'"' :: rest, p⟩, previous⟩, p, ts⟩ outcome
        (lexeme file ⟨'"' :: rest, p⟩) := by
  obtain ⟨result, hloop, hresult⟩ :=
    Turn.loop?_ends (fun s _ => Reader.stringTurn_proper p s)
      (s := ([], ⟨⟨rest, p.after '"'⟩, some ⟨'"' :: rest, p⟩⟩)) trivial (Nat.le_of_lt hlimit)
  have hrun : string file limit ⟨⟨⟨'"' :: rest, p⟩, previous⟩, p, ts⟩ = _ :=
    congrArg (Option.map _) hloop
  rw [hrun, lexeme_string]
  refine ⟨_, rfl, ?_⟩
  dsimp only [List.length_nil, Nat.sub_zero] at hresult
  cases hbody : stringBody p maxStringLength (p.after '"') rest (p.after '"') with
  | ok read =>
    obtain ⟨body, stop⟩ := read
    rw [hbody] at hresult
    cases result with
    | error e => cases hresult
    | ok found =>
      obtain ⟨found, r⟩ := found
      cases hresult
      exact .read rfl rfl
  | error e =>
    rw [hbody] at hresult
    cases result with
    | error e =>
      cases hresult
      exact .failed
    | ok found => cases hresult

theorem comment_follows (hlimit : rest.length < limit) :
    ∃ outcome, comment file limit ⟨⟨⟨'(' :: '*' :: rest, p⟩, previous⟩, p, ts⟩ = some outcome ∧
      Scanner.Follows ⟨⟨⟨'(' :: '*' :: rest, p⟩, previous⟩, p, ts⟩ outcome
        (lexeme file ⟨'(' :: '*' :: rest, p⟩) := by
  obtain ⟨result, hloop, hresult⟩ :=
    Turn.loop?_ends (fun r _ => Reader.commentTurn_proper r)
      (s := ⟨⟨rest, (p.after '(').after '*'⟩, some ⟨'*' :: rest, p.after '('⟩⟩) trivial
      (Nat.le_of_lt hlimit)
  have hrun : comment file limit ⟨⟨⟨'(' :: '*' :: rest, p⟩, previous⟩, p, ts⟩ = _ :=
    congrArg (Option.map _) hloop
  rw [hrun, lexeme_comment]
  refine ⟨_, rfl, ?_⟩
  dsimp only at hresult
  rw [← hresult]
  cases result with
  | none => exact .failed
  | some r => exact .read (List.append_nil ts).symm rfl

theorem blanks_follow {s : Scanner} (hlimit : s.left ≤ limit) :
    ∃ outcome, blanks file limit s = some outcome ∧
      s.Follows outcome (.ok (none, (takeRun isBlank s.cursor.rest s.cursor.position).2)) := by
  obtain ⟨r, hrun, hcursor⟩ := run?_reads isBlank hlimit
  rw [blanks, hrun]
  exact ⟨_, rfl, .read (List.append_nil _).symm hcursor⟩

theorem lexemeRun_follows (accept : Char → Bool) (kind : List Char → TokenKind) {s : Scanner}
    (hstart : s.start = s.cursor.position) (hlimit : s.left ≤ limit) :
    ∃ outcome, lexemeRun accept kind file limit s = some outcome ∧ s.Follows outcome
      (let (run, stop) := takeRun accept s.cursor.rest s.cursor.position
      .ok (some ⟨kind run, String.ofList run, s.cursor.position.location file⟩, stop)) := by
  obtain ⟨r, hrun, hcursor⟩ := run?_reads accept hlimit
  rw [lexemeRun, hrun]
  refine ⟨_, rfl, .read ?_ hcursor⟩
  rw [← hstart]
  rfl

theorem invalid_follows (hopen : ¬ Continued (c :: rest)) :
    ∃ outcome, invalid file limit ⟨⟨⟨c :: rest, p⟩, previous⟩, p, ts⟩ = some outcome ∧
      Scanner.Follows ⟨⟨⟨c :: rest, p⟩, previous⟩, p, ts⟩ outcome
        (.error ⟨.invalidCharacter c.toString, p.location file⟩) := by
  have hnext : (Reader.mk ⟨c :: rest, p⟩ previous).next =
      (some c, ⟨⟨rest, p.after c⟩, some ⟨c :: rest, p⟩⟩) := by
    rw [Reader.next, Cursor.next?, Cursor.settle, Cursor.skipContinuations_open hopen]
  rw [invalid, hnext]
  exact ⟨_, rfl, .invalid rfl ⟨rfl, rfl⟩⟩

end Handler

theorem Pattern.select_follows {s : Scanner} (file : String) {limit : Nat}
    (hstart : s.start = s.cursor.position) (hopen : ¬ Continued s.cursor.rest)
    (hmore : s.cursor.rest ≠ []) (hlimit : s.left ≤ limit) :
    ∃ outcome, select s.cursor.rest file limit s = some outcome ∧
      s.Follows outcome (lexeme file s.cursor) := by
  obtain ⟨⟨⟨text, p⟩, previous⟩, start, ts⟩ := s
  obtain rfl : start = p := hstart
  cases text with
  | nil => exact absurd rfl hmore
  | cons c rest =>
  change ∃ outcome, select (c :: rest) file limit _ = some outcome ∧
    Scanner.Follows _ outcome (lexeme file ⟨c :: rest, start⟩)
  have hrest : rest.length < limit := hlimit
  by_cases hnewline : c = '\n'
  · subst hnewline
    rw [select_cons, if_pos rfl]
    exact Handler.fixed_follows .newline rfl (by decide)
  by_cases hquote : c = '"'
  · subst hquote
    exact Handler.string_follows hrest
  by_cases hcomment : ∃ more, c = '(' ∧ rest = '*' :: more
  · obtain ⟨more, rfl, rfl⟩ := hcomment
    exact Handler.comment_follows (Nat.lt_of_succ_lt hrest)
  have hopened : startsWith "(*" (c :: rest) = false := by
    apply not_isPrefixOf_two
    intro more htext
    obtain ⟨rfl, rfl⟩ := List.cons.inj htext
    exact hcomment ⟨more, rfl, rfl⟩
  rw [lexeme_told hnewline hquote fun more hc hmore => hcomment ⟨more, hc, hmore⟩, select_cons,
    if_neg hnewline]
  by_cases hblank : isBlank c
  · rw [if_pos hblank, if_pos hblank]
    exact Handler.blanks_follow hlimit
  rw [if_neg hblank, if_neg hblank]
  by_cases hword : isWordStart c
  · rw [if_pos hword, if_pos hword]
    exact Handler.lexemeRun_follows isWordPart (fun run => wordKind (String.ofList run)) rfl hlimit
  rw [if_neg hword, if_neg hword]
  by_cases hdigit : c.isDigit
  · rw [if_pos hdigit, if_pos hdigit]
    exact Handler.lexemeRun_follows isNumberPart numberKind rfl hlimit
  rw [if_neg hdigit, if_neg hdigit, if_neg hquote, hopened, if_neg Bool.false_ne_true]
  cases hfixed : punctuation? (c :: rest) with
  | none => exact Handler.invalid_follows hopen
  | some kind =>
    obtain ⟨hmem, after, hafter⟩ := punctuation?_text hfixed
    exact Handler.fixed_follows kind hafter.symm (Handler.punctuation_unescaped hmem)

end MiniMl
