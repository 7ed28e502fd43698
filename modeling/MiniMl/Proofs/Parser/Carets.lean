import Mathlib.Data.List.TakeWhile
import MiniMl.Proofs.Parser.Errors
import MiniMl.Proofs.Token.Locations

/-! # What a diagnostic shows

The parser points at tokens, and a token stands at the first character of its lexeme. So the line
that a diagnostic of the parser shows is the one the token begins in, with the caret under its first
character.
-/

namespace MiniMl

open Diagnostic (isIndentation)

/-- The line without the spaces and tabs that it begins with and the carriage returns that it ends
in. -/
structure Stripped (line indentation shown : List Char) : Prop where
  cut : ∃ returns, line = indentation ++ (shown ++ returns) ∧ ∀ x ∈ returns, x = '\r'
  indentation : ∀ x ∈ indentation, x = ' ' ∨ x = '\t'
  first : ∀ x ∈ shown.head?, x ≠ ' ' ∧ x ≠ '\t'
  last : ∀ x ∈ shown.getLast?, x ≠ '\r'

/-! Lines of a text. -/

section Lines

variable {earlier front line later : List Char} {c : Char}

theorem dropWhile_newline (text : List Char) :
    text.dropWhile (· != '\n') = [] ∨ (text.dropWhile (· != '\n')).head? = some '\n' := by
  cases hdrop : text.dropWhile (· != '\n') with
  | nil => exact .inl rfl
  | cons c rest =>
    right
    have hc := List.head?_dropWhile_not (· != '\n') text
    rw [hdrop] at hc
    simpa using hc

theorem earlierLines_ends (text : List Char) :
    earlierLines text = [] ∨ (earlierLines text).getLast? = some '\n' := by
  rw [earlierLines, List.reverse_eq_nil_iff, List.getLast?_reverse]
  exact dropWhile_newline text.reverse

theorem firstLine_append (hline : '\n' ∉ line) (hlater : later = [] ∨ later.head? = some '\n') :
    firstLine (line ++ later) = line := by
  have hwhole : ∀ x ∈ line, (x != '\n') = true := by
    intro x hx
    rw [bne_iff_ne]
    rintro rfl
    exact hline hx
  have hstop : later.takeWhile (· != '\n') = [] := by
    rcases hlater with rfl | hhead
    · rfl
    · obtain ⟨rest, rfl⟩ := List.head?_eq_some_iff.mp hhead
      rfl
  rw [firstLine, List.takeWhile_append_of_pos hwhole, hstop, List.append_nil]

theorem lastLine_append (hearlier : earlier = [] ∨ earlier.getLast? = some '\n')
    (hfront : '\n' ∉ front) : lastLine (earlier ++ front) = front := by
  have hreversed : earlier.reverse = [] ∨ earlier.reverse.head? = some '\n' := by
    rwa [List.reverse_eq_nil_iff, List.head?_reverse]
  have hfirst : firstLine (front.reverse ++ earlier.reverse) = front.reverse :=
    firstLine_append (fun hmem => hfront (List.mem_reverse.mp hmem)) hreversed
  rw [lastLine, List.reverse_append]
  exact (congrArg List.reverse hfirst).trans (List.reverse_reverse front)

theorem earlierLines_append (hearlier : earlier = [] ∨ earlier.getLast? = some '\n')
    (hfront : '\n' ∉ front) : earlierLines (earlier ++ front) = earlier := by
  have hsplit := earlierLines_append_lastLine (earlier ++ front)
  rw [lastLine_append hearlier hfront] at hsplit
  exact List.append_cancel_right hsplit

theorem whiles_append {accept : Char → Bool} (hc : accept c = false) (front rest : List Char) :
    (front ++ c :: rest).takeWhile accept = front.takeWhile accept ∧
      (front ++ c :: rest).dropWhile accept = front.dropWhile accept ++ c :: rest := by
  induction front with
  | nil => simp [hc]
  | cons d front ih =>
    by_cases hd : accept d
    · simp [hd, ih]
    · simp [hd]

theorem drop_takeWhile (accept : Char → Bool) (text : List Char) :
    text.drop (text.takeWhile accept).length = text.dropWhile accept :=
  calc
    text.drop (text.takeWhile accept).length
      = (text.takeWhile accept ++ text.dropWhile accept).drop (text.takeWhile accept).length := by
        rw [List.takeWhile_append_dropWhile]
    _ = text.dropWhile accept := List.drop_left

theorem trimReturns_cut (text : List Char) :
    (∃ returns, text = trimReturns text ++ returns ∧ ∀ x ∈ returns, x = '\r') ∧
      ∀ x ∈ (trimReturns text).getLast?, x ≠ '\r' := by
  refine ⟨⟨(text.reverse.takeWhile (· == '\r')).reverse, ?_, fun x hx => ?_⟩, fun x hx => ?_⟩
  · rw [trimReturns, ← List.reverse_append, List.takeWhile_append_dropWhile, List.reverse_reverse]
  · simpa using List.mem_takeWhile_imp (List.mem_reverse.mp hx)
  · have hlast := List.head?_dropWhile_not (· == '\r') text.reverse
    rw [trimReturns, List.getLast?_reverse] at hx
    rw [hx] at hlast
    simpa using hlast

theorem trimReturns_append (hc : c ≠ '\r') (front rest : List Char) :
    trimReturns (front ++ c :: rest) = front ++ c :: trimReturns rest := by
  have hreverse : (front ++ c :: rest).reverse = rest.reverse ++ c :: front.reverse := by simp
  rw [trimReturns, hreverse, (whiles_append (by simpa using hc) _ _).2]
  simp [trimReturns]

end Lines

theorem Stretch.Proper.visible {x : Stretch} {after : List Char} {t : Token} (h : x.Proper after)
    (ht : t ∈ x.token) (hkind : t.kind ≠ .newline) :
    ∃ c rest, x.raw = c :: rest ∧ t.value.toList.head? = some c ∧ ¬ Blank c ∧ c ≠ '\n' := by
  obtain ⟨c, hraw, hvalue⟩ := h.first ht
  obtain ⟨rest, hrest⟩ := List.head?_eq_some_iff.mp hraw
  refine ⟨c, rest, hrest, hvalue, ?_⟩
  cases h with
  | blank _ => cases ht
  | continuation => cases ht
  | comment _ => cases ht
  | lexeme htrim hlexeme htext _ =>
    cases ht
    obtain ⟨d, ds, hd, hblank, -, hnewline⟩ := hlexeme.reads.start
    rw [htext, String.toList_ofList, hd] at hvalue
    cases hvalue
    refine ⟨?_, hnewline hkind⟩
    rw [← Lexer.isBlank_iff, hblank]
    exact Bool.false_ne_true

structure Token.InLine (t : Token) (source : String) (front line : List Char) : Prop where
  cut : ∃ earlier later, source.toList = earlier ++ (line ++ later) ∧
    (earlier = [] ∨ earlier.getLast? = some '\n') ∧ (later = [] ∨ later.head? = some '\n') ∧
    t.location.Behind source (earlier ++ front)
  whole : '\n' ∉ line
  first : ∃ c rest, line = front ++ c :: rest ∧ t.value.toList.head? = some c ∧ ¬ Blank c

namespace Token.InLine

variable {t : Token} {source : String} {front line : List Char} (h : t.InLine source front line)

include h

theorem newline_not_mem : '\n' ∉ front := by
  obtain ⟨c, rest, hline, -⟩ := h.first
  intro hmem
  exact h.whole (hline ▸ List.mem_append_left _ hmem)

theorem lineText : t.location.lineText source = trimReturns line := by
  obtain ⟨earlier, later, hsource, hearlier, hlater, hbehind⟩ := h.cut
  have honwards : t.location.lineOnwards source = line ++ later := by
    rw [Location.lineOnwards, hbehind.lineBegin, earlierLines_append hearlier h.newline_not_mem,
      hsource, dropBytes?_append]
    rfl
  rw [Location.lineText, honwards, firstLine_append h.whole hlater]

theorem indent : t.location.indent = front.length := by
  obtain ⟨earlier, later, -, hearlier, -, hbehind⟩ := h.cut
  rw [Location.indent, hbehind.column, lastLine_append hearlier h.newline_not_mem,
    Nat.add_sub_cancel_left]

end Token.InLine

theorem TokenSequence.Stand.inLine {s : TokenSequence} {source : String} {row : List Stretch}
    {stop : Location} (h : s.Stand source row stop) {t : Token} (ht : t ∈ s.toList)
    (hkind : t.kind ≠ .newline) : ∃ front line, t.InLine source front line := by
  rw [h.tokens] at ht
  have hmem : t ∈ Stretch.tokens row := by
    rcases endLine_mem ht with hmem | rfl
    · exact hmem
    · exact absurd rfl hkind
  obtain ⟨x, hx, htoken⟩ := List.mem_filterMap.mp hmem
  obtain ⟨before, after, hrow⟩ := List.append_of_mem hx
  have hbehind := h.behind before x after hrow t htoken
  obtain ⟨c, rest, hraw, hvalue, hblank, hnewline⟩ :=
    (h.proper before x after hrow).visible htoken hkind
  let text := Stretch.text before
  let tail := rest ++ Stretch.text after
  have htext : source.toList = text ++ c :: tail := by
    rw [← h.text, hrow, Stretch.text_append, Stretch.text_cons, hraw]
    rfl
  have hcut : source.toList =
      earlierLines text ++ (lastLine text ++ c :: tail.takeWhile (· != '\n') ++
        tail.dropWhile (· != '\n')) := by
    rw [List.append_assoc, List.cons_append, List.takeWhile_append_dropWhile,
      ← List.append_assoc, earlierLines_append_lastLine, htext]
  refine ⟨lastLine text, lastLine text ++ c :: tail.takeWhile (· != '\n'),
    ⟨earlierLines text, tail.dropWhile (· != '\n'), hcut, earlierLines_ends _,
      dropWhile_newline tail, ?_⟩, ?_, c, _, rfl, hvalue, hblank⟩
  · rw [earlierLines_append_lastLine]
    exact hbehind
  · rw [List.mem_append, List.mem_cons]
    rintro (hmem | rfl | hmem)
    · exact newline_not_mem_lastLine text hmem
    · exact hnewline rfl
    · exact newline_not_mem_takeWhile tail hmem

namespace Diagnostic

def help (d : Diagnostic) : String :=
  match d.problem.tip? with
  | some tip => "\nhelp: " ++ tip
  | none => ""

/-- Of the line only `shown` is printed, and the caret stands behind `k` spaces, under this
character. -/
structure Shows (d : Diagnostic) (source : String) (front line indentation shown : List Char)
    (c : Char) (k : Nat) : Prop where
  stripped : Stripped line indentation shown
  rendered : d.render source =
    d.display ++ "\n" ++ String.ofList shown ++ "\n" ++ String.ofList (List.replicate k ' ') ++ "^" ++
      d.help
  under : shown[k]? = some c
  front : front = indentation ++ shown.take k

theorem isIndentation_iff {c : Char} : isIndentation c = true ↔ c = ' ' ∨ c = '\t' := by
  simp [isIndentation]

theorem not_indentation {c : Char} (hc : ¬ Blank c) : isIndentation c = false := by
  rw [Bool.eq_false_iff, ne_eq, isIndentation_iff]
  rintro (rfl | rfl)
  · exact hc (by decide)
  · exact hc (by decide)

theorem stripped_around {c : Char} (hc : ¬ Blank c) (front rest : List Char) :
    Stripped (front ++ c :: rest) (front.takeWhile isIndentation)
      (front.dropWhile isIndentation ++ c :: trimReturns rest) := by
  obtain ⟨⟨returns, hrest, hreturns⟩, hlast⟩ := trimReturns_cut rest
  have hfirst : ∀ x ∈ (front.dropWhile isIndentation ++ c :: trimReturns rest).head?,
      isIndentation x = false := by
    intro x hx
    have hd := List.head?_dropWhile_not isIndentation front
    cases hdrop : front.dropWhile isIndentation with
    | nil =>
      rw [hdrop] at hx
      cases hx
      exact not_indentation hc
    | cons d more =>
      rw [hdrop] at hx hd
      cases hx
      exact hd
  constructor
  · refine ⟨returns, ?_, hreturns⟩
    rw [List.append_assoc, ← List.append_assoc, List.takeWhile_append_dropWhile, List.cons_append,
      ← hrest]
  · intro x hx
    exact isIndentation_iff.mp (List.mem_takeWhile_imp hx)
  · intro x hx
    rw [← not_or, ← isIndentation_iff, hfirst x hx]
    exact Bool.false_ne_true
  · intro x hx
    rw [List.getLast?_append, List.getLast?_cons] at hx
    cases htrim : (trimReturns rest).getLast? with
    | none =>
      rw [htrim] at hx
      cases hx
      rintro rfl
      exact hc (by decide)
    | some y =>
      rw [htrim] at hx
      cases hx
      exact hlast y htrim

theorem shows_inLine {d : Diagnostic} {t : Token} {source : String} {front line : List Char}
    (h : t.InLine source front line) (hd : d.location = t.location) :
    ∃ indentation shown c k, t.value.toList.head? = some c ∧
      d.Shows source front line indentation shown c k := by
  obtain ⟨c, rest, hline, hvalue, hblank⟩ := h.first
  have hplain : c ≠ '\r' := by
    rintro rfl
    exact hblank (by decide)
  have hshown : trimReturns line = front ++ c :: trimReturns rest := by
    rw [hline, trimReturns_append hplain]
  obtain ⟨htake, hdrop⟩ := whiles_append (not_indentation hblank) front (trimReturns rest)
  rw [← hshown] at htake hdrop
  -- The indentation ends in front of the token.
  have hcut : front.takeWhile isIndentation ++ front.dropWhile isIndentation = front :=
    List.takeWhile_append_dropWhile
  have hlength : front.length - (front.takeWhile isIndentation).length =
      (front.dropWhile isIndentation).length := by
    have hsum := congrArg List.length hcut
    rw [List.length_append] at hsum
    omega
  have hremoved : (trimReturns line).drop (front.takeWhile isIndentation).length =
      front.dropWhile isIndentation ++ c :: trimReturns rest := by
    rw [← htake, ← hdrop]
    exact drop_takeWhile isIndentation _
  refine ⟨front.takeWhile isIndentation, front.dropWhile isIndentation ++ c :: trimReturns rest, c,
    (front.dropWhile isIndentation).length, hvalue, ?_, ?_, ?_, ?_⟩
  · rw [hline]
    exact stripped_around hblank front rest
  · rw [render, hd, h.lineText, h.indent, htake, hremoved, hlength]
    rfl
  · rw [List.getElem?_append_right (Nat.le_refl _), Nat.sub_self]
    rfl
  · rw [List.take_left, hcut]

end Diagnostic

/-- What the parser finds wrong with a source is at one of its tokens, and the caret of the
diagnostic is under the first character of this token, in the line that it begins in. -/
theorem caret_under_token {source file : String} {s : TokenSequence} {d : Diagnostic}
    (hs : tokenize source file = .ok s) (hd : compile source file = .error d) :
    d.problem.category ≠ .lexical ∧
      ∃ t ∈ s.toList, t.kind ≠ .newline ∧ d.location = t.location ∧
        ∃ front line indentation shown c k, t.InLine source front line ∧
          t.value.toList.head? = some c ∧ d.Shows source front line indentation shown c k := by
  obtain ⟨row, stop, hstand⟩ := tokenize_located hs
  obtain ⟨ts, -, hts⟩ := Lexer.bind_eq_ok.mp hs
  cases hts
  have hparse : parse (.ofList ts file) = .error d := by
    rw [compile, hs] at hd
    exact hd
  obtain ⟨⟨t, ht, hlocation⟩, hcategory⟩ := parse_error_visible hparse
  obtain ⟨hmem, hseen⟩ := List.mem_filter.mp ht
  have hkind : t.kind ≠ .newline := by simpa [Token.isNewline] using hseen
  obtain ⟨front, line, hline⟩ := hstand.inLine hmem hkind
  obtain ⟨indentation, shown, c, k, hc, hshows⟩ := Diagnostic.shows_inLine hline hlocation
  exact ⟨hcategory, t, hmem, hkind, hlocation, front, line, indentation, shown, c, k, hline, hc,
    hshows⟩

/-- The token is on a continued line, behind a space, a tab and a character of more than a byte, and
the line ends in a carriage return. -/
theorem caret_under_token_continued :
    ∃ s d, tokenize "let f(x) = \\\n \t\"é\" + g(x) ;;\r\n" "shell" = .ok s ∧
      compile "let f(x) = \\\n \t\"é\" + g(x) ;;\r\n" "shell" = .error d ∧
      d.render "let f(x) = \\\n \t\"é\" + g(x) ;;\r\n" =
        "shell:2:9: error: undefined var `g`\n\"é\" + g(x) ;;\n      ^\nhelp: if `g` refers to " ++
          "the function being defined, declare it with `let rec`" ∧
      d.problem.category ≠ .lexical ∧
        ∃ t ∈ s.toList, t.kind ≠ .newline ∧ d.location = t.location ∧
          ∃ front line indentation shown c k,
            t.InLine "let f(x) = \\\n \t\"é\" + g(x) ;;\r\n" front line ∧
            t.value.toList.head? = some c ∧
            d.Shows "let f(x) = \\\n \t\"é\" + g(x) ;;\r\n" front line indentation shown c k := by
  have hsome : (tokenize "let f(x) = \\\n \t\"é\" + g(x) ;;\r\n" "shell").toOption.isSome := by
    decide +kernel
  have herror : (match compile "let f(x) = \\\n \t\"é\" + g(x) ;;\r\n" "shell" with
      | .error d => d == ⟨.undefinedVar "g", ⟨"shell", 2, 9, 13⟩⟩
      | .ok _ => false) = true := by decide +kernel
  obtain ⟨s, hs⟩ := Option.isSome_iff_exists.mp hsome
  have hs := ok_of_toOption hs
  split at herror
  next d hd =>
    obtain rfl := beq_iff_eq.mp herror
    exact ⟨s, _, hs, hd, by decide +kernel, caret_under_token hs hd⟩
  next => cases herror

end MiniMl
