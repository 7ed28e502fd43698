import Mathlib.Data.List.Infix
import Mathlib.Data.List.TakeWhile
import Mathlib.Data.String.Basic
import MiniMl.Proofs.Token.Lexing

/-! # Where tokens stand

The location of a token is that of the first character of its lexeme. It is told by the text before
alone: the newlines in it, and the characters behind the last of them.
-/

namespace MiniMl

def earlierLines (text : List Char) : List Char := (text.reverse.dropWhile (· != '\n')).reverse

def lastLine (text : List Char) : List Char := (text.reverse.takeWhile (· != '\n')).reverse

theorem earlierLines_append_lastLine (text : List Char) :
    earlierLines text ++ lastLine text = text := by
  rw [earlierLines, lastLine, ← List.reverse_append, List.takeWhile_append_dropWhile,
    List.reverse_reverse]

@[simp] theorem utf8Length_append (a b : List Char) :
    utf8Length (a ++ b) = utf8Length a + utf8Length b := by
  induction a with
  | nil => simp [utf8Length]
  | cons c a ih => simp [utf8Length, ih, Nat.add_assoc]

theorem utf8Length_toList (s : String) : utf8Length s.toList = s.utf8ByteSize := by
  have hlen : ∀ text, utf8Length text = String.utf8Len text := by
    intro text
    induction text with
    | nil => rfl
    | cons c text ih => rw [utf8Length, ih, String.utf8Len_cons, Nat.add_comm]
  rw [hlen, ← String.utf8ByteSize_ofList, String.ofList_toList]

theorem utf8Length_pos {text : List Char} (h : text ≠ []) : 0 < utf8Length text := by
  cases text with
  | nil => exact absurd rfl h
  | cons c text => exact Nat.lt_of_lt_of_le c.utf8Size_pos (Nat.le_add_right _ _)

theorem dropBytes?_append (a b : List Char) : dropBytes? (utf8Length a) (a ++ b) = some b := by
  induction a with
  | nil =>
    rw [utf8Length, List.nil_append]
    cases b <;> rfl
  | cons c a ih =>
    obtain ⟨n, hn⟩ := Nat.exists_eq_succ_of_ne_zero c.utf8Size_pos.ne'
    have hlength : utf8Length (c :: a) = n + utf8Length a + 1 := by
      rw [utf8Length, hn]
      omega
    have hrest : n + utf8Length a + 1 - c.utf8Size = utf8Length a := by omega
    rw [hlength, List.cons_append, dropBytes?, if_pos (by omega), hrest]
    exact ih

/-- The position behind a text, told by the text. -/
theorem Position.behind_start (text : List Char) :
    Position.start.behind text =
      ⟨utf8Length text, 1 + text.count '\n', 1 + (lastLine text).length,
        utf8Length (earlierLines text)⟩ := by
  induction text using List.reverseRecOn with
  | nil => rfl
  | append_singleton text c ih =>
    rw [Position.behind_append, ih]
    by_cases hc : c = '\n'
    · subst hc
      simp [behind, after, earlierLines, lastLine, utf8Length, Nat.add_assoc]
    · simp [behind, after, earlierLines, lastLine, utf8Length, hc, Nat.add_assoc]

/-- The lines of the source, and the characters of each with its newline, can be counted in 32
bits. -/
structure LinesFit (source : String) : Prop where
  lines : 1 + source.toList.count '\n' < 2 ^ 32
  columns : ∀ line, line <:+: source.toList → '\n' ∉ line → 1 + line.length < 2 ^ 32

theorem LinesFit.of_length {source : String} (h : 1 + source.toList.length < 2 ^ 32) :
    LinesFit source where
  lines := Nat.lt_of_le_of_lt (Nat.add_le_add_left List.count_le_length 1) h
  columns := fun _ hline _ => Nat.lt_of_le_of_lt (Nat.add_le_add_left hline.length_le 1) h

theorem newline_not_mem_takeWhile (text : List Char) : '\n' ∉ text.takeWhile (· != '\n') := by
  intro hmem
  have hne := List.mem_takeWhile_imp hmem
  simp at hne

theorem newline_not_mem_lastLine (text : List Char) : '\n' ∉ lastLine text := by
  intro hmem
  exact newline_not_mem_takeWhile _ (List.mem_reverse.mp hmem)

theorem LinesFit.behind {source : String} {before after : List Char} (h : LinesFit source)
    (hsource : source.toList = before ++ after) :
    1 + before.count '\n' < 2 ^ 32 ∧ 1 + (lastLine before).length < 2 ^ 32 := by
  constructor
  · have hlines := h.lines
    rw [hsource, List.count_append] at hlines
    omega
  · refine h.columns _ ⟨earlierLines before, after, ?_⟩ (newline_not_mem_lastLine before)
    rw [earlierLines_append_lastLine, hsource]

/-- The location is that of what stands behind the text `before`, which is the beginning of the
source. -/
structure Location.Behind (loc : Location) (source : String) (before : List Char) : Prop where
  offset : loc.byteOffset source = utf8Length before
  line : loc.line = 1 + before.count '\n'
  lineBegin : loc.lineBegin = utf8Length (earlierLines before)
  column : loc.column = 1 + (lastLine before).length
  fits : LinesFit source → loc.line < 2 ^ 32 ∧ loc.column < 2 ^ 32

theorem Position.location_behind {source : String} {before after : List Char}
    (h : source.toList = before ++ after) (file : String) :
    ((Position.start.behind before).location file).Behind source before := by
  rw [behind_start]
  refine ⟨?_, rfl, rfl, rfl, fun hfit => hfit.behind h⟩
  let loc : Location := ⟨file, 1 + before.count '\n', 1 + (lastLine before).length,
    utf8Length (earlierLines before)⟩
  have hsource : source.toList = earlierLines before ++ (lastLine before ++ after) := by
    rw [h, ← List.append_assoc, earlierLines_append_lastLine]
  have hline : loc.lineOnwards source = lastLine before ++ after := by
    rw [Location.lineOnwards, hsource, dropBytes?_append]
    rfl
  have hcolumn : loc.column - 1 = (lastLine before).length := Nat.add_sub_cancel_left _ _
  change loc.byteOffset source = _
  rw [Location.byteOffset, hline, hcolumn, List.take_left, ← utf8Length_append,
    earlierLines_append_lastLine]

/-- A stretch of a source: the lexeme of a token, or something between lexemes. -/
structure Stretch where
  raw : List Char
  token : Option Token

namespace Stretch

inductive Proper : Stretch → (after : List Char) → Prop where
  | blank {c : Char} {after : List Char} : Blank c → Proper ⟨[c], none⟩ after
  | continuation {after : List Char} : Proper ⟨['\\', '\n'], none⟩ after
  | comment {raw after : List Char} : BlockComment raw → Proper ⟨raw, none⟩ after
  | lexeme {raw after : List Char} {t : Token} : Trimmed raw → Lexeme t.kind (logical raw) →
      t.value = String.ofList (logical raw) → Maximal (logical raw) after →
      Proper ⟨raw, some t⟩ after

def text (row : List Stretch) : List Char := row.flatMap (·.raw)

def tokens (row : List Stretch) : List Token := row.filterMap (·.token)

theorem text_cons (x : Stretch) (row : List Stretch) : text (x :: row) = x.raw ++ text row :=
  List.flatMap_cons

theorem text_append (row more : List Stretch) : text (row ++ more) = text row ++ text more :=
  List.flatMap_append

/-- Every stretch of the row is proper, and every token stands where its lexeme does. -/
def Located (file : String) (p : Position) (row : List Stretch) : Prop :=
  ∀ before x after, row = before ++ x :: after → x.Proper (text after) ∧
    ∀ t ∈ x.token, t.location = (p.behind (text before)).location file

variable {file : String} {p : Position} {x : Stretch} {row : List Stretch}

theorem Located.cons (hx : x.Proper (text row)) (ht : ∀ t ∈ x.token, t.location = p.location file)
    (h : Located file (p.behind x.raw) row) : Located file p (x :: row) := by
  intro before y after hsplit
  cases before with
  | nil =>
    obtain ⟨rfl, rfl⟩ := List.cons.inj hsplit
    exact ⟨hx, ht⟩
  | cons z before =>
    obtain ⟨rfl, rfl⟩ := List.cons.inj hsplit
    rw [text_cons, Position.behind_append]
    exact h before y after rfl

end Stretch

theorem Segmented.stretches {file : String} {p : Position} {text : List Char} {ts : List Token}
    (h : Segmented file p text ts) :
    ∃ row, Stretch.text row = text ∧ Stretch.tokens row = ts ∧ Stretch.Located file p row := by
  induction h with
  | nil => exact ⟨[], rfl, rfl, fun before x after hsplit => by simp at hsplit⟩
  | @blank _ c _ _ hc _ ih =>
    obtain ⟨row, rfl, rfl, hrow⟩ := ih
    exact ⟨⟨[c], none⟩ :: row, rfl, rfl, .cons (.blank hc) (by simp) hrow⟩
  | continuation _ ih =>
    obtain ⟨row, rfl, rfl, hrow⟩ := ih
    exact ⟨⟨['\\', '\n'], none⟩ :: row, rfl, rfl, .cons .continuation (by simp) hrow⟩
  | @comment _ raw _ _ hcomment _ ih =>
    obtain ⟨row, rfl, rfl, hrow⟩ := ih
    exact ⟨⟨raw, none⟩ :: row, rfl, rfl, .cons (.comment hcomment) (by simp) hrow⟩
  | @lexeme _ raw _ t _ htrim hlexeme hvalue hlocation hmax _ ih =>
    obtain ⟨row, rfl, rfl, hrow⟩ := ih
    refine ⟨⟨raw, some t⟩ :: row, rfl, rfl, .cons (.lexeme htrim hlexeme hvalue hmax) ?_ hrow⟩
    intro u hu
    cases hu
    exact hlocation

namespace Stretch

variable {file source : String} {x : Stretch} {row : List Stretch} {t : Token}

theorem Proper.first {after : List Char} (h : x.Proper after) (ht : t ∈ x.token) :
    ∃ c, x.raw.head? = some c ∧ t.value.toList.head? = some c := by
  cases h with
  | blank _ => cases ht
  | continuation => cases ht
  | comment _ => cases ht
  | @lexeme raw _ u htrim hlexeme hvalue _ =>
    cases ht
    obtain ⟨c, hc⟩ := Option.isSome_iff_exists.mp (List.isSome_head?.mpr hlexeme.ne_nil)
    refine ⟨c, htrim.first.trans hc, ?_⟩
    rw [hvalue, String.toList_ofList, hc]

theorem Proper.ne_nil {after : List Char} (h : x.Proper after) (ht : t ∈ x.token) : x.raw ≠ [] := by
  obtain ⟨c, hc, _⟩ := h.first ht
  intro hnil
  rw [hnil] at hc
  cases hc

theorem offsets_increase (offset : Token → Nat) (n : Nat)
    (h : ∀ before x after, row = before ++ x :: after → ∀ t ∈ x.token,
      x.raw ≠ [] ∧ offset t = n + utf8Length (text before)) :
    ((tokens row).map offset).Pairwise (· < ·) ∧
      ∀ t ∈ tokens row, n ≤ offset t ∧ offset t < n + utf8Length (text row) := by
  induction row generalizing n with
  | nil => simp [tokens]
  | cons x row ih =>
    have hrow := ih (n + utf8Length x.raw) (by
      intro before y after hsplit t ht
      have hy := h (x :: before) y after (by rw [hsplit, List.cons_append]) t ht
      refine ⟨hy.1, ?_⟩
      rw [hy.2, text_cons, utf8Length_append, Nat.add_assoc])
    obtain ⟨hpairs, hbounds⟩ := hrow
    rw [text_cons, utf8Length_append]
    cases hx : x.token with
    | none =>
      rw [tokens, List.filterMap_cons_none hx]
      refine ⟨hpairs, fun t ht => ?_⟩
      obtain ⟨hlow, hhigh⟩ := hbounds t ht
      omega
    | some u =>
      obtain ⟨hraw, hu⟩ := h [] x row rfl u hx
      have hpos := utf8Length_pos hraw
      have hzero : offset u = n := hu
      rw [tokens, List.filterMap_cons_some hx]
      constructor
      · rw [List.map_cons, List.pairwise_cons]
        refine ⟨fun m hm => ?_, hpairs⟩
        obtain ⟨t, ht, rfl⟩ := List.mem_map.mp hm
        obtain ⟨hlow, _⟩ := hbounds t ht
        omega
      · intro t ht
        rcases List.mem_cons.mp ht with rfl | ht
        · omega
        · obtain ⟨hlow, hhigh⟩ := hbounds t ht
          omega

end Stretch

/-- The source is cut into the row of stretches, whose tokens are those of the sequence up to a
newline that may be added at its end. Each token stands where its lexeme does. -/
structure TokenSequence.Stand (s : TokenSequence) (source : String) (row : List Stretch)
    (stop : Location) : Prop where
  text : Stretch.text row = source.toList
  proper : ∀ before x after, row = before ++ x :: after → x.Proper (Stretch.text after)
  tokens : s.toList = endLine (Stretch.tokens row) stop
  behind : ∀ before x after, row = before ++ x :: after → ∀ t ∈ x.token,
    t.location.Behind source (Stretch.text before)
  first : ∀ before x after, row = before ++ x :: after → ∀ t ∈ x.token,
    ∃ c rest, dropBytes? (t.location.byteOffset source) source.toList = some (c :: rest) ∧
      t.value.toList.head? = some c
  increasing : (s.toList.map fun t => t.location.byteOffset source).Pairwise (· < ·)
  added : stop.Behind source source.toList
  ending : stop.byteOffset source = source.utf8ByteSize

/-- The location of a token is that of the first character of its lexeme. Offsets increase from
token to token, and a newline that is added at the end stands at the end of the source. -/
theorem tokenize_located {source file : String} {s : TokenSequence}
    (h : tokenize source file = .ok s) : ∃ row stop, s.Stand source row stop := by
  obtain ⟨ts, hts, h⟩ := Lexer.bind_eq_ok.mp h
  cases h
  obtain ⟨lexed, hlexed, rfl⟩ := Lexer.tokens_segmented hts
  obtain ⟨row, htext, rfl, hrow⟩ := hlexed.stretches
  have hsplit : ∀ before x after, row = before ++ x :: after →
      source.toList = Stretch.text before ++ (x.raw ++ Stretch.text after) := by
    rintro before x after rfl
    rw [← htext, Stretch.text_append, Stretch.text_cons]
  have hbehind : ∀ before x after, row = before ++ x :: after → ∀ t ∈ x.token,
      t.location.Behind source (Stretch.text before) := by
    intro before x after hx t ht
    rw [(hrow before x after hx).2 t ht]
    exact Position.location_behind (hsplit before x after hx) file
  have hstop : ((Position.start.behind source.toList).location file).Behind source source.toList :=
    Position.location_behind (List.append_nil _).symm file
  obtain ⟨hpairs, hbounds⟩ := Stretch.offsets_increase
    (fun t => t.location.byteOffset source) 0 (by
      intro before x after hx t ht
      refine ⟨(hrow before x after hx).1.ne_nil ht, ?_⟩
      rw [(hbehind before x after hx t ht).offset, Nat.zero_add])
  refine ⟨row, (Position.start.behind source.toList).location file, htext, ?_, rfl, hbehind, ?_, ?_,
    hstop, ?_⟩
  · intro before x after hx
    exact (hrow before x after hx).1
  · intro before x after hx t ht
    obtain ⟨c, hraw, hvalue⟩ := (hrow before x after hx).1.first ht
    obtain ⟨rest, hrest⟩ := List.head?_eq_some_iff.mp hraw
    refine ⟨c, rest ++ Stretch.text after, ?_, hvalue⟩
    rw [(hbehind before x after hx t ht).offset, hsplit before x after hx, dropBytes?_append, hrest]
    rfl
  · change ((endLine (Stretch.tokens row) _).map _).Pairwise _
    unfold endLine
    split
    · exact hpairs
    · rw [List.map_append, List.pairwise_append]
      refine ⟨hpairs, List.pairwise_singleton _ _, fun m hm k hk => ?_⟩
      obtain ⟨t, ht, rfl⟩ := List.mem_map.mp hm
      obtain rfl := List.mem_singleton.mp hk
      have hlast := (hbounds t ht).2
      rw [htext, Nat.zero_add] at hlast
      dsimp only
      rw [hstop.offset]
      exact hlast
  · rw [hstop.offset, utf8Length_toList]

/-- Lines end in a name, in a string and in a comment; characters take more than a byte. -/
theorem tokenize_located_lines :
    ∃ s, tokenize "a\\\nb = \"é\n\" (* ü\n*) + x" "shell" = .ok s ∧
      s.toList.map (fun t => (t.value, t.location.line, t.location.column, t.location.lineBegin)) =
        [("ab", 1, 1, 0), ("=", 2, 3, 3), ("\"é\n\"", 2, 5, 3), ("+", 4, 4, 19), ("x", 4, 6, 19),
          ("\n", 4, 7, 19)] ∧
      ∃ row stop, s.Stand "a\\\nb = \"é\n\" (* ü\n*) + x" row stop := by
  have hplaces : (tokenize "a\\\nb = \"é\n\" (* ü\n*) + x" "shell").toOption.map (fun s =>
      s.toList.map fun t => (t.value, t.location.line, t.location.column, t.location.lineBegin)) =
        some [("ab", 1, 1, 0), ("=", 2, 3, 3), ("\"é\n\"", 2, 5, 3), ("+", 4, 4, 19),
          ("x", 4, 6, 19), ("\n", 4, 7, 19)] := by decide +kernel
  cases h : tokenize "a\\\nb = \"é\n\" (* ü\n*) + x" "shell" with
  | error d =>
    rw [h] at hplaces
    cases hplaces
  | ok s =>
    rw [h] at hplaces
    exact ⟨s, rfl, Option.some.inj hplaces, tokenize_located h⟩

end MiniMl
