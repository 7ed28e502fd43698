import MiniMl.Proofs.Parser.Relocation

/-! # Layout

Where tokens stand and where lines end decides nothing. Every list of tokens is a relocated list of
numbered tokens, which is the same for all layouts; so the outcomes of two layouts are relocated
outcomes of one parse.
-/

namespace MiniMl

/-- The tokens that are no newlines. -/
def visible (tokens : List Token) : List Token := tokens.filter (!·.isNewline)

/-- The outcomes of two lists of tokens differ in locations only: the trees are shown alike and the
scopes bind the same names, or the same problem is found at tokens with the same index. -/
inductive SameOutcome (ts us : List Token) :
    Except Diagnostic Program → Except Diagnostic Program → Prop where
  | accepted {p q : Program} (dump : p.dump = q.dump) (scope : p.scope = q.scope)
    (scopes : p.arena.outline = q.arena.outline) : SameOutcome ts us (.ok p) (.ok q)
  | rejected {d e : Diagnostic} {t u : Token} (i : Nat) (problem : d.problem = e.problem)
    (here : ts[i]? = some t) (there : us[i]? = some u) (location : d.location = t.location)
    (location' : e.location = u.location) : SameOutcome ts us (.error d) (.error e)

def indexed (i : Nat) : Location := ⟨"", i, 0, 0⟩

def numbered (lexemes : List (TokenKind × String)) : List Token :=
  lexemes.mapIdx fun i l => ⟨l.1, l.2, indexed i⟩

/-- Where the token stands whose index the location has; indices behind all tokens are at the last
one. -/
def place (ts : List Token) (file : String) (loc : Location) : Location :=
  (ts[min loc.line (ts.length - 1)]?.map (·.location)).getD (.start file)

theorem place_of_pos {ts : List Token} (hts : 0 < ts.length) (file : String) (loc : Location) :
    ∃ t, ts[min loc.line (ts.length - 1)]? = some t ∧ place ts file loc = t.location := by
  have hindex : min loc.line (ts.length - 1) < ts.length := by omega
  refine ⟨_, List.getElem?_eq_getElem hindex, ?_⟩
  rw [place, List.getElem?_eq_getElem hindex]
  rfl

theorem numbered_relocate (ts : List Token) (file : String) :
    (numbered (ts.map Token.lexeme)).map (Token.relocate (place ts file)) = ts := by
  apply List.ext_getElem?
  intro i
  rw [List.getElem?_map, numbered, List.getElem?_mapIdx, List.getElem?_map]
  cases hi : ts[i]? with
  | none => rfl
  | some t =>
    obtain ⟨hlt, -⟩ := List.getElem?_eq_some_iff.mp hi
    have hindex : min i (ts.length - 1) = i := by omega
    have hplace : place ts file (indexed i) = t.location := by
      rw [place, indexed, hindex, hi]
      rfl
    simp [Token.relocate, Token.lexeme, hplace]

theorem visible_numbered (xs : List Token) :
    visible (numbered ((visible xs).map Token.lexeme)) =
      numbered ((visible xs).map Token.lexeme) := by
  refine List.filter_eq_self.mpr fun t ht => ?_
  obtain ⟨i, hi, rfl⟩ := List.mem_mapIdx.mp ht
  rw [List.length_map] at hi
  have hmem : (visible xs)[i] ∈ visible xs := List.getElem_mem hi
  rw [List.getElem_map]
  exact (List.mem_filter.mp hmem).2

namespace TokenSequence

theorem sentinel_location (xs : List Token) (file : String) :
    (ofList xs file).sentinel.location =
      ((visible xs).getLast?.map (·.location)).getD (.start file) := by
  rw [visible, List.getLast?_filter]
  rfl

theorem relaid_numbered (xs : List Token) (file : String) :
    (ofList (numbered ((visible xs).map Token.lexeme)) "").Relaid (place (visible xs) file)
      (ofList xs file) := by
  have hvisible := visible_numbered xs
  have hrelocate := numbered_relocate (visible xs) file
  refine ⟨rfl, ?_, ?_⟩
  · change visible xs = (visible (numbered _)).map _
    rw [hvisible, hrelocate]
  · have hlocation : (ofList xs file).sentinel.location = place (visible xs) file
        (ofList (numbered ((visible xs).map Token.lexeme)) "").sentinel.location := by
      rw [sentinel_location, sentinel_location, hvisible]
      cases hlast : (numbered ((visible xs).map Token.lexeme)).getLast? with
      | none =>
        have hnil := List.getLast?_eq_none_iff.mp hlast
        rw [hnil, List.map_nil] at hrelocate
        rw [← hrelocate]
        rfl
      | some t =>
        have hend : (visible xs).getLast? = some (t.relocate (place (visible xs) file)) := by
          have hmap := congrArg List.getLast? hrelocate
          rw [List.getLast?_map, hlast] at hmap
          exact hmap.symm
        rw [hend]
        rfl
    change Token.mk _ _ (ofList xs file).sentinel.location = _
    rw [hlocation]
    rfl

end TokenSequence

/-- Token lists of the same kinds and values, newlines apart, have the same outcome. -/
theorem parse_ignores_layout {xs ys : List Token} (file file' : String)
    (h : (visible xs).map Token.lexeme = (visible ys).map Token.lexeme) :
    SameOutcome (visible xs) (visible ys) (parse (.ofList xs file)) (parse (.ofList ys file')) := by
  have hlength : (visible ys).length = (visible xs).length := by
    simpa using (congrArg List.length h).symm
  rw [parse_relocate (TokenSequence.relaid_numbered xs file),
    parse_relocate (TokenSequence.relaid_numbered ys file'), ← h]
  cases hparse : parse (.ofList (numbered ((visible xs).map Token.lexeme)) "") with
  | ok p =>
    refine .accepted ?_ rfl ?_
    · rw [Program.relocate_dump, Program.relocate_dump]
    · exact (p.arena.relocate_outline _).trans (p.arena.relocate_outline _).symm
  | error d =>
    have hpos : 0 < (visible xs).length := by
      refine List.length_pos_iff.mpr fun hnil => ?_
      rw [hnil] at hparse
      cases hparse
    obtain ⟨t, ht, hplace⟩ := place_of_pos hpos file d.location
    obtain ⟨u, hu, hplace'⟩ := place_of_pos (hlength ▸ hpos) file' d.location
    rw [hlength] at hu
    exact .rejected _ rfl ht hu hplace hplace'

/-- The sum of a number and a truth value is rejected on one line as on two. A definition and a use
are accepted on two lines as on four. -/
theorem parse_ignores_layout_sum :
    (∃ xs ys, (visible xs).map Token.lexeme = (visible ys).map Token.lexeme ∧
      (parse (.ofList xs "a")).toOption.isNone ∧
      SameOutcome (visible xs) (visible ys) (parse (.ofList xs "a")) (parse (.ofList ys "b"))) ∧
    ∃ xs ys, (visible xs).map Token.lexeme = (visible ys).map Token.lexeme ∧
      (parse (.ofList xs "a")).toOption.map (·.arena.outline) =
        some [(.file, none, [.plain "x"]), (.block, some 0, []), (.block, some 1, [.plain "x"]),
          (.block, some 0, [])] ∧
      SameOutcome (visible xs) (visible ys) (parse (.ofList xs "a")) (parse (.ofList ys "b")) := by
  constructor
  · let xs : List Token := [⟨.int, "1", ⟨"a", 1, 1, 0⟩⟩, ⟨.plus, "+", ⟨"a", 1, 3, 0⟩⟩,
      ⟨.bool, "true", ⟨"a", 1, 5, 0⟩⟩, ⟨.doubleSemicolon, ";;", ⟨"a", 1, 9, 0⟩⟩]
    let ys : List Token := [⟨.newline, "\n", ⟨"b", 1, 1, 0⟩⟩, ⟨.int, "1", ⟨"b", 2, 1, 1⟩⟩,
      ⟨.plus, "+", ⟨"b", 2, 3, 1⟩⟩, ⟨.newline, "\n", ⟨"b", 2, 4, 1⟩⟩,
      ⟨.bool, "true", ⟨"b", 3, 1, 5⟩⟩, ⟨.doubleSemicolon, ";;", ⟨"b", 3, 5, 5⟩⟩]
    exact ⟨xs, ys, by decide, by decide +kernel, parse_ignores_layout "a" "b" (by decide)⟩
  · let xs : List Token := [⟨.letWord, "let", ⟨"a", 1, 1, 0⟩⟩, ⟨.identifier, "x", ⟨"a", 1, 5, 0⟩⟩,
      ⟨.assignment, "=", ⟨"a", 1, 7, 0⟩⟩, ⟨.int, "1", ⟨"a", 1, 9, 0⟩⟩,
      ⟨.doubleSemicolon, ";;", ⟨"a", 1, 11, 0⟩⟩, ⟨.newline, "\n", ⟨"a", 1, 13, 0⟩⟩,
      ⟨.identifier, "x", ⟨"a", 2, 1, 13⟩⟩, ⟨.doubleSemicolon, ";;", ⟨"a", 2, 3, 13⟩⟩]
    let ys : List Token := [⟨.letWord, "let", ⟨"b", 1, 1, 0⟩⟩, ⟨.newline, "\n", ⟨"b", 1, 4, 0⟩⟩,
      ⟨.identifier, "x", ⟨"b", 2, 1, 4⟩⟩, ⟨.assignment, "=", ⟨"b", 2, 2, 4⟩⟩,
      ⟨.newline, "\n", ⟨"b", 2, 3, 4⟩⟩, ⟨.int, "1", ⟨"b", 3, 1, 7⟩⟩,
      ⟨.doubleSemicolon, ";;", ⟨"b", 3, 2, 7⟩⟩, ⟨.identifier, "x", ⟨"b", 3, 5, 7⟩⟩,
      ⟨.newline, "\n", ⟨"b", 3, 6, 7⟩⟩, ⟨.doubleSemicolon, ";;", ⟨"b", 4, 1, 13⟩⟩]
    exact ⟨xs, ys, by decide, by decide +kernel, parse_ignores_layout "a" "b" (by decide)⟩

end MiniMl
