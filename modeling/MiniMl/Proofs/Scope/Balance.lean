import Mathlib.Logic.Relation
import MiniMl.Proofs.Scope.Restoration

/-! # Scopes are opened and closed in balance

An expression comes back to the scope it was read in and only adds bindings to it; whatever else it
does happens in scopes of its own, each inside an older one. A statement only changes the file
scope. So all chains of parents end there. No state of the parser is excluded, as long as its
current scope exists.
-/

namespace MiniMl

namespace Scopes

variable {u v w : Scopes}

def Valid (v : Scopes) : Prop := v.scope < v.arena.size

/-- Nothing outside the current scope changes, and each new scope is inside an older one. -/
structure Frames (v w : Scopes) : Prop extends Keeps v w where
  created : ∀ id, v.arena.size ≤ id → id < w.arena.size →
    ∃ parent, w.arena.parent? id = some parent ∧ parent < id

/-- The current scope keeps what it binds, too, and can only gain bindings. -/
structure Extends (v w : Scopes) : Prop extends Frames v w where
  bound : ∀ k x, v.here k = some x → w.here k = some x

theorem Keeps.valid (h : v.Keeps w) (hv : v.Valid) : w.Valid := by
  unfold Valid
  rw [h.scope]
  exact Nat.lt_of_lt_of_le hv h.size

theorem Frames.refl (v : Scopes) : v.Frames v := by
  refine ⟨.refl v, ?_⟩
  intro id hlow hhigh
  omega

theorem Frames.trans (h : u.Frames v) (h' : v.Frames w) : u.Frames w where
  toKeeps := h.toKeeps.trans h'.toKeeps
  created := by
    intro id hlow hhigh
    rcases Nat.lt_or_ge id v.arena.size with hid | hid
    · obtain ⟨parent, hparent, hlt⟩ := h.created id hlow hid
      exact ⟨parent, (h'.parent id hid).trans hparent, hlt⟩
    · exact h'.created id hid hhigh

theorem Extends.refl (v : Scopes) : v.Extends v := ⟨.refl v, fun _ _ hx => hx⟩

theorem Extends.trans (h : u.Extends v) (h' : v.Extends w) : u.Extends w where
  toFrames := h.toFrames.trans h'.toFrames
  bound := fun k x hx => h'.bound k x (h.bound k x hx)

theorem Keeps.frames (h : v.Keeps w) (hsize : w.arena.size = v.arena.size) : v.Frames w := by
  refine ⟨h, ?_⟩
  intro id hlow hhigh
  omega

theorem Frames.bind (h : v.Frames w) (key : Key) (x : Symbol) :
    v.Frames (w.bind w.scope key x) :=
  h.trans ((Keeps.bind w key x).frames (bind_size w w.scope key x))

theorem Frames.numbered (h : v.Frames w) (n : Nat) : v.Frames (w.numbered n) :=
  h.trans ((Keeps.numbered w n).frames rfl)

theorem Extends.absorb (h : v.Extends w) (hv : v.Valid) (source : ScopeId) :
    v.Extends (w.absorb source) := by
  refine h.trans ⟨(Keeps.absorb w source).frames (absorb_size w source), ?_⟩
  intro k x hx
  change ((w.arena.append source w.scope).bindings w.scope).find? k = some x
  by_cases hsource : source = w.scope
  · rw [Arena.append, if_pos hsource]
    exact hx
  · have hw : w.scope < w.arena.size := h.toKeeps.valid hv
    rw [Arena.find?_append hsource hw, if_pos rfl]
    exact Option.or_eq_some_iff.mpr (.inl hx)

theorem enter_valid (v : Scopes) (kind : ScopeKind) : (v.enter kind).Valid := by
  change v.arena.size < (v.arena.create kind (some v.scope)).2.size
  rw [Arena.size_create]
  omega

theorem Keeps.bindings_block {kind : ScopeKind} {id : ScopeId} (h : (v.enter kind).Keeps w)
    (hid : id < v.arena.size) : w.arena.bindings id = v.arena.bindings id := by
  have hlt : id < (v.enter kind).arena.size := Nat.lt_trans hid (v.enter_valid kind)
  rw [h.others id hlt (Nat.ne_of_lt hid)]
  exact Arena.bindings_create _ _ _ _

theorem Frames.block {kind : ScopeKind} (hv : v.Valid) (h : (v.enter kind).Frames w) :
    v.Extends w.leave := by
  have hsize : (v.enter kind).arena.size = v.arena.size + 1 := Arena.size_create _ _ _
  have hnew : v.arena.size < (v.enter kind).arena.size := v.enter_valid kind
  have hgrown := h.size
  have hparent : w.arena.parent? v.arena.size = some v.scope := by
    rw [h.parent _ hnew]
    exact (Arena.parent?_create _ _ _ _).trans (if_pos rfl)
  have hscope : w.leave.scope = v.scope := by
    have hw : w.scope = v.arena.size := h.scope
    simp only [leave, hw, hparent, Option.getD_some]
  refine ⟨⟨⟨hscope, ?_, h.symbols, ?_, ?_, fun _ hid _ => h.bindings_block hid⟩, ?_⟩, ?_⟩
  · change v.arena.size ≤ w.arena.size
    omega
  · intro id hid
    refine (h.parent id (by omega)).trans ?_
    exact (Arena.parent?_create _ _ _ _).trans (if_neg (Nat.ne_of_lt hid))
  · intro id hid
    refine (h.kind id (by omega)).trans ?_
    exact (Arena.kind?_create _ _ _ _).trans (if_neg (Nat.ne_of_lt hid))
  · intro id hlow hhigh
    by_cases hid : id = v.arena.size
    · subst hid
      exact ⟨v.scope, hparent, hv⟩
    · exact h.created id (by omega) hhigh
  · intro k x hx
    change (w.arena.bindings w.leave.scope).find? k = some x
    rw [hscope, h.bindings_block hv]
    exact hx

theorem leave_bind (v : Scopes) (id : ScopeId) (key : Key) (x : Symbol) :
    (v.bind id key x).leave = v.leave.bind id key x := by
  unfold leave bind
  rw [Arena.bind, Arena.parent?_setBindings]

end Scopes

namespace Parse

variable {α : Type} {p q : Parser} {operand other : Parse Term}

/-- The reader changes scopes in this way only. -/
def Balanced (R : Scopes → Scopes → Prop) (item : Parse α) : Prop :=
  ∀ ⦃p x q⦄, item p = .ok x q → p.scopes.Valid → R p.scopes q.scopes

abbrev Extending (item : Parse α) : Prop := Balanced Scopes.Extends item

theorem separated_extends {separator : TokenKind} {item : Parse α} {xs : List α}
    (hi : Extending item) (h : Separated separator item p xs q) (hp : p.scopes.Valid) :
    p.scopes.Extends q.scopes := by
  induction h with
  | last hx => exact hi hx hp
  | cons hx _ _ ih =>
    have hr := hi hx hp
    exact hr.trans (ih (hr.valid hp))

theorem parenthesised_extends {item : Parse α} {xs : List α} (hi : Extending item)
    (h : Parenthesised item p xs q) (hp : p.scopes.Valid) : p.scopes.Extends q.scopes := by
  cases h with
  | unit => exact .refl _
  | items _ hs _ =>
    have hq := separated_extends hi hs hp
    exact hq

theorem chained_extends (ho : Extending operand) {ts : List Term}
    (h : Chained operand p ts q) (hp : p.scopes.Valid) : p.scopes.Extends q.scopes := by
  induction h with
  | stop => exact .refl _
  | cons _ ht _ ih =>
    have hr := ho ht hp
    exact hr.trans (ih (hr.valid hp))

theorem climbs_extends (ho : Extending operand) {floor : Nat} {lhs t : Term}
    (h : Climbs operand floor lhs p t q) (hp : p.scopes.Valid) : p.scopes.Extends q.scopes := by
  induction h with
  | stop => exact .refl _
  | step _ _ hf _ _ _ ihr ih =>
    have hr := ho hf hp
    have hu := hr.trans (ihr (hr.valid hp))
    exact hu.trans (ih (hu.valid hp))

theorem operators_extends (ho : Extending operand) : Extending (operators operand) := by
  intro p t q h hp
  obtain ⟨first, r, hf, h⟩ := operators_ok h
  have hr := ho hf hp
  exact hr.trans (climbs_extends ho h (hr.valid hp))

theorem sequence_extends (ho : Extending operand) : Extending (sequence operand) := by
  intro p t q h hp
  have hs := sequence_ok h
  clear h
  induction hs with
  | last h => exact operators_extends ho h hp
  | cons hf _ _ ih =>
    have hr := operators_extends ho hf hp
    exact hr.trans (ih (hr.valid hp))

theorem application_extends (ho : Extending operand) : Extending (application operand) := by
  intro p e q h hp
  obtain ⟨x, f, args, r, c, s, _, _, ha, _, rfl, rfl⟩ := application_ok h
  have hr := chained_extends ho ha hp
  exact hr

theorem chainOr_extends (ho : Extending operand) (hother : Extending other) :
    Extending (chainOr operand other) := by
  intro p e q h hp
  rcases chainOr_ok h with ⟨_, _, h⟩ | ⟨item, hi, rfl⟩
  · exact application_extends ho h hp
  · exact hother hi hp

theorem exp_extends (ho : Extending operand) : Extending (exp operand) :=
  chainOr_extends ho (sequence_extends ho)

theorem constant_extends : Extending constant := by
  intro p t q h _
  obtain ⟨value, c, s, _, _, rfl, rfl⟩ := constant_ok h
  exact .refl p.scopes

theorem signed_extends (ho : Extending operand) : Extending (signed operand) := by
  intro p t q h hp
  obtain ⟨inner, r, c, s, hi, _, rfl, rfl⟩ := signed_ok h
  have hr := ho hi hp
  exact hr

theorem name_extends (ho : Extending operand) : Extending (name operand) := by
  intro p t q h hp
  rcases name_ok h with ⟨x, _, ⟨f, args, r, c, s, _, ha, _, rfl, rfl⟩ | ⟨rfl, rfl⟩⟩
  · have hr := parenthesised_extends (exp_extends ho) ha hp
    exact hr
  · exact .refl p.scopes

theorem grouping_extends (ho : Extending operand) : Extending (grouping operand) := by
  intro p t q h hp
  obtain ⟨first, r, hf, h⟩ := grouping_ok h
  have hr := exp_extends ho hf hp
  rcases h with ⟨_, second, u, c, s, hs, _, _, rfl, rfl⟩ | ⟨_, rfl, rfl⟩
  · have hu := exp_extends ho hs (hr.valid hp)
    exact hr.trans hu
  · exact hr

theorem projection_extends (ho : Extending operand) : Extending (projection operand) := by
  intro p t q h hp
  obtain ⟨first, r, second, u, _, hf, _, hs, _, rfl, rfl⟩ := projection_ok h
  have hr := exp_extends ho hf hp
  have hu := exp_extends ho hs (hr.valid hp)
  exact hr.trans hu

theorem branch_extends (ho : Extending operand) : Extending (branch operand) := by
  intro p b q h hp
  obtain ⟨r, he, _, rfl⟩ := branch_ok h
  have hr := chainOr_extends ho (operators_extends ho) he (p.scopes.enter_valid .block)
  exact hr.toFrames.block hp

theorem conditional_extends (ho : Extending operand) : Extending (conditional operand) := by
  intro p t q h hp
  obtain ⟨condition, r, first, u, second, v, c, s, hc, _, hf, hs, _, rfl, rfl⟩ :=
    conditional_ok h
  have hr := exp_extends ho hc hp
  have hfirst := branch_extends ho hf (hr.valid hp)
  have hu := hr.trans hfirst
  rcases elseBranch_ok hs with ⟨_, b, hb, rfl⟩ | ⟨rfl, rfl⟩
  · have hsecond := branch_extends ho hb (hu.valid hp)
    have hv := hu.trans hsecond
    exact (hv.absorb hp first.2).absorb hp b.2
  · exact hu.absorb hp first.2

theorem loop_extends (ho : Extending operand) : Extending (loop operand) := by
  intro p t q h hp
  obtain ⟨condition, r, body, u, c, s, hc, _, hb, _, _, rfl, rfl⟩ := loop_ok h
  have hr := exp_extends ho hc hp
  have hu := exp_extends ho hb (r.scopes.enter_valid .block)
  have hleave := hr.trans (hu.toFrames.block (hr.valid hp))
  exact hleave.absorb hp r.arena.size

theorem defineAll_frames {v : Scopes} (h : v.Frames p.scopes) (xs : List Symbol) :
    v.Frames (p.defineAll xs).scopes := by
  induction xs generalizing p with
  | nil => exact h
  | cons x xs ih => exact ih (p := p.define x) (h.bind (.ofName x.name) x)

/-- A function is bound in the current scope, its parameters in a scope of its own. -/
theorem function_frames (ho : Extending operand) {name : Token} {isRec : Bool} :
    Balanced Scopes.Frames (function operand name isRec) := by
  intro p b q h hp
  obtain ⟨tokens, p₁, f, s₁, x, s₂, p₂, params, body, p₃, s₃, ht, _, _, hp₂, _, _, hb, _, _,
    rfl⟩ := function_ok h
  have hnumbered : p.scopes.Frames (p₁.scopes.numbered 1) := by
    rw [parenthesised_names ht]
    exact (Scopes.Frames.refl p.scopes).numbered 1
  have hbody : ∀ v, p.scopes.Frames v → p₂.scopes = v.enter .function →
      p.scopes.Frames p₃.scopes.leave := by
    intro v hv henter
    have hparams : p₂.scopes.Frames ((p₂.numbered params.length).defineAll params).scopes :=
      defineAll_frames (p := p₂.numbered params.length) ((Scopes.Frames.refl _).numbered _) params
    have hp₂ : p₂.scopes.Valid := henter ▸ v.enter_valid .function
    have hread := hparams.trans (exp_extends ho hb (hparams.valid hp₂)).toFrames
    rw [henter] at hread
    exact hv.trans (hread.block (hv.valid hp)).toFrames
  cases isRec
  · have hleave := hbody _ hnumbered (by rw [hp₂]; rfl)
    exact (hleave.bind (.ofName x.name) x).bind (.tag x.name) x
  · have hleave := hbody _ (hnumbered.bind (.ofName x.name) x) (by rw [hp₂]; rfl)
    exact hleave.bind (.tag x.name) x

theorem binding_frames (ho : Extending operand) {isRec : Bool} :
    Balanced Scopes.Frames (binding operand isRec) := by
  intro p b q h hp
  rcases binding_ok h with ⟨_, h | ⟨body, r, _, hb, rfl, rfl⟩⟩
  · have hq := function_frames ho h hp
    exact hq
  · have hr := exp_extends ho hb hp
    exact (hr.toFrames.numbered 1).bind (.ofName p.peek.value) _

theorem bindings_frame (ho : Extending operand) {isRec : Bool} {bs : List Binding}
    (h : Separated .andWord (binding operand isRec) p bs q) (hp : p.scopes.Valid) :
    p.scopes.Frames q.scopes := by
  induction h with
  | last hb => exact binding_frames ho hb hp
  | cons hb _ _ ih =>
    have hr := binding_frames ho hb hp
    exact hr.trans (ih (hr.valid hp))

theorem letEntered_scopes (p : Parser) :
    ((p.advance.skip .recWord).enter .block).scopes = p.scopes.enter .block :=
  congrArg (Scopes.enter · .block) (letWords_scopes p)

theorem letBindings_frame (ho : Extending operand) {isRec : Bool} {bs : List Binding}
    (h : Separated .andWord (binding operand isRec) ((p.advance.skip .recWord).enter .block) bs q) :
    (p.scopes.enter .block).Frames q.scopes := by
  have hbs := bindings_frame ho h (letEntered_scopes p ▸ p.scopes.enter_valid .block)
  rwa [letEntered_scopes] at hbs

theorem finishLet_extends (ho : Extending operand) {v : Scopes} {token : Token}
    {bs : List Binding} {source : ScopeId} {t : Term}
    (h : finishLet operand token bs source p = .ok t q) (hv : v.Valid)
    (hbs : (v.enter .block).Frames p.scopes) : v.Extends q.scopes := by
  obtain ⟨body, r, _, hb, rfl, rfl⟩ := finishLet_ok h
  have hr := exp_extends ho hb (hbs.valid (v.enter_valid .block))
  exact ((hbs.trans hr.toFrames).block hv).absorb hv source

theorem letIn_extends (ho : Extending operand) : Extending (letIn operand) := by
  intro p t q h hp
  obtain ⟨bs, r, hbs, h⟩ := letIn_ok h
  exact finishLet_extends ho h hp (letBindings_frame ho hbs)

theorem operandStep_extends (ho : Extending operand) : Extending (operandStep operand) := by
  intro p t q h hp
  cases operandStep_ok h with
  | name _ h => exact name_extends ho h hp
  | constant _ h => exact constant_extends h hp
  | signed _ h => exact signed_extends ho h hp
  | grouping _ h => exact grouping_extends ho h hp
  | projection _ h => exact projection_extends ho h hp
  | conditional _ h => exact conditional_extends ho h hp
  | loop _ h => exact loop_extends ho h hp
  | letIn _ h => exact letIn_extends ho h hp

theorem operand_extends : Extending Parse.operand := by
  intro p t q h hp
  obtain ⟨n, h⟩ := operand_ok h
  exact operand_induction (P := Extending) (fun _ _ _ h => absurd h unexpected_ok)
    (fun _ => operandStep_extends) n h hp

/-- A reader of expressions, or of the operators behind a left operand. -/
inductive ReadsPart : Parser → Parser → Prop where
  | expression {p e q} : ReadsExpression p e q → ReadsPart p q
  | climb {floor lhs p t q} : climbFrom Parse.operand floor lhs p = .ok t q → ReadsPart p q

theorem ReadsPart.extends (h : ReadsPart p q) (hp : p.scopes.Valid) :
    p.scopes.Extends q.scopes := by
  cases h with
  | expression h =>
    cases h with
    | exp h => exact exp_extends operand_extends h hp
    | sequence h => exact sequence_extends operand_extends h hp
    | operators h => exact operators_extends operand_extends h hp
    | operand h => exact operand_extends h hp
  | climb h => exact climbs_extends operand_extends (climb_ok h) hp

/-! Statements. -/

theorem foldl_atTop_frames {v : Scopes} (bs : List Binding) (hscope : v.scope = Parser.fileScope)
    (h : v.Frames p.scopes.leave) : v.Frames (bs.foldl atTop p).scopes.leave := by
  have hbind : ∀ {w : Scopes} (key : Key) (x : Symbol), v.Frames w.leave →
      v.Frames (w.bind Parser.fileScope key x).leave := by
    intro w key x hw
    rw [Scopes.leave_bind, ← hscope, ← hw.scope]
    exact hw.bind key x
  induction bs generalizing p with
  | nil => exact h
  | cons b bs ih =>
    cases b with
    | value x body => exact ih (p := atTop p (.value x body)) (hbind (.ofName x.name) x h)
    | function x params body isRec scope =>
      exact ih (p := atTop p (.function x params body isRec scope))
        (hbind (.tag x.name) x (hbind (.ofName x.name) x h))

theorem stmt_frames {ss : List Stmt} (h : stmt p = .ok ss q) (hp : p.scopes.Valid)
    (hfile : p.scope = Parser.fileScope) : p.scopes.Frames q.scopes := by
  have hblock : (p.scopes.enter .block).Valid := p.scopes.enter_valid .block
  rcases stmt_ok h with ⟨r, rfl, ⟨_, h⟩ | h⟩
  · obtain ⟨bs, u, hbs, h⟩ := letStmt_ok h
    have hbs := letBindings_frame (p := p.enter .block) operand_extends hbs
    rcases h with ⟨item, u', hi, _, rfl, _⟩ | ⟨_, rfl, _⟩
    · have hu := finishLet_extends operand_extends hi hblock hbs
      exact (hu.toFrames.block hp).toFrames
    · have hleave := (hbs.block hblock).toFrames.block hp
      exact foldl_atTop_frames (p := u.leaveScope.advance) bs hfile hleave.toFrames
  · obtain ⟨e, u, he, _, rfl, _⟩ := expStmt_ok h
    have hu := exp_extends operand_extends he hblock
    exact (hu.toFrames.block hp).toFrames

theorem stmts_frame {n : Nat} {ss : List Stmt} (h : stmts n p = .ok ss q) (hp : p.scopes.Valid)
    (hfile : p.scope = Parser.fileScope) : p.scopes.Frames q.scopes := by
  induction n generalizing p ss with
  | zero =>
    obtain ⟨_, rfl⟩ := pure_ok.mp h
    exact .refl _
  | succ n ih =>
    rcases stmts_succ_ok h with ⟨_, _, h⟩ | ⟨_, first, r, others, hf, ho, _⟩ | ⟨_, _, rfl⟩
    · exact ih (p := p.advance) h hp hfile
    · have hr := stmt_frames hf hp hfile
      exact hr.trans (ih ho (hr.valid hp) (hr.scope.trans hfile))
    · exact .refl _

end Parse

namespace Arena

def ParentOf (a : Arena) (id parent : ScopeId) : Prop := a.parent? id = some parent

/-- The search for a key from a scope outwards, as many steps as it takes. -/
inductive Search (a : Arena) (key : Key) : ScopeId → Option Symbol → Prop where
  | bound {id x} : (a.bindings id).find? key = some x → Search a key id (some x)
  | outermost {id} : (a.bindings id).find? key = none →
      a.kind? id = some .file ∨ a.parent? id = none → Search a key id none
  | outwards {id parent found} : (a.bindings id).find? key = none → a.kind? id ≠ some .file →
      a.ParentOf id parent → Search a key parent found → Search a key id found

variable {a : Arena} {key : Key} {id : ScopeId}

/-- The bound of a look-up is never what ends it. -/
theorem search_lookup (hparents : ∀ j parent, a.ParentOf j parent → parent < j)
    (hid : id < a.size) {n : Nat} (hn : id < n) : a.Search key id (a.lookup key n id) := by
  induction n generalizing id with
  | zero => exact absurd hn (Nat.not_lt_zero id)
  | succ n ih =>
    rw [lookup_succ hid]
    cases hx : (a.bindings id).find? key with
    | some x => exact .bound hx
    | none =>
      rw [Option.none_or]
      by_cases hkind : a.kind? id = some .file
      · rw [if_pos hkind]
        exact .outermost hx (.inl hkind)
      · rw [if_neg hkind]
        cases hp : a.parent? id with
        | none => exact .outermost hx (.inr hp)
        | some parent =>
          have hlt := hparents id parent hp
          have hparent := ih (Nat.lt_trans hlt hid) (Nat.lt_of_lt_of_le hlt (Nat.le_of_lt_succ hn))
          exact .outwards hx hkind hp hparent

theorem parent?_of_size_le (h : a.size ≤ id) : a.parent? id = none := by
  rw [parent?, Array.getElem?_eq_none h]
  rfl

/-- Chains of parents lead to a file scope, and searches along them end. -/
structure Rooted (a : Arena) (root : ScopeId) : Prop where
  kind : a.kind? root = some .file
  parent : a.parent? root = none
  older : ∀ j parent, a.ParentOf j parent → parent < j
  chain : ∀ j, j < a.size → Relation.ReflTransGen a.ParentOf j root
  search : ∀ j, j < a.size → ∀ key, a.Search key j (a.resolve j key)

theorem rooted {root : ScopeId} (hkind : a.kind? root = some .file) (hroot : a.parent? root = none)
    (hparents : ∀ j, j < a.size → j ≠ root → ∃ parent, a.ParentOf j parent ∧ parent < j) :
    a.Rooted root := by
  have holder : ∀ j parent, a.ParentOf j parent → parent < j := by
    intro j parent hj
    have hsize : j < a.size := by
      rcases Nat.lt_or_ge j a.size with hlt | hge
      · exact hlt
      · rw [ParentOf, parent?_of_size_le hge] at hj
        cases hj
    have hne : j ≠ root := by
      rintro rfl
      rw [ParentOf, hroot] at hj
      cases hj
    obtain ⟨older, holder, hlt⟩ := hparents j hsize hne
    cases hj.symm.trans holder
    exact hlt
  refine ⟨hkind, hroot, holder, ?_, fun j hj key => search_lookup holder hj hj⟩
  intro j hj
  induction j using Nat.strongRecOn with
  | ind j ih =>
    by_cases hne : j = root
    · rw [hne]
    · obtain ⟨parent, hparent, hlt⟩ := hparents j hj hne
      exact .head hparent (ih parent hlt (Nat.lt_trans hlt hj))

end Arena

open Parse

theorem parse_rooted {tokens : TokenSequence} {program : Program}
    (h : parse tokens = .ok program) : program.arena.Rooted program.scope := by
  obtain ⟨p, hp, hscope, harena, _⟩ := parse_ok h
  have hframes : Scopes.initial.Frames p.scopes :=
    stmts_frame (p := .ofTokens tokens) hp Nat.zero_lt_one rfl
  rw [hscope, harena]
  refine Arena.rooted (hframes.kind 0 (by decide)) (hframes.parent 0 (by decide)) ?_
  intro id hid hne
  exact hframes.created id (Nat.pos_of_ne_zero hne) hid

/-- Expressions extend the scope they stand in and statements the file scope, and nothing else that
was there changes. So the scopes of a program are a tree under its file scope. -/
theorem scopes_balanced :
    (∀ ⦃p q : Parser⦄, ReadsPart p q → p.scopes.Valid → p.scopes.Extends q.scopes) ∧
    (∀ ⦃p : Parser⦄ ⦃ss : List Stmt⦄ ⦃q : Parser⦄, stmt p = .ok ss q → p.scopes.Valid →
      p.scope = Parser.fileScope → p.scopes.Frames q.scopes) ∧
    ∀ ⦃tokens : TokenSequence⦄ ⦃program : Program⦄, parse tokens = .ok program →
      program.arena.Rooted program.scope :=
  ⟨fun _ _ h hp => h.extends hp, fun _ _ _ h hp hfile => stmt_frames h hp hfile,
    fun _ _ h => parse_rooted h⟩

/-- A loop, a branch and a let inside a let, read as an expression, as a statement and as a
program. -/
theorem scopes_balanced_nested :
    ∃ tokens e q ss r program,
      tokenize "let x = 1 in while x < 2 do if x < 3 then let y = x in y else 4 done ;;" "shell" =
        .ok tokens ∧
      exp operand (.ofTokens tokens) = .ok e q ∧ Scopes.initial.Extends q.scopes ∧
      stmt (.ofTokens tokens) = .ok ss r ∧ Scopes.initial.Frames r.scopes ∧
      parse tokens = .ok program ∧ program.arena.size = 7 ∧
      program.arena.Rooted program.scope := by
  have hrun : ((tokenize
      "let x = 1 in while x < 2 do if x < 3 then let y = x in y else 4 done ;;"
      "shell").toOption.bind fun tokens =>
      ((exp operand).outcome? (.ofTokens tokens)).bind fun _ =>
        (stmt.outcome? (.ofTokens tokens)).bind fun _ =>
          (parse tokens).toOption.map fun program => program.arena.size) = some 7 := by
    decide +kernel
  obtain ⟨tokens, ht, hrun⟩ := Option.bind_eq_some_iff.mp hrun
  obtain ⟨⟨e, q⟩, he, hrun⟩ := Option.bind_eq_some_iff.mp hrun
  obtain ⟨⟨ss, r⟩, hs, hrun⟩ := Option.bind_eq_some_iff.mp hrun
  obtain ⟨program, hp, hsize⟩ := Option.map_eq_some_iff.mp hrun
  have he := Parse.outcome?_eq_some.mp he
  have hs := Parse.outcome?_eq_some.mp hs
  have hp := ok_of_toOption hp
  obtain ⟨hexpression, hstatement, hprogram⟩ := scopes_balanced
  exact ⟨tokens, e, q, ss, r, program, ok_of_toOption ht, he,
    hexpression (.expression (.exp he)) Nat.zero_lt_one, hs,
    hstatement hs Nat.zero_lt_one rfl, hp, hsize, hprogram hp⟩

end MiniMl
