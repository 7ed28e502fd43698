import MiniMl.Proofs.Parser.Derivation
import MiniMl.Proofs.Scope.Balance
import MiniMl.Proofs.Scope.Lexical

/-! # What the names of a program refer to

The parser resolves names as the tree tells, and gives each symbol that it makes to one binder.
So every use of a name in a program refers to a binder in front of it that may be used there.
-/

namespace MiniMl

/-- These occurrences bind the symbols with the numbers from `lo` up to `hi`, each one once. -/
structure Numbered (lo : Nat) (os : List Occurrence) (hi : Nat) : Prop where
  le : lo ≤ hi
  ids : ((binders os).map Symbol.id).Perm (List.range' lo (hi - lo))

section Numbered

variable {lo mid hi : Nat} {os ps : List Occurrence}

theorem Numbered.nothing (n : Nat) (h : binders os = []) : Numbered n os n := by
  refine ⟨Nat.le_refl n, ?_⟩
  rw [h, Nat.sub_self]
  exact .refl []

theorem Numbered.append (h : Numbered lo os mid) (h' : Numbered mid ps hi) :
    Numbered lo (os ++ ps) hi := by
  have hlow := h.le
  have hhigh := h'.le
  refine ⟨by omega, ?_⟩
  have hsplit : List.range' lo (mid - lo) ++ List.range' mid (hi - mid) =
      List.range' lo (hi - lo) := by
    have hmid : mid = lo + (mid - lo) := by omega
    have hlength : hi - lo = (mid - lo) + (hi - mid) := by omega
    rw [hlength, ← List.range'_append_1, ← hmid]
  rw [binders_append, List.map_append, ← hsplit]
  exact h.ids.append h'.ids

theorem Numbered.one {n : Nat} {b : Occurrence} (hb : b.binds = true) (hid : b.symbol.id = n) :
    Numbered n [b] (n + 1) := by
  refine ⟨Nat.le_succ n, ?_⟩
  simp [binders, hb, hid]

theorem Numbered.cons {b : Occurrence} (h : Numbered lo os hi) (hb : b.binds = true)
    (hid : b.symbol.id = hi) : Numbered lo (b :: os) (hi + 1) := by
  have hboth := h.append (.one hb hid)
  refine ⟨hboth.le, .trans ?_ hboth.ids⟩
  refine List.Perm.map _ (List.Perm.map _ (List.Perm.filter _ ?_))
  exact (List.perm_append_singleton b os).symm

theorem Numbered.nodup (h : Numbered lo os hi) : ((binders os).map Symbol.id).Nodup :=
  h.ids.nodup_iff.mpr (List.nodup_range' _)

theorem Parse.parameters_range (n : Nat) (tokens : List Token) (cells : List Cell) :
    (parameters n tokens cells).map Symbol.id =
      List.range' n (parameters n tokens cells).length := by
  induction tokens generalizing n cells with
  | nil => rfl
  | cons token tokens ih =>
    cases cells with
    | nil => rfl
    | cons cell cells =>
      rw [parameters, List.map_cons, ih, List.length_cons, List.range'_succ]
      rfl

theorem Numbered.parameters {f : Symbol} {w : List Enclosure} (n : Nat) (tokens : List Token)
    (cells : List Cell) :
    Numbered n ((Parse.parameters n tokens cells).map (.ofBinder (.parameter f) w))
      (n + (Parse.parameters n tokens cells).length) := by
  refine ⟨Nat.le_add_right _ _, ?_⟩
  rw [binders_parameters, Parse.parameters_range, Nat.add_sub_cancel_left]

end Numbered

namespace Scopes

variable {u v w r : Scopes}

theorem enter_outer {kind : ScopeKind} (hv : v.Formed) (hk : kind ≠ .file) :
    (v.enter kind).outer = v.here.behind v.outer := by
  funext k
  have hkind : (v.enter kind).arena.kind? v.arena.size = some kind :=
    (Arena.kind?_create _ _ _ _).trans (if_pos rfl)
  have hparent : (v.enter kind).arena.parent? v.arena.size = some v.scope :=
    (Arena.parent?_create _ _ _ _).trans (if_pos rfl)
  have hs := hv.scope
  have hsize : (v.enter kind).arena.size = v.arena.size + 1 := Arena.size_create _ _ _
  have hlt : v.scope < (v.enter kind).arena.size := hsize ▸ Nat.lt_succ_of_lt hs
  have hne : some kind ≠ some ScopeKind.file := fun h => hk (Option.some.inj h)
  change (if (v.enter kind).arena.kind? v.arena.size = some .file then none
    else ((v.enter kind).arena.parent? v.arena.size).bind fun parent =>
      (v.enter kind).arena.resolve parent k) = _
  rw [hkind, if_neg hne, hparent, Option.bind_some, ← hv.resolve k]
  refine Arena.lookup_congr ?_ hv.parents hs hlt hlt hs
  intro j hj
  have hj : j ≠ v.arena.size := Nat.ne_of_lt (Nat.lt_of_le_of_lt hj hs)
  exact ⟨Arena.bindings_create _ _ _ _, (Arena.kind?_create _ _ _ _).trans (if_neg hj),
    (Arena.parent?_create _ _ _ _).trans (if_neg hj)⟩

/-- From here, names are resolved as the tree tells, and up to the number `n`, the symbols that
are made go to the binders of the tree. -/
structure Resolves (v : Scopes) (resolved : Names → Names → Prop)
    (occurrences : List Enclosure → List Occurrence) (n : Nat) : Prop where
  resolved : resolved v.here v.outer
  numbered : ∀ c, Numbered v.symbols (occurrences c) n

structure Reads (v : Scopes) (e : Names) (resolved : Names → Names → Prop)
    (occurrences : List Enclosure → List Occurrence) (w : Scopes) : Prop
    extends v.Leaves e w, v.Resolves resolved occurrences w.symbols

variable {e e' : Names} {R R' : Names → Names → Prop} {T : Names → Names}
  {O O' : List Enclosure → List Occurrence} {n : Nat}

theorem Resolves.andThen (h : v.Resolves R O r.symbols) (hm : v.Moves r)
    (hhere : r.here = T v.here) (h' : r.Resolves R' O' n) :
    v.Resolves (fun f g => R f g ∧ R' (T f) g) (fun c => O c ++ O' c) n where
  resolved := by
    refine ⟨h.resolved, ?_⟩
    have hr := h'.resolved
    rwa [hhere, hm.keeps.outer hm.start.formed] at hr
  numbered := fun c => (h.numbered c).append (h'.numbered c)

theorem Reads.before (h : v.Reads e R O r) (h' : r.Resolves R' O' n) :
    v.Resolves (fun f g => R f g ∧ R' (f.behind e) g) (fun c => O c ++ O' c) n :=
  h.toResolves.andThen (T := (·.behind e)) h.toMoves h.here h'

theorem Reads.trans (h : v.Reads e R O r) (h' : r.Reads e' R' O' w) :
    v.Reads (e.behind e') (fun f g => R f g ∧ R' (f.behind e) g) (fun c => O c ++ O' c) w where
  toLeaves := h.toLeaves.trans h'.toLeaves
  toResolves := h.before h'.toResolves

theorem Resolves.block {kind : ScopeKind} (hv : v.Formed) (hk : kind ≠ .file)
    (h : (v.enter kind).Resolves R O n) : v.Resolves (fun f g => R .empty (f.behind g)) O n where
  resolved := by
    have hr := h.resolved
    rwa [enter_here, enter_outer hv hk] at hr
  numbered := h.numbered

/-- The second branch is read from a state in which the first one has left nothing. -/
theorem Resolves.either (h : v.Resolves (fun f g => R .empty (f.behind g)) O r.symbols)
    (hl : v.Leaves .empty r) (h' : r.Resolves (fun f g => R' .empty (f.behind g)) O' n) :
    v.Resolves (fun f g => R .empty (f.behind g) ∧ R' .empty (f.behind g))
      (fun c => O c ++ O' (.otherwise (binders (O c)) :: c)) n where
  resolved := by
    refine ⟨h.resolved, ?_⟩
    have hr := h'.resolved
    rwa [hl.here, Names.behind_empty, hl.keeps.outer hl.start.formed] at hr
  numbered := fun c => (h.numbered c).append (h'.numbered _)

end Scopes

abbrev Term.Read (t : Term) (v w : Scopes) : Prop :=
  v.Reads t.exports t.Resolved (fun c => t.occurrences c) w

abbrev Exp.Read (e : Exp) (v w : Scopes) : Prop :=
  v.Reads e.exports e.Resolved (fun c => e.occurrences c) w

namespace Parse

variable {p q : Parser}

section Expressions

variable {operand other : Parse Term}

def TermReader (item : Parse Term) : Prop :=
  ∀ ⦃p t q⦄, item p = .ok t q → p.scopes.Reachable → t.Read p.scopes q.scopes

def ExpReader (item : Parse Exp) : Prop :=
  ∀ ⦃p e q⦄, item p = .ok e q → p.scopes.Reachable → e.Read p.scopes q.scopes

theorem TermReader.exports (ho : TermReader operand) : Exports Term.exports operand :=
  fun _ _ _ h hp => (ho h hp).toLeaves

theorem resolves_use (use : NameUse) (role : Role) (hp : p.scopes.Reachable)
    (hx : p.arena.findToken? p.scope use.token = some use.symbol) (hrole : role.binds = false) :
    use.Resolved (p.scopes.here.behind p.scopes.outer) ∧
      ∀ c n, Numbered n [.ofUse role c use] n := by
  constructor
  · rw [NameUse.Resolved, ← hp.formed.resolve]
    exact hx
  · intro c n
    exact .nothing n (by simp [binders, Occurrence.binds, Occurrence.ofUse, hrole])

theorem separated_reads {es : List Exp} {item : Parse Exp} (hi : ExpReader item)
    (h : Separated .comma item p es q) (hp : p.scopes.Reachable) :
    p.scopes.Reads (Exp.listExports es) (Exp.listResolved es)
      (fun c => Exp.listOccurrences c es) q.scopes := by
  induction h with
  | last hx =>
    have hr := hi hx hp
    refine ⟨?_, ⟨hr.resolved, trivial⟩, ?_⟩
    · rw [Exp.listExports, Exp.listExports, Names.behind_empty]
      exact hr.toLeaves
    · intro c
      rw [Exp.listOccurrences, Exp.listOccurrences, List.append_nil]
      exact hr.numbered c
  | cons hx _ _ ih =>
    have hr := hi hx hp
    exact hr.trans (ih hr.stop)

theorem reads_nothing {R : Names → Names → Prop} (hp : p.scopes.Reachable)
    (hR : R p.scopes.here p.scopes.outer) : p.scopes.Reads .empty R (fun _ => []) p.scopes :=
  ⟨.refl hp, hR, fun _ => .nothing _ rfl⟩

theorem parenthesised_reads {es : List Exp} {item : Parse Exp} (hi : ExpReader item)
    (h : Parenthesised item p es q) (hp : p.scopes.Reachable) :
    p.scopes.Reads (Exp.listExports es) (Exp.listResolved es)
      (fun c => Exp.listOccurrences c es) q.scopes := by
  cases h with
  | unit => exact reads_nothing hp trivial
  | items _ hs _ =>
    have hq := separated_reads hi hs hp
    exact hq

theorem chained_reads (ho : TermReader operand) {ts : List Term} (h : Chained operand p ts q)
    (hp : p.scopes.Reachable) :
    p.scopes.Reads (Term.listExports ts) (Term.listResolved ts)
      (fun c => Term.listOccurrences c ts) q.scopes := by
  induction h with
  | stop => exact reads_nothing hp trivial
  | cons _ ht _ ih =>
    have hr := ho ht hp
    exact hr.trans (ih hr.stop)

theorem climbs_reads (ho : TermReader operand) {v : Scopes} {floor : Nat} {lhs t : Term}
    (h : Climbs operand floor lhs p t q) (hp : lhs.Read v p.scopes) : t.Read v q.scopes := by
  induction h generalizing v with
  | stop => exact hp
  | step _ _ hf _ _ _ ihr ih =>
    have hr := ho hf hp.stop
    exact ih (hp.trans (ihr hr))

theorem operators_reads (ho : TermReader operand) : TermReader (operators operand) := by
  intro p t q h hp
  obtain ⟨first, r, hf, h⟩ := operators_ok h
  exact climbs_reads ho h (ho hf hp)

theorem sequence_reads (ho : TermReader operand) : TermReader (sequence operand) := by
  intro p t q h hp
  have hs := sequence_ok h
  clear h
  induction hs with
  | last h => exact operators_reads ho h hp
  | cons hf _ _ ih =>
    have hr := operators_reads ho hf hp
    exact hr.trans (ih hr.stop)

theorem signature_isFunction {x : Symbol} {f : Signature} (h : x.signature? = some f) :
    x.isFunction = true := by
  rw [Symbol.isFunction, h]
  rfl

theorem application_reads (ho : TermReader operand) : ExpReader (application operand) := by
  intro p e q h hp
  obtain ⟨x, f, args, r, c, s, hx, hf, ha, _, rfl, rfl⟩ := application_ok h
  have hr := chained_reads ho ha hp
  obtain ⟨huse, hnumbered⟩ := resolves_use ⟨p.peek, x⟩ .callee hp hx rfl
  exact ⟨hr.toLeaves, ⟨⟨huse, signature_isFunction hf⟩, hr.resolved⟩,
    fun c => (hnumbered c _).append (hr.numbered c)⟩

theorem chainOr_reads (ho : TermReader operand) (hother : TermReader other) :
    ExpReader (chainOr operand other) := by
  intro p e q h hp
  rcases chainOr_ok h with ⟨_, _, h⟩ | ⟨item, hi, rfl⟩
  · exact application_reads ho h hp
  · exact hother hi hp

theorem exp_reads (ho : TermReader operand) : ExpReader (exp operand) :=
  chainOr_reads ho (sequence_reads ho)

theorem constant_reads : TermReader constant := by
  intro p t q h hp
  obtain ⟨value, c, s, _, _, rfl, rfl⟩ := constant_ok h
  exact reads_nothing (p := p) hp trivial

theorem signed_reads (ho : TermReader operand) : TermReader (signed operand) := by
  intro p t q h hp
  obtain ⟨inner, r, c, s, hi, _, rfl, rfl⟩ := signed_ok h
  have hr := ho hi hp
  exact hr

theorem name_reads (ho : TermReader operand) : TermReader (name operand) := by
  intro p t q h hp
  rcases name_ok h with ⟨x, hx, ⟨f, args, r, c, s, hf, ha, _, rfl, rfl⟩ | ⟨rfl, rfl⟩⟩
  · have hr := parenthesised_reads (exp_reads ho) ha hp
    obtain ⟨huse, hnumbered⟩ := resolves_use ⟨p.peek, x⟩ .callee hp hx rfl
    exact ⟨hr.toLeaves, ⟨⟨huse, signature_isFunction hf⟩, hr.resolved⟩,
      fun c => (hnumbered c _).append (hr.numbered c)⟩
  · obtain ⟨huse, hnumbered⟩ := resolves_use ⟨p.peek, x⟩ .reference hp hx rfl
    exact ⟨.refl hp, huse, fun c => hnumbered c _⟩

theorem grouping_reads (ho : TermReader operand) : TermReader (grouping operand) := by
  intro p t q h hp
  rcases grouping_ok h with
    ⟨first, r, hf, ⟨_, second, u, c, s, hs, _, _, rfl, rfl⟩ | ⟨_, rfl, rfl⟩⟩
  · have hr := exp_reads ho hf hp
    have hu := exp_reads ho hs hr.stop
    exact hr.trans hu
  · have hr := exp_reads ho hf hp
    exact hr

theorem projection_reads (ho : TermReader operand) : TermReader (projection operand) := by
  intro p t q h hp
  obtain ⟨first, r, second, u, _, hf, _, hs, _, rfl, rfl⟩ := projection_ok h
  have hr := exp_reads ho hf hp
  have hu := exp_reads ho hs hr.stop
  exact hr.trans hu

theorem branch_resolves (ho : TermReader operand) {b : Exp × ScopeId}
    (h : branch operand p = .ok b q) (hp : p.scopes.Reachable) :
    p.scopes.Resolves (fun f g => b.1.Resolved .empty (f.behind g))
      (fun c => b.1.occurrences c) q.symbols := by
  obtain ⟨r, he, _, rfl⟩ := branch_ok h
  have hr := chainOr_reads ho (operators_reads ho) he (hp.enter .block)
  exact hr.toResolves.block hp.formed (by decide)

/-- The branches are read one after the other, but from the same names. -/
theorem conditional_reads (ho : TermReader operand) : TermReader (conditional operand) := by
  intro p t q h hp
  have hleaves := conditional_exports ho.exports h hp
  obtain ⟨condition, r, first, u, second, v, c, s, hc, _, hf, hs, _, rfl, rfl⟩ :=
    conditional_ok h
  have hr := exp_reads ho hc hp
  have hfirst := branch_resolves ho hf hr.stop
  obtain ⟨hu, _⟩ := branch_exports ho.exports hf hr.stop
  rcases elseBranch_ok hs with ⟨_, b, hb, rfl⟩ | ⟨rfl, rfl⟩
  · have hsecond := branch_resolves ho hb hu.stop
    have hboth := hfirst.either hu hsecond
    exact ⟨hleaves, hr.before hboth⟩
  · have hnone : v.scopes.Resolves (fun f g => Exp.elseResolved none .empty (f.behind g))
        (fun c => Exp.elseOccurrences c none) v.symbols := ⟨trivial, fun _ => .nothing _ rfl⟩
    have hone := hfirst.either hu hnone
    exact ⟨hleaves, hr.before hone⟩

theorem loop_reads (ho : TermReader operand) : TermReader (loop operand) := by
  intro p t q h hp
  have hleaves := loop_exports ho.exports h hp
  obtain ⟨condition, r, body, u, c, s, hc, _, hb, _, _, rfl, rfl⟩ := loop_ok h
  have hr := exp_reads ho hc hp
  have hu := exp_reads ho hb (hr.stop.enter .block)
  have hbody := hu.toResolves.block hr.stop.formed (by decide)
  exact ⟨hleaves, hr.before hbody⟩

theorem defineAll_here (hp : p.scopes.Reachable) (xs : List Symbol)
    (hxs : ∀ x ∈ xs, x.id < p.symbols) :
    (p.defineAll xs).scopes.here = p.scopes.here.bindAll xs := by
  induction xs generalizing p with
  | nil => rfl
  | cons x xs ih =>
    obtain ⟨hx, hxs⟩ := List.forall_mem_cons.mp hxs
    have hq := ih (p := p.define x) (hp.bind p.scope (.ofName x.name) hx) hxs
    rw [Names.bindAll, List.foldl_cons, ← Scopes.here_bind hp.formed]
    exact hq

theorem defineAll_symbols (p : Parser) (xs : List Symbol) :
    (p.defineAll xs).symbols = p.symbols := by
  induction xs generalizing p with
  | nil => rfl
  | cons x xs ih => exact ih (p.define x)

theorem enterFunction_scopes {p₁ p₂ : Parser} {s : Store} {x : Symbol} {isRec : Bool}
    (hscopes : p₁.scopes = p.scopes) (hp : p.scopes.Reachable) (hid : x.id = p.symbols)
    (hp₂ : p₂ = (bif isRec then ((p₁.numbered 1).withStore s).define x
      else (p₁.numbered 1).withStore s).enter .function) :
    ∃ v : Scopes, v.Reachable ∧ p₂.scopes = v.enter .function ∧ v.symbols = p.symbols + 1 ∧
      v.here = (if isRec then p.scopes.here.set (.ofName x.name) x else p.scopes.here) ∧
      v.outer = p.scopes.outer := by
  have hnumbered := hp.numbered 1
  have hkeeps := Scopes.Keeps.numbered p.scopes 1
  cases isRec
  · refine ⟨p.scopes.numbered 1, hnumbered, ?_, rfl, rfl, hkeeps.outer hp.formed⟩
    rw [hp₂]
    exact congrArg (fun v => (Scopes.numbered v 1).enter .function) hscopes
  · have hmade : x.id < (p.scopes.numbered 1).symbols := hid ▸ Nat.lt_succ_self _
    refine ⟨(p.scopes.numbered 1).bind p.scope (.ofName x.name) x, hnumbered.bind _ _ hmade, ?_,
      rfl, Scopes.here_bind hnumbered.formed _ x, (hkeeps.trans (.bind _ _ x)).outer hp.formed⟩
    rw [hp₂]
    exact congrArg (fun v =>
      ((Scopes.numbered v 1).bind v.scope (.ofName x.name) x).enter .function) hscopes

theorem defineParameters_scopes {v : Scopes} (hv : v.Reachable)
    (henter : p.scopes = v.enter .function) {params : List Symbol}
    (hids : ∀ y ∈ params, p.symbols ≤ y.id ∧ y.id < p.symbols + params.length) :
    ((p.numbered params.length).defineAll params).scopes.Reachable ∧
      ((p.numbered params.length).defineAll params).scopes.here = Names.empty.bindAll params ∧
      ((p.numbered params.length).defineAll params).scopes.outer = v.here.behind v.outer ∧
      ((p.numbered params.length).defineAll params).symbols = v.symbols + params.length := by
  have hstart : p.scopes.Reachable := henter ▸ hv.enter .function
  have hmoves : p.scopes.Moves ((p.numbered params.length).defineAll params).scopes :=
    defineAll_moves (p := p.numbered params.length) ((Scopes.Moves.refl hstart).numbered _)
      params hids
  refine ⟨hmoves.stop, ?_, ?_, ?_⟩
  · have hempty : (p.numbered params.length).scopes.here = .empty := by
      change p.scopes.here = .empty
      rw [henter, Scopes.enter_here]
    rw [defineAll_here (hstart.numbered _) params fun y hy => (hids y hy).2, hempty]
  · rw [hmoves.keeps.outer hstart.formed, henter, Scopes.enter_outer hv.formed (by decide)]
  · rw [defineAll_symbols]
    exact congrArg (·.symbols + params.length) henter

/-- The body of a function is read in a scope that binds the parameters, inside one that binds the
function itself if it is recursive. -/
theorem function_resolves (ho : TermReader operand) {name : Token} {isRec : Bool} {b : Binding}
    (h : function operand name isRec p = .ok b q) (hp : p.scopes.Reachable) :
    p.scopes.Resolves b.Resolved (fun c => b.occurrences c) q.symbols := by
  obtain ⟨tokens, p₁, f, s₁, x, s₂, p₂, params, body, p₃, s₃, ht, _, hx, hp₂, hparams, _, hb, _,
    rfl, hq⟩ := function_ok h
  have hscopes := parenthesised_names ht
  have hid : x.id = p.symbols := by
    obtain ⟨c, _, rfl⟩ := functionOf_ok.mp hx
    exact congrArg Scopes.symbols hscopes
  have hqs : q.symbols = p₃.symbols := by
    rw [hq]
    cases isRec
    · rfl
    · rfl
  obtain ⟨v, hv, henter, hsymbols, hhere, houter⟩ := enterFunction_scopes hscopes hp hid hp₂
  have hids : ∀ y ∈ params, p₂.symbols ≤ y.id ∧ y.id < p₂.symbols + params.length := by
    rw [hparams]
    exact parameters_ids
  obtain ⟨hstart, hnames, hseen, hmade⟩ := defineParameters_scopes hv henter hids
  have hread := exp_reads ho hb hstart
  constructor
  · have hr := hread.resolved
    change body.Resolved ((p₂.numbered params.length).defineAll params).scopes.here
      ((p₂.numbered params.length).defineAll params).scopes.outer at hr
    rw [hnames, hseen, hhere, houter] at hr
    exact hr
  · intro c
    have hfunction : Numbered p.symbols [.ofBinder .function c x] (p.symbols + 1) := .one rfl hid
    have hp₂s : p₂.symbols = v.symbols := congrArg Scopes.symbols henter
    have hps : Numbered v.symbols (params.map (.ofBinder (.parameter x) c))
        (v.symbols + params.length) := by
      rw [hparams, hp₂s]
      exact .parameters _ _ _
    have hbody : Numbered (v.symbols + params.length)
        (body.occurrences (.body x isRec :: c)) p₃.symbols := hmade ▸ hread.numbered _
    rw [← hsymbols] at hfunction
    rw [hqs]
    exact hfunction.append (hps.append hbody)

theorem binding_resolves (ho : TermReader operand) {isRec : Bool} {b : Binding}
    (h : binding operand isRec p = .ok b q) (hp : p.scopes.Reachable) :
    p.scopes.Resolves b.Resolved (fun c => b.occurrences c) q.symbols := by
  rcases binding_ok h with ⟨_, h | ⟨body, r, _, hb, rfl, rfl⟩⟩
  · have hq := function_resolves ho h hp
    exact hq
  · have hr := exp_reads ho hb hp
    exact ⟨hr.resolved, fun c => (hr.numbered (.value _ :: c)).cons rfl rfl⟩

theorem bindings_resolve (ho : TermReader operand) {isRec : Bool} {bs : List Binding}
    (h : Separated .andWord (binding operand isRec) p bs q) (hp : p.scopes.Reachable) :
    p.scopes.Resolves (Binding.listResolved bs) (fun c => Binding.listOccurrences c bs)
      q.symbols := by
  induction h with
  | last hb =>
    have hq := binding_resolves ho hb hp
    refine ⟨⟨hq.resolved, trivial⟩, ?_⟩
    intro c
    rw [Binding.listOccurrences, Binding.listOccurrences, List.append_nil]
    exact hq.numbered c
  | cons hb _ _ ih =>
    have hr := binding_binds ho.exports hb hp
    exact (binding_resolves ho hb hp).andThen hr.toMoves hr.here (ih hr.stop)

theorem letBindings_resolve (ho : TermReader operand) {isRec : Bool} {bs : List Binding}
    (h : Separated .andWord (binding operand isRec) ((p.advance.skip .recWord).enter .block) bs q)
    (hp : p.scopes.Reachable) :
    (p.scopes.enter .block).Resolves (Binding.listResolved bs)
      (fun c => Binding.listOccurrences c bs) q.symbols := by
  have hbs := bindings_resolve ho h (letEntered_scopes p ▸ hp.enter .block)
  rwa [letEntered_scopes] at hbs

theorem finishLet_resolves (ho : TermReader operand) {v : Scopes} {token : Token}
    {bs : List Binding} {source : ScopeId} {t : Term}
    (h : finishLet operand token bs source p = .ok t q) (hv : v.Reachable)
    (hm : (v.enter .block).Moves p.scopes)
    (hhere : p.scopes.here = Binding.listBinds bs (v.enter .block).here)
    (hbs : (v.enter .block).Resolves (Binding.listResolved bs)
      (fun c => Binding.listOccurrences c bs) p.symbols) :
    v.Resolves t.Resolved (fun c => t.occurrences c) q.symbols := by
  obtain ⟨body, r, _, hb, rfl, rfl⟩ := finishLet_ok h
  have hr := exp_reads ho hb hm.stop
  exact (hbs.andThen hm hhere hr.toResolves).block hv.formed (by decide)

theorem letIn_reads (ho : TermReader operand) : TermReader (letIn operand) := by
  intro p t q h hp
  have hleaves := letIn_exports ho.exports h hp
  obtain ⟨bs, r, hbs, h⟩ := letIn_ok h
  obtain ⟨hm, hhere, _⟩ := letBindings_bind ho.exports hbs hp
  exact ⟨hleaves, finishLet_resolves ho h hp hm hhere (letBindings_resolve ho hbs hp)⟩

theorem operandStep_reads (ho : TermReader operand) : TermReader (operandStep operand) := by
  intro p t q h hp
  cases operandStep_ok h with
  | name _ h => exact name_reads ho h hp
  | constant _ h => exact constant_reads h hp
  | signed _ h => exact signed_reads ho h hp
  | grouping _ h => exact grouping_reads ho h hp
  | projection _ h => exact projection_reads ho h hp
  | conditional _ h => exact conditional_reads ho h hp
  | loop _ h => exact loop_reads ho h hp
  | letIn _ h => exact letIn_reads ho h hp

theorem operand_reads : TermReader Parse.operand := by
  intro p t q h hp
  obtain ⟨n, h⟩ := operand_ok h
  exact operand_induction (P := TermReader) (fun _ _ _ h => absurd h unexpected_ok)
    (fun _ => operandStep_reads) n h hp

end Expressions

end Parse

/-! Statements: definitions are bound in the file scope too. -/

/-- What a definition at the top level binds. -/
def Names.publish (f : Names) : Binding → Names
  | .value x _ => f.set (.ofName x.name) x
  | .function x _ _ _ _ => (f.set (.ofName x.name) x).set (.tag x.name) x

theorem Names.publish_behind (f g : Names) (b : Binding) :
    (f.publish b).behind g = (f.behind g).publish b := by
  cases b with
  | value x body => exact set_behind f g _ x
  | function x params body isRec scope => rw [publish, set_behind, set_behind, publish]

theorem Names.foldl_publish_behind (f g : Names) (bs : List Binding) :
    (bs.foldl publish f).behind g = bs.foldl publish (f.behind g) := by
  induction bs generalizing f with
  | nil => rfl
  | cons b bs ih => rw [List.foldl_cons, List.foldl_cons, ih, publish_behind]

theorem Binding.occurs (w : List Enclosure) {bs : List Binding} {b : Binding} (hb : b ∈ bs) :
    ∃ o ∈ Binding.listOccurrences w bs, o.symbol = b.symbol ∧ o.UsableIn [] := by
  induction bs with
  | nil => cases hb
  | cons a bs ih =>
    rw [listOccurrences]
    rcases List.mem_cons.mp hb with rfl | hb
    · cases b with
      | value x body =>
        exact ⟨.ofBinder .value w x, List.mem_append_left _ List.mem_cons_self, rfl,
          ⟨rfl, by simp, by simp [Occurrence.ofBinder]⟩⟩
      | function x params body isRec scope =>
        exact ⟨.ofBinder .function w x, List.mem_append_left _ List.mem_cons_self, rfl,
          ⟨rfl, by simp, by simp [Occurrence.ofBinder]⟩⟩
    · obtain ⟨o, ho, hsymbol, hu⟩ := ih hb
      exact ⟨o, List.mem_append_right _ ho, hsymbol, hu⟩

theorem Covers.publish {before : List Occurrence} {seen : Names} (h : Covers before [] seen)
    {bs : List Binding} (hbs : ∀ b ∈ bs, ∃ o ∈ before, o.symbol = b.symbol ∧ o.UsableIn []) :
    Covers before [] (bs.foldl Names.publish seen) := by
  induction bs generalizing seen with
  | nil => exact h
  | cons b bs ih =>
    obtain ⟨hb, hbs⟩ := List.forall_mem_cons.mp hbs
    refine ih ⟨?_, h.placed⟩ hbs
    cases b with
    | value x body => exact h.visible.set ⟨x.namedBy_ofName, hb⟩
    | function x params body isRec scope =>
      exact (h.visible.set ⟨x.namedBy_ofName, hb⟩).set ⟨x.namedBy_tag x.name, hb⟩

def Scopes.seen (v : Scopes) : Names := v.here.behind v.outer

theorem Scopes.Leaves.seen {v w : Scopes} (h : v.Leaves .empty w) : w.seen = v.seen := by
  rw [Scopes.seen, h.here, Names.behind_empty, h.keeps.outer h.start.formed, Scopes.seen]

/-- The file scope is current behind the scope of a statement, whatever is bound in it. -/
theorem Scopes.bind_file {v : Scopes} (hv : v.leave.Reachable)
    (hscope : v.leave.scope = Parser.fileScope) (key : Key) {x : Symbol} (hx : x.id < v.symbols) :
    (v.bind Parser.fileScope key x).leave.Reachable ∧
      (v.bind Parser.fileScope key x).leave.scope = Parser.fileScope ∧
      (v.bind Parser.fileScope key x).leave.here = v.leave.here.set key x := by
  rw [Scopes.leave_bind, ← hscope]
  exact ⟨hv.bind v.leave.scope key hx, rfl, Scopes.here_bind hv.formed key x⟩

namespace Parse

variable {p q : Parser}

theorem atTop_here {b : Binding} (hp : p.scopes.leave.Reachable)
    (hscope : p.scopes.leave.scope = Parser.fileScope) (hb : b.symbol.id < p.symbols) :
    (atTop p b).scopes.leave.Reachable ∧ (atTop p b).scopes.leave.scope = Parser.fileScope ∧
      (atTop p b).scopes.leave.here = p.scopes.leave.here.publish b := by
  cases b with
  | value x body => exact Scopes.bind_file hp hscope (.ofName x.name) hb
  | function x params body isRec scope =>
    obtain ⟨hr, hs, hhere⟩ := Scopes.bind_file hp hscope (.ofName x.name) hb
    have htag := Scopes.bind_file hr hs (.tag x.name) hb
    rw [hhere] at htag
    exact htag

theorem foldl_atTop_here {bs : List Binding} (hp : p.scopes.leave.Reachable)
    (hscope : p.scopes.leave.scope = Parser.fileScope)
    (hbs : ∀ b ∈ bs, b.symbol.id < p.symbols) :
    (bs.foldl atTop p).scopes.leave.here = bs.foldl Names.publish p.scopes.leave.here ∧
      (bs.foldl atTop p).symbols = p.symbols := by
  induction bs generalizing p with
  | nil => exact ⟨rfl, rfl⟩
  | cons b bs ih =>
    obtain ⟨hb, hbs⟩ := List.forall_mem_cons.mp hbs
    obtain ⟨hr, hs, hhere⟩ := atTop_here hp hscope hb
    have hsymbols : (atTop p b).symbols = p.symbols := by
      cases b with
      | value x body => rfl
      | function x params body isRec scope => rfl
    rw [← hsymbols] at hbs
    obtain ⟨hq, hn⟩ := ih hr hs hbs
    rw [hhere] at hq
    exact ⟨hq, hn.trans hsymbols⟩

/-- What a statement reads and does to the names of the file: an expression leaves them alone, and
definitions are added to them. -/
inductive StmtResolves (v : Scopes) (os : List Occurrence) (w : Scopes) : Prop where
  | exp (e : Exp) : os = e.occurrences [] →
      (v.enter .block).Resolves e.Resolved (fun c => e.occurrences c) w.symbols →
      w.seen = v.seen → StmtResolves v os w
  | define (bs : List Binding) : os = Binding.listOccurrences [] bs →
      ((v.enter .block).enter .block).Resolves (Binding.listResolved bs)
        (fun c => Binding.listOccurrences c bs) w.symbols →
      w.seen = bs.foldl Names.publish v.seen → StmtResolves v os w

theorem letStmt_resolves {token : Token} {block : ScopeId} {ss : List Stmt}
    (h : letStmt token block (p.enter .block) = .ok ss q) (hp : p.scopes.Reachable)
    (hfile : p.scope = Parser.fileScope) (hkeeps : p.scopes.Keeps q.scopes.leave) :
    StmtResolves p.scopes (ss.flatMap Stmt.occurrences) q.scopes.leave := by
  obtain ⟨bs, r, hbs, h⟩ := letStmt_ok h
  have hblock : (p.enter .block).scopes.Reachable := hp.enter .block
  obtain ⟨hm, hhere, hmade⟩ := letBindings_bind operand_exports hbs hblock
  have hres := letBindings_resolve operand_reads hbs hblock
  rcases h with ⟨item, u, hi, _, rfl, rfl⟩ | ⟨_, rfl, rfl⟩
  · have hsize : ((p.enter .block).advance.skip .recWord).arena.size =
        (p.enter .block).scopes.arena.size :=
      congrArg (fun v => v.arena.size) (letWords_scopes (p.enter .block))
    have hitem := finishLet_resolves operand_reads hi hblock hm hhere hres
    rw [hsize] at hi
    have hu := finishLet_exports operand_exports hi hblock hm hhere
    refine .exp (.single token item block) (List.flatMap_singleton _ _) hitem ?_
    exact (hu.block hp).1.seen
  · have hleave := (hm.block hblock).1.block hp
    have hscope : r.scopes.leave.leave.scope = Parser.fileScope := hleave.1.keeps.scope.trans hfile
    obtain ⟨hq, hsymbols⟩ := foldl_atTop_here (p := r.leaveScope.advance) hleave.1.stop hscope hmade
    refine .define bs (Binding.flatMap_occurrences bs token block) ?_ ?_
    · change Scopes.Resolves _ _ _ (bs.foldl atTop r.leaveScope.advance).symbols
      rw [hsymbols]
      exact hres
    · have hsame : r.leaveScope.advance.scopes.leave.here = p.scopes.here :=
        hleave.1.here.trans (Names.behind_empty _)
      rw [Scopes.seen, hkeeps.outer hp.formed, hq, hsame, Names.foldl_publish_behind]
      rfl

theorem stmt_resolves {ss : List Stmt} (h : stmt p = .ok ss q) (hp : p.scopes.Reachable)
    (hfile : p.scope = Parser.fileScope) :
    StmtResolves p.scopes (ss.flatMap Stmt.occurrences) q.scopes := by
  have hkeeps := (stmt_frames h hp.formed.scope hfile).toKeeps
  rcases stmt_ok h with ⟨r, rfl, ⟨_, h⟩ | h⟩
  · exact letStmt_resolves h hp hfile hkeeps
  · obtain ⟨e, u, he, _, rfl, rfl⟩ := expStmt_ok h
    have hu := exp_reads operand_reads he (hp.enter .block)
    refine .exp e ?_ hu.toResolves (hu.toLeaves.block hp).1.seen
    rw [List.flatMap_singleton]
    cases hv : e.var? with
    | none => rfl
    | some use =>
      obtain ⟨root, scope, rfl⟩ := exp_of_var? hv
      rfl

theorem StmtResolves.grounded {v w : Scopes} {before os : List Occurrence}
    (h : StmtResolves v os w) (hv : v.Reachable) (hc : Covers before [] v.seen)
    (hn : Numbered 0 before v.symbols) :
    Grounded before os ∧ Covers (before ++ os) [] w.seen ∧ Numbered 0 (before ++ os) w.symbols := by
  cases h with
  | exp e hos hr hseen =>
    have hr := hr.block hv.formed (by decide)
    have hn := hn.append (hr.numbered [])
    have hnodup := hn.nodup.of_map
    obtain ⟨hg, _⟩ := e.scoped.block hr.resolved hc hnodup
    rw [hos, hseen]
    exact ⟨hg, hc.later _, hn⟩
  | define bs hos hr hseen =>
    have hr := (hr.block (hv.enter .block).formed (by decide)).block hv.formed (by decide)
    have hn := hn.append (hr.numbered [])
    have hnodup := hn.nodup.of_map
    obtain ⟨hg, _⟩ := (Binding.list_scoped bs).block.block hr.resolved hc hnodup
    rw [hos, hseen]
    refine ⟨hg, (hc.later _).publish ?_, hn⟩
    intro b hb
    obtain ⟨o, ho, hu⟩ := Binding.occurs [] hb
    exact ⟨o, List.mem_append_right before ho, hu⟩

theorem stmts_grounded {n : Nat} {ss : List Stmt} {before : List Occurrence}
    (h : stmts n p = .ok ss q) (hp : p.scopes.Reachable) (hfile : p.scope = Parser.fileScope)
    (hc : Covers before [] p.scopes.seen) (hn : Numbered 0 before p.symbols) :
    Grounded before (ss.flatMap Stmt.occurrences) ∧
      Numbered 0 (before ++ ss.flatMap Stmt.occurrences) q.symbols := by
  induction n generalizing p ss before with
  | zero =>
    obtain ⟨rfl, rfl⟩ := pure_ok.mp h
    rw [List.flatMap_nil, List.append_nil]
    exact ⟨trivial, hn⟩
  | succ n ih =>
    rcases stmts_succ_ok h with ⟨_, _, h⟩ | ⟨_, first, r, others, hf, ho, rfl⟩ | ⟨_, rfl, rfl⟩
    · exact ih (p := p.advance) h hp hfile hc hn
    · have hr := (stmt_reachable hf hp).1
      have hscope := (stmt_frames hf hp.formed.scope hfile).scope.trans hfile
      obtain ⟨hg, hc, hn⟩ := (stmt_resolves hf hp hfile).grounded hp hc hn
      obtain ⟨hg', hn⟩ := ih ho hr hscope hc hn
      rw [List.flatMap_append, ← List.append_assoc]
      exact ⟨grounded_append.mpr ⟨hg, hg'⟩, hn⟩
    · rw [List.flatMap_nil, List.append_nil]
      exact ⟨trivial, hn⟩

theorem stmts_identifiers {n : Nat} {ss : List Stmt} (h : stmts n p = .ok ss q)
    (hp : p.tokens.Ended) :
    tokensOf (ss.flatMap Stmt.occurrences) <+: identifiers p.tokens.rest := by
  induction n generalizing p ss with
  | zero =>
    obtain ⟨rfl, rfl⟩ := pure_ok.mp h
    exact List.nil_prefix
  | succ n ih =>
    rcases stmts_succ_ok h with ⟨_, hk, h⟩ | ⟨_, first, r, others, hf, ho, rfl⟩ | ⟨_, rfl, rfl⟩
    · obtain ⟨hrest, hended⟩ := TokenSequence.rest_eq_cons hp (by
        change p.peek.kind ≠ .endOfInput
        rw [hk]
        decide)
      have hq := ih (p := p.advance) h hended
      have hkind : p.tokens.peek.kind = .doubleSemicolon := hk
      rw [hrest, identifiers, List.filter_cons_of_neg (by simp [hkind])]
      exact hq
    · obtain ⟨⟨ts, hts, hrest⟩, _, hended⟩ := stmt_derives hf hp
      rw [hrest, identifiers, List.filter_append, List.flatMap_append, tokensOf_append,
        ← hts.identifiers]
      exact (List.prefix_append_right_inj _).mpr (ih ho hended)
    · exact List.nil_prefix

end Parse

open Parse

theorem identifiers_rest (tokens : List Token) :
    identifiers (tokens.filter (!·.isNewline)) = identifiers tokens := by
  unfold identifiers
  rw [List.filter_filter]
  refine List.filter_congr ?_
  intro t _
  by_cases hk : t.kind = .identifier
  · simp [hk, Token.isNewline]
  · simp [hk]

/-- The names of the source are the occurrences in the program, each binder makes a symbol of its
own, and every use has the symbol of a binder in front of it that may be used there. -/
theorem uses_refer_to_binders {tokens : List Token} {file : String} {program : Program}
    (hplain : ∀ t ∈ tokens, t.kind = .identifier → '@' ∉ t.value.toList)
    (h : parse (.ofList tokens file) = .ok program) :
    tokensOf program.occurrences <+: identifiers tokens ∧
      ((binders program.occurrences).map Symbol.id).Nodup ∧
      ∀ before o behind, program.occurrences = before ++ o :: behind → o.binds = false →
        o.symbol.name = o.token.value ∧
        (∃ b ∈ before, b.symbol = o.symbol ∧ b.UsableIn o.within) ∧
        (o.role = .callee → o.symbol.isFunction = true) := by
  obtain ⟨p, hp, _⟩ := parse_ok h
  have hidentifiers := stmts_identifiers hp rfl
  change _ <+: identifiers (tokens.filter (!·.isNewline)) at hidentifiers
  rw [identifiers_rest] at hidentifiers
  have hnone : Covers [] [] Scopes.initial.seen := by
    constructor
    · intro k x hx
      cases hx
    · simp
  obtain ⟨hg, hn⟩ := stmts_grounded hp .initial rfl hnone (.nothing 0 rfl)
  refine ⟨hidentifiers, hn.nodup, ?_⟩
  intro before o behind hos huse
  rw [Program.occurrences] at hos
  rw [hos] at hg
  have ho := hg.use huse
  refine ⟨ho.name ?_, ho.binder, ho.function⟩
  have hmem : o.token ∈ tokensOf program.occurrences := by
    rw [Program.occurrences, hos]
    exact List.mem_map_of_mem (List.mem_append_right _ List.mem_cons_self)
  obtain ⟨ht, hk⟩ := List.mem_filter.mp (hidentifiers.subset hmem)
  exact hplain o.token ht (by simpa using hk)

/-- A variable that is bound anew with its old value, and a recursive function that is applied
inside its body and behind it. The numbers tell the symbols apart. -/
theorem uses_refer_to_binders_shadowed :
    ∃ tokens program,
      Lexer.tokens
        "let x = 1 ;; let x = x ;; let rec f(n) = if n < x then n else f(n - 1) ;; f 3 ;;".toList
        "shell" = .ok tokens ∧
      parse (.ofList tokens "shell") = .ok program ∧
      program.occurrences.map (fun o => (o.token.value, o.symbol.id)) =
        [("x", 0), ("x", 1), ("x", 0), ("f", 2), ("n", 3), ("n", 3), ("x", 1), ("n", 3), ("f", 2),
          ("n", 3), ("f", 2)] ∧
      tokensOf program.occurrences <+: identifiers tokens ∧
      ((binders program.occurrences).map Symbol.id).Nodup ∧
      ∀ before o behind, program.occurrences = before ++ o :: behind → o.binds = false →
        o.symbol.name = o.token.value ∧
        (∃ b ∈ before, b.symbol = o.symbol ∧ b.UsableIn o.within) ∧
        (o.role = .callee → o.symbol.isFunction = true) := by
  have hrun : ((Lexer.tokens
      "let x = 1 ;; let x = x ;; let rec f(n) = if n < x then n else f(n - 1) ;; f 3 ;;".toList
      "shell").toOption.bind fun tokens =>
        (parse (.ofList tokens "shell")).toOption.map fun program =>
          (tokens.all fun t => t.kind ≠ .identifier ∨ '@' ∉ t.value.toList,
            program.occurrences.map fun o => (o.token.value, o.symbol.id))) =
      some (true, [("x", 0), ("x", 1), ("x", 0), ("f", 2), ("n", 3), ("n", 3), ("x", 1), ("n", 3),
        ("f", 2), ("n", 3), ("f", 2)]) := by decide +kernel
  obtain ⟨tokens, ht, hrun⟩ := Option.bind_eq_some_iff.mp hrun
  obtain ⟨program, hp, hrun⟩ := Option.map_eq_some_iff.mp hrun
  obtain ⟨hnames, hoccurrences⟩ := Prod.mk.inj hrun
  have hp := ok_of_toOption hp
  have hplain : ∀ t ∈ tokens, t.kind = .identifier → '@' ∉ t.value.toList := by
    intro t htoken hk
    have hor := List.all_eq_true.mp hnames t htoken
    rcases of_decide_eq_true hor with hne | hplain
    · exact absurd hk hne
    · exact hplain
  exact ⟨tokens, program, ok_of_toOption ht, hp, hoccurrences, uses_refer_to_binders hplain hp⟩

end MiniMl
