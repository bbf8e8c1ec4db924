import ClassCheck.Proofs.ParsedSpelling
import ClassCheck.Proofs.SpelledPrograms

/-!
# The parser accepts exactly the grammar

A token list is parsed to a program if and only if the tokens before its first end of file spell
that program, both up to spans. The two directions have been shown for the parsers one by one;
what is left is that the grammar leaves spans open.
-/

namespace ClassCheck

/-! ## Spelling leaves spans open -/

section

variable {α : Type} {sign : Symbol} {R : List TokenKind → α → Prop} {g : α → α}
  {us : List TokenKind} {as : List α}

/-- What spells items that were changed spells the items, if it does so one by one. -/
theorem Separated.of_map (h : Separated sign R us (as.map g))
    (hR : ∀ a ∈ as, ∀ ks, R ks (g a) → R ks a) : Separated sign R us as := by
  induction as generalizing us with
  | nil => cases h
  | cons a as ih =>
    rw [List.map_cons] at h
    have ha := hR a List.mem_cons_self
    have has := fun b hb => hR b (List.mem_cons_of_mem a hb)
    generalize hgs : as.map g = gs at h
    cases h with
    | one hfirst =>
      rw [List.map_eq_nil_iff.mp hgs]
      exact .one (ha _ hfirst)
    | more hfirst hrest =>
      subst hgs
      exact .more (ha _ hfirst) (ih hrest has)

private theorem Listed.of_map (h : Listed sign R us (as.map g))
    (hR : ∀ a ∈ as, ∀ ks, R ks (g a) → R ks a) : Listed sign R us as := by
  generalize hgs : as.map g = gs at h
  cases h with
  | none =>
    rw [List.map_eq_nil_iff.mp hgs]
    exact .none
  | some h =>
    subst hgs
    exact .some (h.of_map hR)

private theorem Repeated.of_map (h : Repeated R us (as.map g))
    (hR : ∀ a ∈ as, ∀ ks, R ks (g a) → R ks a) : Repeated R us as := by
  induction as generalizing us with
  | nil =>
    cases h
    exact .nil
  | cons a as ih =>
    cases h with
    | cons hfirst hrest =>
      exact .cons (hR a List.mem_cons_self _ hfirst)
        (ih hrest fun b hb => hR b (List.mem_cons_of_mem a hb))

end

/-- A type is spelled by what spells it without spans. -/
theorem WrittenType.spelled_of_spanless (type : WrittenType) {us : List TokenKind}
    (h : type.spanless.Spelled us) : type.Spelled us := by
  have hreference : ∀ t : WrittenType, t.spanless.isReference = t.isReference := by
    intro t
    cases t <;> rfl
  induction type generalizing us with
  | primitive =>
    cases h
    exact .primitive
  | named =>
    cases h
    exact .named
  | array element size span ih =>
    cases h with
    | array helement hks hsize => exact .array (hreference element ▸ helement) (ih hks) hsize
  | reference referent span ih =>
    cases h with
    | reference hreferent hks => exact .reference (hreference referent ▸ hreferent) (ih hks)

private theorem Expr.level_spanless (e : Expr) : e.spanless.level = e.level := by
  cases e <;> rfl

/-- So is an expression. -/
theorem Expr.spelled_of_spanless (e : Expr) {us : List TokenKind} (h : e.spanless.Spelled us) :
    e.Spelled us := by
  match e with
  | .int .. =>
    cases h with
    | int hvalue => exact .int hvalue
  | .float .. =>
    cases h with
    | float hvalue => exact .float hvalue
  | .string .. =>
    cases h with
    | string hvalue => exact .string hvalue
  | .bool .. =>
    cases h with
    | true => exact .true
    | false => exact .false
  | .nil _ =>
    cases h
    exact .nil
  | .self _ =>
    cases h
    exact .self
  | .ident .. =>
    cases h
    exact .ident
  | .create _ args _ =>
    rw [Expr.spanless, Expr.spanlessAll_eq_map] at h
    cases h with
    | create hargs => exact .create (hargs.of_map fun a _ _ ha => a.spelled_of_spanless ha)
  | .paren inner _ =>
    cases h with
    | paren hinner => exact .paren (inner.spelled_of_spanless hinner)
  | .array elements _ =>
    rw [Expr.spanless, Expr.spanlessAll_eq_map] at h
    cases h with
    | array helements => exact .array (helements.of_map fun a _ _ ha => a.spelled_of_spanless ha)
  | .field object _ _ =>
    cases h with
    | field hlevel hobject =>
      exact .field (object.level_spanless ▸ hlevel) (object.spelled_of_spanless hobject)
  | .call receiver _ args _ =>
    rw [Expr.spanless, Expr.spanlessAll_eq_map] at h
    cases h with
    | call hlevel hreceiver hargs =>
      exact .call (receiver.level_spanless ▸ hlevel) (receiver.spelled_of_spanless hreceiver)
        (hargs.of_map fun a _ _ ha => a.spelled_of_spanless ha)
  | .index object position _ =>
    cases h with
    | index hlevel hobject hposition =>
      exact .index (object.level_spanless ▸ hlevel) (object.spelled_of_spanless hobject)
        (position.spelled_of_spanless hposition)
  | .unary _ operand _ =>
    cases h with
    | unary hlevel hoperand =>
      exact .unary (operand.level_spanless ▸ hlevel) (operand.spelled_of_spanless hoperand)
  | .binary _ left right _ =>
    cases h with
    | binary hlevel hleft hlevel' hright =>
      exact .binary (left.level_spanless ▸ hlevel) (left.spelled_of_spanless hleft)
        (right.level_spanless ▸ hlevel') (right.spelled_of_spanless hright)
termination_by sizeOf e

private theorem Declarator.spelled_of_spanless (d : Declarator) {us : List TokenKind}
    (h : d.spanless.Spelled us) : d.Spelled us := by
  obtain ⟨name, init, span⟩ := d
  cases init with
  | none =>
    cases h
    exact .plain
  | some e =>
    cases h with
    | init he => exact .init (e.spelled_of_spanless he)

private theorem Declarator.separated_of_spanless {ds : List Declarator} {us : List TokenKind}
    (h : Separated .comma Declarator.Spelled us (ds.map Declarator.spanless)) :
    Separated .comma Declarator.Spelled us ds :=
  h.of_map fun d _ _ hd => d.spelled_of_spanless hd

private theorem Stmt.endsOpen_spanless (s : Stmt) : s.spanless.endsOpen = s.endsOpen := by
  match s with
  | .ifElse _ _ elseBranch _ => exact elseBranch.endsOpen_spanless
  | .loop _ _ _ _ body _ => exact body.endsOpen_spanless
  | .declare .. | .assign .. | .ifThen .. | .breakLoop _ | .continueLoop _ | .returnValue ..
  | .call .. | .block .. => rfl

/-- So is a statement. -/
theorem Stmt.spelled_of_spanless (s : Stmt) {us : List TokenKind} (h : s.spanless.Spelled us) :
    s.Spelled us := by
  match s with
  | .declare _ type ds _ =>
    cases h with
    | declare htype hds =>
      exact .declare (type.spelled_of_spanless htype) (Declarator.separated_of_spanless hds)
  | .assign target value _ =>
    cases h with
    | assign hplace hbrace htarget hvalue =>
      exact .assign (target.isPlace_spanless ▸ hplace) hbrace (target.spelled_of_spanless htarget)
        (value.spelled_of_spanless hvalue)
  | .call invocation _ =>
    cases h with
    | call hcall hbrace hinvocation =>
      exact .call (invocation.isCall_spanless ▸ hcall) hbrace
        (invocation.spelled_of_spanless hinvocation)
  | .ifThen condition thenBranch _ =>
    cases h with
    | ifThen hcondition hthen =>
      exact .ifThen (condition.spelled_of_spanless hcondition)
        (thenBranch.spelled_of_spanless hthen)
  | .ifElse condition thenBranch elseBranch _ =>
    cases h with
    | ifElse hcondition hclosed hthen helse =>
      exact .ifElse (condition.spelled_of_spanless hcondition)
        (thenBranch.endsOpen_spanless ▸ hclosed) (thenBranch.spelled_of_spanless hthen)
        (elseBranch.spelled_of_spanless helse)
  | .loop counter first last direction body _ =>
    cases h with
    | loop hfirst hlast hbody =>
      exact @Stmt.Spelled.loop counter _ _ _ _ _ _ _ _ (first.spelled_of_spanless hfirst)
        (last.spelled_of_spanless hlast) (body.spelled_of_spanless hbody)
  | .breakLoop _ =>
    cases h
    exact .breakLoop
  | .continueLoop _ =>
    cases h
    exact .continueLoop
  | .returnValue none _ =>
    cases h
    exact .returnNothing
  | .returnValue (some value) _ =>
    cases h with
    | returnValue hvalue => exact .returnValue (value.spelled_of_spanless hvalue)
  | .block stmts _ =>
    rw [Stmt.spanless, Stmt.spanlessAll_eq_map] at h
    cases h with
    | block hstmts => exact .block (hstmts.of_map fun s _ _ hs => s.spelled_of_spanless hs)
termination_by sizeOf s

private theorem Block.spelled_of_spanless (b : Block) {us : List TokenKind}
    (h : b.spanless.Spelled us) : b.Spelled us := by
  obtain ⟨stmts, span⟩ := b
  cases h with
  | mk hstmts => exact .mk (hstmts.of_map fun s _ _ hs => s.spelled_of_spanless hs)

/-- So are the parameters of a group. -/
theorem Param.groupSpelled_of_spanless {ps : List Param} {us : List TokenKind}
    (h : Param.GroupSpelled us (ps.map Param.spanless)) : Param.GroupSpelled us ps := by
  cases h with
  | mk htypes hnames =>
    refine .mk ?_ ?_
    · exact fun p hp => p.type.spelled_of_spanless (htypes _ (List.mem_map_of_mem hp))
    · refine Separated.of_map (g := Ident.spanless) ?_ fun _ _ _ hid => hid
      rw [List.map_map] at hnames ⊢
      exact hnames

/-- Groups of stripped parameters come from groups of the parameters. -/
theorem Param.exists_groups {ps : List Param} {gs : List (List Param)}
    (h : gs.flatten = ps.map Param.spanless) :
    ∃ groups : List (List Param), groups.flatten = ps ∧
      gs = groups.map (List.map Param.spanless) := by
  induction gs generalizing ps with
  | nil => exact ⟨[], (List.map_eq_nil_iff.mp h.symm).symm, rfl⟩
  | cons g gs ih =>
    rw [List.flatten_cons] at h
    obtain ⟨front, back, rfl, rfl, hback⟩ := List.map_eq_append_iff.mp h.symm
    obtain ⟨groups, rfl, rfl⟩ := ih hback.symm
    exact ⟨front :: groups, rfl, rfl⟩

/-- Parameters of all groups are spelled by what spells them without spans. -/
theorem Param.listSpelled_of_spanless {ps : List Param} {us : List TokenKind}
    (h : Param.ListSpelled us (ps.map Param.spanless)) : Param.ListSpelled us ps := by
  generalize hqs : ps.map Param.spanless = qs at h
  cases h with
  | mk hgroups =>
    obtain ⟨groups, rfl, rfl⟩ := Param.exists_groups hqs.symm
    exact .mk (hgroups.of_map fun _ _ _ hg => Param.groupSpelled_of_spanless hg)

private theorem ResultSpelled.of_spanless {result : Option WrittenType} {us : List TokenKind}
    (h : ResultSpelled us (result.map WrittenType.spanless)) : ResultSpelled us result := by
  cases result with
  | none =>
    cases h
    exact .void
  | some type =>
    cases h with
    | type htype => exact .type (type.spelled_of_spanless htype)

/-- So is a member. -/
theorem Member.spelled_of_spanless (m : Member) {us : List TokenKind}
    (h : m.spanless.Spelled us) : m.Spelled us := by
  match m with
  | .attribute ⟨_, _, type, _⟩ _ =>
    rcases h with ⟨hm, htype, hds⟩
    exact .attribute hm (type.spelled_of_spanless htype) (Declarator.separated_of_spanless hds)
  | .method ⟨_, _, _, _, body⟩ _ =>
    cases h with
    | method hm hresult hparams hbody =>
      exact .method hm hresult.of_spanless (Param.listSpelled_of_spanless hparams)
        (body.spelled_of_spanless hbody)
  | .ctor ⟨_, _, body⟩ _ =>
    cases h with
    | ctor hparams hbody =>
      exact .ctor (Param.listSpelled_of_spanless hparams) (body.spelled_of_spanless hbody)
  | .dtor ⟨_, body⟩ _ =>
    cases h with
    | dtor hbody => exact .dtor (body.spelled_of_spanless hbody)

private theorem ParentSpelled.of_spanless {parent : Option Ident} {us : List TokenKind}
    (h : ParentSpelled us (parent.map Ident.spanless)) : ParentSpelled us parent := by
  cases parent with
  | none =>
    cases h
    exact .none
  | some parent =>
    cases h
    exact @ParentSpelled.some parent

/-- So is a class. -/
theorem ClassDecl.spelled_of_spanless (c : ClassDecl) {us : List TokenKind}
    (h : c.spanless.Spelled us) : c.Spelled us := by
  obtain ⟨name, parent, members, span⟩ := c
  cases h with
  | mk hparent hmembers =>
    exact @ClassDecl.Spelled.mk _ _ name _ _ _ hparent.of_spanless
      (hmembers.of_map fun m _ _ hm => m.spelled_of_spanless hm)

namespace Program

/-- So is a program. -/
theorem spelled_of_spanless (p : Program) {us : List TokenKind} (h : p.spanless.Spelled us) :
    p.Spelled us :=
  Repeated.of_map h fun c _ _ hc => c.spelled_of_spanless hc

/-! ## Parsing and spelling -/

/-- What spells a program is read as the program without spans, so it spells that as well. -/
theorem spelled_spanless {p : Program} {us : List TokenKind} (h : p.Spelled us) :
    p.spanless.Spelled us := by
  have hyields : (Parser.program (us.length + 1)).Yields us p.spanless [] :=
    Parser.yields_program h (Nat.lt_succ_self _) rfl
  obtain ⟨vs, hvs, hspelled, -⟩ := Parser.reads_program _ _ _ _ hyields
  have hkinds : us = vs.map Token.kind := by
    simpa [Cursor.ofKinds, Function.comp_def] using congrArg (List.map Token.kind) hvs.split
  rwa [hkinds]

/-- A token list that spells a program is parsed to it. -/
theorem exists_ofTokens_of_spelled {ts : List Token} {p : Program}
    (h : p.Spelled (Token.kindsBeforeEof ts)) :
    ∃ q, ofTokens ts = .ok q ∧ q.spanless = p.spanless := by
  have hlength := Token.length_kindsBeforeEof_le ts
  obtain ⟨rest, hkinds, hrest⟩ := Token.exists_kinds_eq_append ts
  have hyields : (Parser.program (ts.length + 1)).Yields (Token.kindsBeforeEof ts) p.spanless rest :=
    Parser.yields_program h (by omega) hrest
  have hstripped := ofTokens_spanless ts
  rw [Parser.Yields, Parser.GoesOn, ← hkinds] at hyields
  rw [Parser.run, hyields] at hstripped
  cases hparse : ofTokens ts with
  | error e =>
    rw [hparse] at hstripped
    cases hstripped
  | ok q =>
    rw [hparse] at hstripped
    exact ⟨q, rfl, Except.ok.inj hstripped⟩

/-- A token list is parsed to a program exactly if the tokens before its first end of file spell
the program, up to spans, and no sequence of tokens spells two. -/
theorem ofTokens_iff_spelled :
    (∀ (ts : List Token) (p : Program),
      (∃ q, ofTokens ts = .ok q ∧ q.spanless = p.spanless) ↔
        p.Spelled (Token.kindsBeforeEof ts)) ∧
      ∀ (ks : List TokenKind) (p q : Program), p.Spelled ks → q.Spelled ks →
        p.spanless = q.spanless := by
  refine ⟨fun ts p => ⟨?_, exists_ofTokens_of_spelled⟩, fun ks p q hp hq => ?_⟩
  · rintro ⟨q, hq, hspans⟩
    have hspelled := spelled_spanless (spelled_of_ofTokens hq)
    rw [hspans] at hspelled
    exact p.spelled_of_spanless hspelled
  · have hyields : ∀ {p : Program}, p.Spelled ks →
        (Parser.program (ks.length + 1)).Yields ks p.spanless [] :=
      fun h => Parser.yields_program h (Nat.lt_succ_self _) rfl
    exact (hyields hp).unique (hyields hq)

/-- Two branches and one alternative, `if a then if b then x.f(); else x.g();`, in a method. -/
def nestedBranches : List Token :=
  ([.keyword .kwClass, .identifier "A", .symbol .lbrace, .keyword .kwVoid, .identifier "m",
    .symbol .lparen, .symbol .rparen, .symbol .lbrace,
    .keyword .kwIf, .identifier "a", .keyword .kwThen,
    .keyword .kwIf, .identifier "b", .keyword .kwThen,
    .identifier "x", .symbol .dot, .identifier "f", .symbol .lparen, .symbol .rparen,
    .symbol .semi, .keyword .kwElse,
    .identifier "x", .symbol .dot, .identifier "g", .symbol .lparen, .symbol .rparen,
    .symbol .semi, .symbol .rbrace, .symbol .rbrace, .eof, .symbol .semi] :
    List TokenKind).map (⟨·, .nowhere⟩)

/-- The program in which the alternative belongs to the inner branch. -/
def innerAlternative : Program :=
  let call (method : String) : Stmt :=
    .call (.call (.ident "x" .nowhere) method [] .nowhere) .nowhere
  let inner : Stmt := .ifElse (.ident "b" .nowhere) (call "f") (call "g") .nowhere
  let body : Block := ⟨[.ifThen (.ident "a" .nowhere) inner .nowhere], .nowhere⟩
  ⟨[⟨⟨"A", .nowhere⟩, none, [.method ⟨false, none, "m", [], body⟩ .nowhere], .nowhere⟩], .nowhere⟩

theorem ofTokens_nestedBranches : ofTokens nestedBranches = .ok innerAlternative := rfl

/-- The alternative belongs to the inner branch, and to no other. -/
theorem innerAlternative_only_spelled :
    innerAlternative.Spelled (Token.kindsBeforeEof nestedBranches) ∧
      ∀ p : Program, p.Spelled (Token.kindsBeforeEof nestedBranches) →
        p.spanless = innerAlternative.spanless := by
  have hspelled := (ofTokens_iff_spelled.1 nestedBranches innerAlternative).mp
    ⟨innerAlternative, ofTokens_nestedBranches, rfl⟩
  exact ⟨hspelled, fun p hp => ofTokens_iff_spelled.2 _ p innerAlternative hp hspelled⟩

end Program

end ClassCheck
