import ClassCheck.Parser.Program
import ClassCheck.Proofs.ProgramStatics

/-!
# Programs that the parser yields

The left side of an assignment can be any expression in a syntax tree, but a parser only yields
assignments to names, attributes and elements. For such programs the check and the static
semantics agree.
-/

namespace ClassCheck

namespace Parser

section

variable {α β : Type}

/-- Whatever a parser yields has a property. -/
def Ensures (p : Parser α) (P : α → Prop) : Prop := ∀ c a c', p c = .ok (a, c') → P a

private theorem ensures_pure {P : α → Prop} {a : α} (h : P a) : (pure a : Parser α).Ensures P := by
  rintro c _ _ ⟨⟩
  exact h

/-- What the first parser ensures may be used for the second. -/
theorem Ensures.bind {p : Parser α} {f : α → Parser β} {Q : α → Prop} {P : β → Prop}
    (hp : p.Ensures Q) (hf : ∀ a, Q a → (f a).Ensures P) : (p >>= f).Ensures P := by
  intro c b c' h
  rw [bind_apply] at h
  cases hpc : p c with
  | error e =>
    rw [hpc] at h
    cases h
  | ok r =>
    rw [hpc] at h
    exact hf r.1 (hp c r.1 r.2 hpc) r.2 b c' h

/-- A property that the last parser of a sequence ensures, whatever came before it. -/
theorem ensures_bind {p : Parser α} {f : α → Parser β} {P : β → Prop}
    (hf : ∀ a, (f a).Ensures P) : (p >>= f).Ensures P :=
  Ensures.bind (Q := fun _ => True) (fun _ _ _ _ => trivial) fun a _ => hf a

private theorem ensures_fail {P : α → Prop} {fault : SyntaxFault} {span : Span} :
    (fail fault span : Parser α).Ensures P := by
  rintro c a c' ⟨⟩

private theorem ensures_failExpected {P : α → Prop} {what : Expectation} :
    (failExpected what : Parser α).Ensures P := ensures_bind fun _ => ensures_fail

private theorem ensures_exhausted {P : α → Prop} : (exhausted : Parser α).Ensures P :=
  ensures_bind fun _ => ensures_fail

/-- What an item ensures holds of all items. -/
theorem ensures_manyUntil {P : α → Prop} {ends : TokenKind → Bool} {item : Parser α}
    (h : item.Ensures P) (bound : Nat) :
    (manyUntil ends item bound).Ensures fun items => ∀ a ∈ items, P a := by
  induction bound with
  | zero => exact ensures_exhausted
  | succ bound ih =>
    refine ensures_bind fun t => ?_
    split
    · exact ensures_pure (List.forall_mem_nil _)
    · exact h.bind fun a ha => ih.bind fun rest hrest =>
        ensures_pure (List.forall_mem_cons.mpr ⟨ha, hrest⟩)

end

end Parser

private theorem Stmt.allAssignPlaces_iff (ss : List Stmt) :
    Stmt.AllAssignPlaces ss ↔ ∀ s ∈ ss, s.AssignsPlaces := by
  induction ss with
  | nil => simp [Stmt.AllAssignPlaces]
  | cons s ss ih => rw [Stmt.AllAssignPlaces, ih, List.forall_mem_cons]

namespace Parser

/-! ## Statements -/

private theorem ensures_bareWord {start : Span} {make : Span → Stmt}
    (h : ∀ span, (make span).AssignsPlaces) :
    (bareWord start make).Ensures Stmt.AssignsPlaces :=
  ensures_bind fun _ => ensures_pure (h _)

private theorem ensures_returning (bound : Nat) (start : Span) :
    (returning bound start).Ensures Stmt.AssignsPlaces := by
  refine ensures_bind fun t => ?_
  split
  · exact ensures_bareWord fun _ => trivial
  · exact ensures_bind fun value => ensures_bareWord fun _ => trivial

/-- Declarations assign to nothing. -/
theorem ensures_declaration (bound : Nat) : (declaration bound).Ensures Stmt.AssignsPlaces :=
  ensures_bind fun _ => ensures_bind fun _ => ensures_bind fun _ => ensures_bind fun _ =>
    ensures_bind fun _ => ensures_pure trivial

/-- The target of an assignment is looked at before the assignment is taken. -/
theorem ensures_assignment (bound : Nat) (start : Span) (target : Expr) :
    (assignment bound start target).Ensures Stmt.AssignsPlaces := by
  unfold assignment
  split
  · rename_i hplace
    exact ensures_bind fun _ => ensures_bind fun _ => ensures_pure hplace
  · exact ensures_fail

/-- An assignment or a call assigns to a place, if to anything. -/
theorem ensures_assignmentOrCall (bound : Nat) :
    (assignmentOrCall bound).Ensures Stmt.AssignsPlaces := by
  refine ensures_bind fun first => ensures_bind fun e => ensures_bind fun isAssignment => ?_
  split
  · exact ensures_assignment bound first.span e
  · split
    · exact ensures_bind fun _ => ensures_pure trivial
    · exact ensures_fail

section

variable {nested : Parser Stmt} (hnested : nested.Ensures Stmt.AssignsPlaces) (bound : Nat)

include hnested

/-- A branch assigns to places if its statements do. -/
theorem ensures_branch (start : Span) :
    (branch nested bound start).Ensures Stmt.AssignsPlaces := by
  refine ensures_bind fun cond => ensures_bind fun _ => hnested.bind fun thenBranch hthen =>
    ensures_bind fun hasElse => ?_
  split
  · exact hnested.bind fun elseBranch helse => ensures_bind fun _ => ensures_pure ⟨hthen, helse⟩
  · exact ensures_bind fun _ => ensures_pure hthen

private theorem ensures_countedLoop (start : Span) :
    (countedLoop nested bound start).Ensures Stmt.AssignsPlaces :=
  ensures_bind fun _ => ensures_bind fun _ => ensures_bind fun _ => ensures_bind fun _ =>
    ensures_bind fun _ => ensures_bind fun _ => hnested.bind fun _ hbody => ensures_pure hbody

private theorem ensures_blockOf :
    (blockOf nested bound).Ensures fun b => Stmt.AllAssignPlaces b.stmts :=
  ensures_bind fun _ => (ensures_manyUntil hnested bound).bind fun stmts hstmts =>
    ensures_bind fun _ => ensures_pure ((Stmt.allAssignPlaces_iff stmts).mpr hstmts)

/-- A statement of any sort assigns to places only. -/
theorem ensures_statementOf : (statementOf nested bound).Ensures Stmt.AssignsPlaces := by
  refine ensures_bind fun t => ?_
  split
  · exact (ensures_blockOf hnested bound).bind fun _ hblock => ensures_pure hblock
  · exact ensures_bind fun _ => ensures_branch hnested bound t.span
  · exact ensures_bind fun _ => ensures_countedLoop hnested bound t.span
  · exact ensures_bind fun _ => ensures_bareWord fun _ => trivial
  · exact ensures_bind fun _ => ensures_bareWord fun _ => trivial
  · exact ensures_bind fun _ => ensures_returning bound t.span
  · refine ensures_bind fun ahead => ?_
    split
    · exact ensures_declaration bound
    · exact ensures_assignmentOrCall bound

end

/-- So statements that are parsed assign to places only. -/
theorem ensures_statement (bound : Nat) : (statement bound).Ensures Stmt.AssignsPlaces := by
  induction bound with
  | zero => exact ensures_exhausted
  | succ bound ih =>
    -- Statements inside this one are parsed with the smaller bound.
    exact ensures_statementOf ih (bound + 1)

private theorem ensures_block (bound : Nat) :
    (block bound).Ensures fun b => Stmt.AllAssignPlaces b.stmts :=
  ensures_blockOf (ensures_statement bound) bound

/-! ## Members and classes -/

private theorem ensures_typedMember (bound : Nat) (start : Span) :
    (typedMember bound start).Ensures Member.AssignsPlaces := by
  refine ensures_bind fun m => ensures_bind fun result => ensures_bind fun ahead => ?_
  split
  · split
    · exact ensures_fail
    · exact ensures_bind fun _ => ensures_bind fun _ =>
        (ensures_block bound).bind fun _ hbody => ensures_pure hbody
  · split
    · exact ensures_bind fun _ => ensures_bind fun _ => ensures_pure trivial
    · exact ensures_fail

/-- Members that are parsed assign to places only. -/
theorem ensures_member (bound : Nat) : (member bound).Ensures Member.AssignsPlaces := by
  refine ensures_bind fun t => ensures_bind fun ahead => ?_
  split
  · refine ensures_bind fun isDtor => ?_
    split
    · exact ensures_bind fun _ => ensures_bind fun _ => ensures_bind fun _ =>
        (ensures_block bound).bind fun _ hbody => ensures_pure hbody
    · split
      · exact ensures_bind fun _ => ensures_bind fun _ =>
          (ensures_block bound).bind fun _ hbody => ensures_pure hbody
      · exact ensures_typedMember bound t.span
  · exact ensures_failExpected

private theorem ensures_classDecl (bound : Nat) :
    (classDecl bound).Ensures fun c => ∀ m ∈ c.members, m.AssignsPlaces :=
  ensures_bind fun _ => ensures_bind fun _ => ensures_bind fun _ => ensures_bind fun _ =>
    (ensures_manyUntil (ensures_member bound) bound).bind fun _ hmembers =>
      ensures_bind fun _ => ensures_pure hmembers

/-- So do programs. -/
theorem ensures_program (bound : Nat) : (program bound).Ensures Program.AssignsPlaces :=
  ensures_bind fun _ => (ensures_manyUntil (ensures_classDecl bound) bound).bind
    fun _ hclasses => ensures_bind fun _ => ensures_pure hclasses

end Parser

namespace Program

/-- A parsed program assigns only to names, attributes and elements. -/
theorem assignsPlaces_of_ofTokens {ts : List Token} {p : Program} (h : ofTokens ts = .ok p) :
    p.AssignsPlaces := by
  obtain ⟨c, hp⟩ := Parser.run_eq_ok_iff.mp h
  exact Parser.ensures_program (ts.length + 1) _ p c hp

/-- A program that the parser yields passes the check exactly if it is well formed. -/
theorem check_eq_ok_iff_wellFormed {ts : List Token} {p : Program} (h : ofTokens ts = .ok p) :
    p.check = .ok () ↔ p.WellFormed :=
  check_eq_ok_iff (assignsPlaces_of_ofTokens h)

/-- A class whose constructor gives a final attribute its value, with a destructor and with a
method that counts up to that value. -/
def countSides : List Token :=
  let name (text : String) : TokenKind := .identifier text
  let kinds : List TokenKind := [
    .keyword .kwClass, name "Shape", .symbol .lbrace,
    .keyword .kwFinal, .keyword .kwInt, name "sides", .symbol .semi,
    name "Shape", .symbol .lparen, .keyword .kwInt, name "n", .symbol .rparen, .symbol .lbrace,
    .keyword .kwThis, .symbol .dot, name "sides", .symbol .assign, name "n", .symbol .semi,
    .symbol .rbrace,
    .symbol .tilde, name "Shape", .symbol .lparen, .symbol .rparen, .symbol .lbrace,
    .symbol .rbrace,
    .keyword .kwStatic, .keyword .kwVoid, name "main", .symbol .lparen, .symbol .rparen,
    .symbol .lbrace,
    name "Shape", name "s", .symbol .assign, .keyword .kwNew, name "Shape", .symbol .lparen,
    .integer "3", .symbol .rparen, .symbol .semi,
    .keyword .kwFor, name "i", .symbol .assign, .integer "1", .keyword .kwTo,
    name "s", .symbol .dot, name "sides", .keyword .kwDo,
    name "io", .symbol .dot, name "writeInt", .symbol .lparen, name "i", .symbol .rparen,
    .symbol .semi,
    .symbol .rbrace, .symbol .rbrace]
  kinds.map (⟨·, ⟨0, 0⟩⟩)

theorem wellFormed_countSides : ∃ p, ofTokens countSides = .ok p ∧ p.WellFormed := by
  have hcheck : (ofTokens countSides).toOption.map check = some (.ok ()) := by decide +kernel
  cases h : ofTokens countSides with
  | error e =>
    rw [h] at hcheck
    cases hcheck
  | ok p =>
    rw [h] at hcheck
    exact ⟨p, rfl, (check_eq_ok_iff_wellFormed h).mp (Option.some.inj hcheck)⟩

end Program

end ClassCheck
