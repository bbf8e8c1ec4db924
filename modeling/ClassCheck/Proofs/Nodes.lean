import ClassCheck.Proofs.Rendering

/-!
# Trees and the tokens they stand in

The pieces of a syntax tree, whatever their sort, as one type of nodes, and what it means that a
node stands in a row of tokens: the tokens spell it, its span runs from the first of them to the
last, and its children stand in the same tokens one behind the other. A parameter carries the type
it was declared with, which it may share with the parameter before it, so such types only stand
somewhere among the tokens of their member.
-/

namespace ClassCheck

/-! ## Tokens in a row -/

namespace Token

/-- The span from the start of the first token to the stop of the last. -/
def extent (us : List Token) : Span :=
  ⟨(us.head?.map (·.span.start)).getD 0, (us.getLast?.map (·.span.stop)).getD 0⟩

/-- One token extends over its own span. -/
theorem extent_singleton (t : Token) : extent [t] = t.span := rfl

/-- Two rows of tokens extend from the start of the first to the stop of the second. -/
theorem extent_append {us vs : List Token} (hus : us ≠ []) (hvs : vs ≠ []) :
    extent (us ++ vs) = ⟨(extent us).start, (extent vs).stop⟩ := by
  rw [extent, List.head?_append_of_ne_nil us hus, List.getLast?_append_of_ne_nil us hvs]
  rfl

/-- Each token stops before the next one starts. -/
structure Ordered (us : List Token) : Prop where
  /-- No token runs backwards. -/
  forward : ∀ u ∈ us, u.span.start ≤ u.span.stop
  /-- A token starts where those before it have stopped. -/
  apart : us.Pairwise fun a b => a.span.stop ≤ b.span.start

/-- Some of the tokens are ordered if all are. -/
theorem Ordered.sublist {us vs : List Token} (h : Ordered us) (hvs : vs.Sublist us) :
    Ordered vs :=
  ⟨fun u hu => h.forward u (hvs.subset hu), h.apart.sublist hvs⟩

/-- So are those of a piece. -/
theorem Ordered.within {us vs : List Token} (h : Ordered us) (hvs : vs <:+: us) : Ordered vs :=
  h.sublist hvs.sublist

/-- The extent of ordered tokens covers each of them. -/
theorem Ordered.extent_covers {us : List Token} (h : Ordered us) {u : Token} (hu : u ∈ us) :
    (extent us).start ≤ u.span.start ∧ u.span.stop ≤ (extent us).stop := by
  obtain ⟨before, after, rfl⟩ := List.append_of_mem hu
  obtain ⟨hforward, hapart⟩ := h
  have hmiddle := hforward u (by simp)
  rw [List.pairwise_append, List.pairwise_cons] at hapart
  constructor
  · cases before with
    | nil => exact le_rfl
    | cons first before =>
      have hfirst := hforward first (by simp)
      have hgap := hapart.2.2 first (by simp) u (by simp)
      exact hfirst.trans hgap
  · rcases List.eq_nil_or_concat' after with rfl | ⟨after, last, rfl⟩
    · rw [extent, List.getLast?_append_cons]
      exact le_rfl
    · have hlast := hforward last (by simp)
      have hgap := hapart.2.1.1 last (by simp)
      rw [← List.cons_append, ← List.append_assoc, extent_append (by simp) (by simp),
        extent_singleton]
      exact hgap.trans hlast

/-- The extent starts with the first token. -/
theorem exists_first {us : List Token} (h : us ≠ []) :
    ∃ u ∈ us, (extent us).start = u.span.start := by
  obtain ⟨u, us, rfl⟩ := List.exists_cons_of_ne_nil h
  exact ⟨u, List.mem_cons_self, rfl⟩

/-- It stops with the last token. -/
theorem exists_last {us : List Token} (h : us ≠ []) :
    ∃ u ∈ us, (extent us).stop = u.span.stop := by
  obtain ⟨us, u, rfl⟩ := (List.eq_nil_or_concat' us).resolve_left h
  refine ⟨u, by simp, ?_⟩
  rw [extent, List.getLast?_concat]
  rfl

/-- A span runs from the first of the tokens to the last, if they are ordered. -/
def Spans (us : List Token) (span : Span) : Prop := Ordered us → span = extent us

/-- One token is spanned by its own span. -/
theorem spans_token (t : Token) : Spans [t] t.span := fun _ => rfl

/-- The first of ordered tokens start where they all do, and the last stop where they all do. -/
theorem Spans.merge {us vs ws : List Token} {a b : Span} (ha : Spans vs a) (hb : Spans ws b)
    (hvsne : vs ≠ []) (hwsne : ws ≠ []) (hvs : vs <+: us) (hws : ws <:+ us) :
    Spans us (a.merge b) := by
  intro h
  rw [ha (h.within hvs.isInfix), hb (h.within hws.isInfix)]
  obtain ⟨v, hv, hvstop⟩ := exists_last hvsne
  obtain ⟨w, hw, hwstart⟩ := exists_first hwsne
  have hcoversv := h.extent_covers (hvs.subset hv)
  have hcoversw := h.extent_covers (hws.subset hw)
  have hstart : (extent vs).start = (extent us).start := by
    obtain ⟨rest, rfl⟩ := hvs
    rw [extent, extent, List.head?_append_of_ne_nil vs hvsne]
  have hstop : (extent ws).stop = (extent us).stop := by
    obtain ⟨rest, rfl⟩ := hws
    rw [extent, extent, List.getLast?_append_of_ne_nil rest hwsne]
  rw [Span.merge, hstart, hstop, hwstart, hvstop, Nat.min_eq_left hcoversw.1,
    Nat.max_eq_right hcoversv.2]

end Token

/-! ## Nodes -/

/-- A piece of a syntax tree. -/
inductive Node where
  /-- A name that is declared or refers to a class. -/
  | name (id : Ident)
  /-- A written type. -/
  | type (type : WrittenType)
  /-- An expression. -/
  | expr (e : Expr)
  /-- A declared name with its optional initial value. -/
  | declarator (d : Declarator)
  /-- A statement. -/
  | stmt (s : Stmt)
  /-- The body of a member. -/
  | block (b : Block)
  /-- A member of a class. -/
  | member (m : Member)
  /-- A class. -/
  | classDecl (c : ClassDecl)

/-- The type inside a type. -/
def WrittenType.children : WrittenType → List WrittenType
  | .primitive .. | .named .. => []
  | .array element _ _ => [element]
  | .reference referent _ => [referent]

/-- The nodes right below a statement, in order. -/
def Stmt.children : Stmt → List Node
  | .declare _ type ds _ => .type type :: ds.map .declarator
  | .assign target value _ => [.expr target, .expr value]
  | .ifThen condition thenBranch _ => [.expr condition, .stmt thenBranch]
  | .ifElse condition thenBranch elseBranch _ =>
    [.expr condition, .stmt thenBranch, .stmt elseBranch]
  | .loop counter first last _ body _ => [.name counter, .expr first, .expr last, .stmt body]
  | .breakLoop _ | .continueLoop _ => []
  | .returnValue value _ => value.toList.map .expr
  | .call invocation _ => [.expr invocation]
  | .block stmts _ => stmts.map .stmt

/-- The name of a parameter and where it stands. -/
def Param.ident (p : Param) : Ident := ⟨p.name, p.span⟩

/-- The formal parameters of a member. -/
def Member.params : Member → List Param
  | .method decl _ => decl.params
  | .ctor decl _ => decl.params
  | .attribute .. | .dtor .. => []

/-- The nodes right below a member, in order, but for the types of its parameters. -/
def Member.children : Member → List Node
  | .attribute decl _ => .type decl.type :: decl.declarators.map .declarator
  | .method decl _ =>
    decl.result.toList.map .type ++ decl.params.map (fun p => .name p.ident) ++ [.block decl.body]
  | .ctor decl _ => decl.params.map (fun p => .name p.ident) ++ [.block decl.body]
  | .dtor decl _ => [.block decl.body]

namespace Node

/-- Where the node stands. -/
def span : Node → Span
  | .name id => id.span
  | .type t => t.span
  | .expr e => e.span
  | .declarator d => d.span
  | .stmt s => s.span
  | .block b => b.span
  | .member m => m.span
  | .classDecl c => c.span

/-- A sequence spells a node. -/
def Spelled (ks : List TokenKind) : Node → Prop
  | .name id => id.Spelled ks
  | .type t => t.Spelled ks
  | .expr e => e.Spelled ks
  | .declarator d => d.Spelled ks
  | .stmt s => s.Spelled ks
  | .block b => b.Spelled ks
  | .member m => m.Spelled ks
  | .classDecl c => c.Spelled ks

/-- Every node is spelled by some token. -/
theorem Spelled.ne_nil {ks : List TokenKind} {n : Node} (h : n.Spelled ks) : ks ≠ [] := by
  cases n with
  | name id => exact (h : ks = _) ▸ List.cons_ne_nil _ _
  | type t => cases (h : t.Spelled ks) <;> simp
  | expr e => exact Expr.Spelled.ne_nil h
  | declarator d => cases (h : d.Spelled ks) <;> simp
  | stmt s => exact Stmt.Spelled.ne_nil h
  | block b => cases (h : b.Spelled ks); simp
  | member m => exact Member.Spelled.ne_nil h
  | classDecl c => cases (h : c.Spelled ks); simp

/-- The nodes right below a node, in order. -/
def children : Node → List Node
  | .name _ => []
  | .type t => t.children.map .type
  | .expr e => e.children.map .expr
  | .declarator d => d.init.toList.map .expr
  | .stmt s => s.children
  | .block b => b.stmts.map .stmt
  | .member m => m.children
  | .classDecl c => .name c.name :: c.parent.toList.map .name ++ c.members.map .member

/-- The types of parameters, which the parameters of one group share. -/
def asides : Node → List Node
  | .member m => m.params.map fun p => .type p.type
  | _ => []

/-! ## Nodes and tokens -/

section

variable (P : List Token → Node → Prop)

/-- Nodes stand among tokens one behind the other. -/
inductive Row : List Token → List Node → Prop
  /-- There is nothing. -/
  | nil : Row [] []
  /-- A token that belongs to none of the nodes comes next. -/
  | token {us : List Token} {ns : List Node} (t : Token) : Row us ns → Row (us ++ [t]) ns
  /-- A node comes next. -/
  | node {us vs : List Token} {ns : List Node} {n : Node} : Row us ns → P vs n →
      Row (us ++ vs) (ns ++ [n])

/-- Nodes stand among tokens, each anywhere. -/
inductive Scattered : List Token → List Node → Prop
  | nil (us : List Token) : Scattered us []
  | cons {before vs after : List Token} {n : Node} {ns : List Node} : P vs n →
      Scattered (before ++ vs ++ after) ns → Scattered (before ++ vs ++ after) (n :: ns)

end

/-- A node stands in a row of tokens: they spell it, they give it its span, and the nodes below it
stand among them. -/
inductive Stands : List Token → Node → Prop
  | mk {us : List Token} {n : Node} : n.Spelled (us.map Token.kind) →
      Token.Spans us n.span → Row Stands us n.children →
      Scattered Stands us n.asides → Stands us n

/-- A node stands somewhere among tokens. -/
def StandsAmong (us : List Token) (n : Node) : Prop := ∃ vs, vs <:+: us ∧ n.Stands vs

/-- A node that stands in a piece of some tokens stands among them. -/
theorem StandsAmong.mono {us vs : List Token} {n : Node} (h : n.StandsAmong vs) (hvs : vs <:+: us) :
    n.StandsAmong us := by
  obtain ⟨ws, hws, hn⟩ := h
  exact ⟨ws, hws.trans hvs, hn⟩

section

variable {P : List Token → Node → Prop} {us vs : List Token} {ns ms : List Node}

/-- Two rows together are a row. -/
theorem Row.append (h : Row P us ns) (h' : Row P vs ms) : Row P (us ++ vs) (ns ++ ms) := by
  induction h' with
  | nil => simpa using h
  | token t _ ih =>
    rw [← List.append_assoc]
    exact .token t ih
  | node _ hn ih =>
    rw [← List.append_assoc, ← List.append_assoc]
    exact .node ih hn

/-- A node of a row stands in a piece of its tokens. -/
theorem Row.exists_of_mem (h : Row P us ns) {n : Node} (hn : n ∈ ns) :
    ∃ vs, vs <:+: us ∧ P vs n := by
  induction h with
  | nil => cases hn
  | token t _ ih =>
    obtain ⟨vs, hvs, hP⟩ := ih hn
    exact ⟨vs, hvs.trans (List.prefix_append _ _).isInfix, hP⟩
  | node _ hlast ih =>
    rcases List.mem_append.mp hn with hin | hin
    · obtain ⟨vs, hvs, hP⟩ := ih hin
      exact ⟨vs, hvs.trans (List.prefix_append _ _).isInfix, hP⟩
    · rw [List.mem_singleton] at hin
      subst hin
      exact ⟨_, (List.suffix_append _ _).isInfix, hlast⟩

/-- Nodes are scattered among tokens just if each stands in a piece of them. -/
theorem scattered_iff : Scattered P us ns ↔ ∀ n ∈ ns, ∃ vs, vs <:+: us ∧ P vs n := by
  constructor
  · intro h
    induction h with
    | nil us => exact List.forall_mem_nil _
    | cons hn _ ih => exact List.forall_mem_cons.mpr ⟨⟨_, ⟨_, _, rfl⟩, hn⟩, ih⟩
  · intro h
    induction ns with
    | nil => exact .nil us
    | cons n ns ih =>
      obtain ⟨⟨vs, ⟨before, after, rfl⟩, hn⟩, hns⟩ := List.forall_mem_cons.mp h
      exact .cons hn (ih hns)

end

/-- Where a node stands, the tokens spell it. -/
theorem Stands.spelled {us : List Token} {n : Node} (h : n.Stands us) :
    n.Spelled (us.map Token.kind) := by
  cases h
  assumption

/-- A node does not stand in no tokens. -/
theorem Stands.ne_nil {us : List Token} {n : Node} (h : n.Stands us) : us ≠ [] := by
  rintro rfl
  exact h.spelled.ne_nil rfl

/-- A node spans the tokens that it stands in. -/
theorem Stands.spans {us : List Token} {n : Node} (h : n.Stands us) : Token.Spans us n.span := by
  cases h
  assumption

/-- A node is another one or stands somewhere below it. -/
inductive Inside : Node → Node → Prop
  /-- It is the node itself. -/
  | self (n : Node) : Inside n n
  /-- It is inside a node right below. -/
  | deeper {m k n : Node} : k ∈ n.children ++ n.asides → Inside m k → Inside m n

/-- All nodes inside a node that stands in a row of tokens stand among these tokens. -/
theorem Stands.among_of_inside {us : List Token} {m n : Node} (h : n.Stands us)
    (hin : Inside m n) : m.StandsAmong us := by
  induction hin generalizing us with
  | self => exact ⟨us, List.infix_rfl, h⟩
  | @deeper k n hk _ ih =>
    obtain ⟨-, -, hchildren, hasides⟩ := h
    have hmiddle : k.StandsAmong us := by
      rcases List.mem_append.mp hk with hchild | haside
      · exact hchildren.exists_of_mem hchild
      · exact scattered_iff.mp hasides k haside
    obtain ⟨vs, hvs, hstands⟩ := hmiddle
    exact (ih hstands).mono hvs

/-- What is inside a node stands among the same tokens. -/
theorem StandsAmong.inside {us : List Token} {m n : Node} (h : n.StandsAmong us)
    (hin : Inside m n) : m.StandsAmong us := by
  obtain ⟨vs, hvs, hstands⟩ := h
  exact (hstands.among_of_inside hin).mono hvs

end Node

end ClassCheck
