import ClassCheck.Proofs.Placement
import ClassCheck.Proofs.ReadBack

/-!
# The spans of a syntax tree are exact

A node that stands in a row of ordered tokens has the span from the start of the first of them to
the stop of the last. What stands in a part of the tokens has then a span inside, and what stands
in two parts, one behind the other, has spans that are apart and in the same order. So the spans of
a parsed program nest as its nodes do.
-/

namespace ClassCheck

/-- Spans stand one behind the other inside another. -/
structure Span.Holds (outer : Span) (inner : List Span) : Prop where
  /-- None of them runs backwards or reaches out. -/
  inside : ∀ s ∈ inner, outer.start ≤ s.start ∧ s.start ≤ s.stop ∧ s.stop ≤ outer.stop
  /-- Each stops before the next starts. -/
  ordered : inner.Pairwise fun a b => a.stop ≤ b.start

/-! ## Extents -/

namespace Token

variable {us vs : List Token}

/-- Tokens in a row among others have an extent inside. -/
theorem Ordered.extent_inside (h : Ordered us) (hvs : vs <:+: us) (hne : vs ≠ []) :
    (extent us).start ≤ (extent vs).start ∧ (extent vs).start ≤ (extent vs).stop ∧
      (extent vs).stop ≤ (extent us).stop := by
  obtain ⟨first, hfirst, hstart⟩ := exists_first hne
  obtain ⟨last, hlast, hstop⟩ := exists_last hne
  have hforward := h.forward first (hvs.subset hfirst)
  have hown := (h.within hvs).extent_covers hfirst
  refine ⟨?_, hown.1.trans (hforward.trans hown.2), ?_⟩
  · rw [hstart]
    exact (h.extent_covers (hvs.subset hfirst)).1
  · rw [hstop]
    exact (h.extent_covers (hvs.subset hlast)).2

/-- Of two rows of tokens, one behind the other, the first stops before the second starts. -/
theorem Ordered.extent_apart (h : Ordered (us ++ vs)) {ws : List Token} (hws : ws <:+: us)
    (hwsne : ws ≠ []) (hvsne : vs ≠ []) : (extent ws).stop ≤ (extent vs).start := by
  obtain ⟨last, hlast, hstop⟩ := exists_last hwsne
  obtain ⟨first, hfirst, hstart⟩ := exists_first hvsne
  rw [hstop, hstart]
  exact (List.pairwise_append.mp h.apart).2.2 last (hws.subset hlast) first hfirst

end Token

/-! ## Nodes in ordered tokens -/

namespace Node

open Token

variable {us : List Token} {n : Node} {ns : List Node}

/-- Nodes in a row stand one behind the other. -/
theorem Row.ordered (h : Row Stands us ns) (hus : Ordered us) :
    (ns.map span).Pairwise fun a b => a.stop ≤ b.start := by
  induction h with
  | nil => exact .nil
  | token t _ ih => exact ih (hus.within (List.prefix_append _ _).isInfix)
  | @node us vs ns n hns hn ih =>
    have hvs := hus.within (List.suffix_append us vs).isInfix
    rw [List.map_append, List.pairwise_append]
    refine ⟨ih (hus.within (List.prefix_append _ _).isInfix), List.pairwise_singleton _ _, ?_⟩
    rintro a ha b hb
    obtain ⟨m, hm, rfl⟩ := List.mem_map.mp ha
    obtain rfl := List.mem_singleton.mp hb
    obtain ⟨ws, hws, hstands⟩ := hns.exists_of_mem hm
    have hwsOrdered := hus.within (hws.trans (List.prefix_append us vs).isInfix)
    rw [hstands.spans hwsOrdered, hn.spans hvs]
    exact hus.extent_apart hws hstands.ne_nil hn.ne_nil

/-- A node that stands among tokens stands within their extent. -/
theorem StandsAmong.inside_extent (h : n.StandsAmong us) (hus : Ordered us) :
    (extent us).start ≤ n.span.start ∧ n.span.start ≤ n.span.stop ∧
      n.span.stop ≤ (extent us).stop := by
  obtain ⟨vs, hvs, hstands⟩ := h
  rw [hstands.spans (hus.within hvs)]
  exact hus.extent_inside hvs hstands.ne_nil

/-- The extent of a row of tokens holds the spans of the nodes in it. -/
theorem Row.holds (h : Row Stands us ns) (hus : Ordered us) :
    (extent us).Holds (ns.map span) := by
  refine ⟨?_, h.ordered hus⟩
  rintro s hs
  obtain ⟨n, hn, rfl⟩ := List.mem_map.mp hs
  exact StandsAmong.inside_extent (h.exists_of_mem hn) hus

/-- The span of a node is that of its own tokens, and the nodes below it lie inside, one behind the
other. -/
structure Exact (tokens : List Token) (n : Node) : Prop where
  /-- The node has tokens of its own in a row, from the first to the last of which its span runs. -/
  own : ∃ us, us ≠ [] ∧ us <:+: tokens ∧ n.Stands us ∧ n.span = extent us
  /-- The nodes right below it lie inside and in order. -/
  children : n.span.Holds (n.children.map span)
  /-- The types of parameters lie inside too. -/
  asides : ∀ m ∈ n.asides, n.span.start ≤ m.span.start ∧ m.span.stop ≤ n.span.stop

/-- A node that stands among tokens has the exact span. -/
theorem StandsAmong.exact {tokens : List Token} (h : n.StandsAmong tokens)
    (htokens : Ordered tokens) : n.Exact tokens := by
  obtain ⟨us, hus, hstands⟩ := h
  have hordered := htokens.within hus
  have hspan := hstands.spans hordered
  refine ⟨⟨us, hstands.ne_nil, hus, hstands, hspan⟩, ?_, fun m hm => ?_⟩
  · obtain ⟨-, -, hchildren, -⟩ := hstands
    rw [hspan]
    exact hchildren.holds hordered
  · obtain ⟨-, -, -, hasides⟩ := hstands
    obtain ⟨hstart, -, hstop⟩ :=
      StandsAmong.inside_extent (scattered_iff.mp hasides m hm) hordered
    rw [hspan]
    exact ⟨hstart, hstop⟩

end Node

/-! ## Parsers -/

namespace Parser

/-- What a parser yields has the span of the tokens that it consumes, of which there is at least
one. -/
def SpansConsumed {α : Type} (p : Parser α) (span : α → Span) : Prop :=
  ∀ c a c', Token.Ordered c.ahead → p c = .ok (a, c') →
    ∃ us, us ≠ [] ∧ c.ahead = us ++ c'.ahead ∧ span a = Token.extent us

/-- A parser that places a node spans what it consumed. -/
theorem Places.spansConsumed {α : Type} {p : Parser α} {node : α → Node}
    (h : p.Places fun us a => (node a).Stands us) : p.SpansConsumed fun a => (node a).span := by
  intro c a c' hordered hp
  obtain ⟨us, hus, hstands⟩ := (h c c c.reaches_self).1 a c' hp
  exact ⟨us, hstands.ne_nil, hus.ahead, hstands.spans (hordered.within hus.starts.isInfix)⟩

/-- A program spans from its first token to its end of file. -/
theorem span_of_program {bound : Nat} {c c' : Cursor} {p : Program}
    (h : program bound c = .ok (p, c')) : p.span = c.current.span.merge c'.current.span := by
  obtain ⟨first, _, hfirst, h⟩ := exists_of_bind_eq_ok h
  obtain ⟨classes, _, -, h⟩ := exists_of_bind_eq_ok h
  obtain ⟨stop, _, hstop, h⟩ := exists_of_bind_eq_ok h
  cases hfirst
  cases hstop
  cases h
  rfl

end Parser

/-! ## Programs -/

namespace Cursor

/-- The tokens of a list up to its end, which is supplied if there is none. -/
def whole (c : Cursor) : List Token := c.ahead ++ [⟨.eof, c.stop⟩]

private theorem current_starts_whole (c : Cursor) : [c.current] <+: c.whole := by
  by_cases h : c.current.kind = .eof
  · rw [whole, ahead_of_eof h, current_of_eof h]
    exact ⟨[], rfl⟩
  · rw [whole, ahead_of_ne_eof h]
    exact ⟨c.advance.ahead ++ [⟨.eof, c.stop⟩], rfl⟩

/-- All tokens up to the end of file are ordered if the list is. -/
theorem ordered_whole {ts : List Token} (h : Token.Ordered ts) :
    Token.Ordered (ofTokens ts).whole := by
  unfold whole
  obtain ⟨t, rest, hkind, hsplit, hstop⟩ | ⟨hall, hstop⟩ := ofTokens_cases ts
  · have heof : (⟨.eof, (ofTokens ts).stop⟩ : Token) = t := by rw [hstop, ← hkind]
    rw [hsplit] at h
    rw [heof]
    exact h.within ⟨[], rest, by simp⟩
  · rw [hall, hstop]
    refine ⟨List.forall_mem_append.mpr ⟨h.forward, ?_⟩, ?_⟩
    · rintro t ht
      obtain rfl := List.mem_singleton.mp ht
      exact le_rfl
    · refine List.pairwise_append.mpr ⟨h.apart, List.pairwise_singleton _ _, fun u hu t ht => ?_⟩
      obtain rfl := List.mem_singleton.mp ht
      exact (h.extent_covers hu).2

end Cursor

/-- A program has the span of all tokens with their end. -/
theorem Program.span_of_ofTokens {ts : List Token} {p : Program} (hts : Token.Ordered ts)
    (h : Program.ofTokens ts = .ok p) : p.span = Token.extent (Cursor.ofTokens ts).whole := by
  obtain ⟨c, hparse, hend⟩ := Program.exists_end_of_ofTokens h
  obtain ⟨us, hus, -⟩ :=
    (Parser.places_program _ _ _ (Cursor.ofTokens ts).reaches_self).1 p c hparse
  have hstop : c.current.span = (Cursor.ofTokens ts).stop := by
    rw [Cursor.current_of_eof (Cursor.ahead_eq_nil_iff.mp hend), ← hus.stop_eq]
  rw [Parser.span_of_program hparse, hstop]
  -- The token ahead of the first cursor is the first of all, be it the end.
  exact (Token.spans_token _).merge (Token.spans_token ⟨.eof, (Cursor.ofTokens ts).stop⟩)
    (List.cons_ne_nil _ _) (List.cons_ne_nil _ _) (Cursor.current_starts_whole _)
    (List.suffix_append _ _) (Cursor.ordered_whole hts)

/-- The spans of a syntax tree are exact. A parser of types, expressions, declarators, statements,
blocks, members or classes gives what it yields the span from the first to the last of the tokens
that it consumes. In a program parsed from ordered tokens, every node inside a class has the span of
its own tokens, and the nodes right below it lie inside this span, apart and in order. The classes
lie so inside the span of the program, which goes from the first token to the end of file. -/
theorem Program.spans_exact {ts : List Token} {p : Program} (hts : Token.Ordered ts)
    (h : Program.ofTokens ts = .ok p) :
    (∀ bound,
      (Parser.writtenType bound).SpansConsumed WrittenType.span ∧
      (Parser.expression bound).SpansConsumed Expr.span ∧
      (Parser.declarator bound).SpansConsumed Declarator.span ∧
      (Parser.statement bound).SpansConsumed Stmt.span ∧
      (Parser.block bound).SpansConsumed Block.span ∧
      (Parser.member bound).SpansConsumed Member.span ∧
      (Parser.classDecl bound).SpansConsumed ClassDecl.span) ∧
    (∀ c ∈ p.classes, ∀ n, Node.Inside n (.classDecl c) → n.Exact (Cursor.ofTokens ts).ahead) ∧
    p.span.Holds (p.classes.map ClassDecl.span) ∧
    p.span = Token.extent (Cursor.ofTokens ts).whole := by
  have hspan := Program.span_of_ofTokens hts h
  have hwhole := Cursor.ordered_whole hts
  have hahead := hwhole.within (List.prefix_append _ _).isInfix
  refine ⟨fun bound => ⟨?_, ?_, ?_, ?_, ?_, ?_, ?_⟩, fun c hc n hn => ?_, ?_, hspan⟩
  · exact (Parser.places_writtenType bound).spansConsumed
  · exact (Parser.places_expression bound).spansConsumed
  · exact (Parser.places_declarator bound).spansConsumed
  · exact (Parser.places_statement bound).spansConsumed
  · exact (Parser.places_block bound).spansConsumed
  · exact (Parser.places_member bound).spansConsumed
  · exact (Parser.places_classDecl bound).spansConsumed
  · exact ((Program.standsAmong_of_ofTokens h hc).inside hn).exact hahead
  · have hrow := (Program.row_of_ofTokens h).token ⟨.eof, (Cursor.ofTokens ts).stop⟩
    have hholds := hrow.holds hwhole
    rw [List.map_map] at hholds
    rw [hspan]
    exact hholds

/-- The signed product in its class stands over its own tokens, behind the assignment sign. -/
theorem signedProduct_exact :
    Token.Ordered signedProductTokens ∧
    Program.ofTokens signedProductTokens = .ok signedProductProgram ∧
    (Node.expr signedProduct).Exact (signedProductTokens.take 22) ∧
    Token.extent ((signedProductTokens.drop 6).take 14) = signedProduct.span := by
  have hordered : Token.Ordered signedProductTokens := ⟨by decide, by decide⟩
  obtain ⟨-, hexact, -⟩ := Program.spans_exact hordered ofTokens_signedProductTokens
  refine ⟨hordered, ofTokens_signedProductTokens, ?_, rfl⟩
  refine hexact _ List.mem_cons_self _ ?_
  refine .deeper (List.mem_append_left _ (List.mem_cons_of_mem _ List.mem_cons_self)) ?_
  refine .deeper (List.mem_append_left _ (List.mem_cons_of_mem _ List.mem_cons_self)) ?_
  exact .deeper (List.mem_append_left _ List.mem_cons_self) (.self _)

end ClassCheck
