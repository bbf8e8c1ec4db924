import ClassCheck.Proofs.Annotations
import ClassCheck.Proofs.Placement
import ClassCheck.Proofs.ScopeTrace

/-!
# Expressions hold no references

What an expression reads decays to the type that references lead to, so no expression has a
reference type. An element of an array could still be a reference, if only such an array could be
written. But a written type is a reference at most on the outside, so it decays to a type without
references, and from such types the types of all expressions of a parsed program come.
-/

namespace ClassCheck

namespace Ty

/-- Whether no layer of the type is a reference. -/
def isPlain : Ty → Bool
  | .primitive _ | .object _ => true
  | .array element _ => element.isPlain
  | .reference _ => false

/-- Whether no layer of the type is a reference, except maybe the outermost. -/
def isDeclarable : Ty → Bool
  | .reference referent => referent.isPlain
  | T => T.isPlain

private theorem isReference_decayed (T : Ty) : T.decayed.isReference = false := by
  induction T with
  | reference referent ih => exact ih
  | _ => rfl

private theorem decayed_of_isPlain {T : Ty} (h : T.isPlain = true) : T.decayed = T := by
  cases T with
  | reference referent => cases h
  | _ => rfl

private theorem isPlain_decayed_of_isDeclarable {T : Ty} (h : T.isDeclarable = true) :
    T.decayed.isPlain = true := by
  cases T with
  | reference referent =>
    have hplain : referent.isPlain = true := h
    rwa [decayed, decayed_of_isPlain hplain]
  | _ => exact h

end Ty

/-! ## Written types -/

/-- A type that the tokens spell is a reference at most on the outside. -/
theorem WrittenType.Spelled.isDeclarable {ks : List TokenKind} {type : WrittenType}
    (h : type.Spelled ks) : (Ty.ofWritten type).isDeclarable = true := by
  -- Inside brackets and before a reference mark stands no reference.
  suffices hboth : (Ty.ofWritten type).isDeclarable = true ∧
      (type.isReference = false → (Ty.ofWritten type).isPlain = true) from hboth.1
  induction h with
  | primitive => exact ⟨rfl, fun _ => rfl⟩
  | named => exact ⟨rfl, fun _ => rfl⟩
  | array helement _ _ ih => exact ⟨ih.2 helement, fun _ => ih.2 helement⟩
  | reference hreferent _ ih => exact ⟨ih.2 hreferent, nofun⟩

/-- All types in a parsed program are references at most on the outside. -/
theorem Program.writes_declarable {ts : List Token} {p : Program} (h : ofTokens ts = .ok p)
    {c : ClassDecl} (hc : c ∈ p.classes) :
    (Node.classDecl c).Writes fun T => T.isDeclarable = true := by
  intro type hin
  obtain ⟨us, -, hstands⟩ := (standsAmong_of_ofTokens h hc).inside hin
  exact WrittenType.Spelled.isDeclarable hstands.spelled

/-- The types in the head of a member are written in it. -/
theorem Member.inside_of_mem_annotations {m : Member} {type : WrittenType}
    (h : type ∈ m.annotations) : Node.Inside (.type type) (.member m) := by
  refine .deeper ?_ (.self _)
  rcases m with ⟨decl, span⟩ | ⟨decl, span⟩ | ⟨decl, span⟩ | ⟨decl, span⟩
  · obtain rfl := List.mem_singleton.mp h
    simp [Node.children, children]
  · simp only [annotations, List.mem_append, Option.mem_toList, List.mem_map] at h
    rcases h with hresult | ⟨param, hparam, rfl⟩
    · simp [Node.children, children, hresult]
    · exact List.mem_append_right _ (List.mem_map_of_mem hparam)
  · obtain ⟨param, hparam, rfl⟩ := List.mem_map.mp h
    exact List.mem_append_right _ (List.mem_map_of_mem hparam)
  · cases h

/-! ## Types of members -/

/-- The type that a member gives to values. -/
def ValueMember.given? : ValueMember → Option Ty
  | .attribute info => some info.type
  | .method signature => signature.result

/-- A member gives values types that are written in its head. -/
theorem Member.written_of_given {className : String} {m : Member} {d : Declaration}
    (hd : d ∈ m.declarations className) {member : ValueMember}
    (hmember : d.content = .value member) {T : Ty} (hT : member.given? = some T) :
    ∃ type ∈ m.annotations, T = .ofWritten type := by
  rcases m with ⟨decl, span⟩ | ⟨decl, span⟩ | ⟨decl, span⟩ | ⟨decl, span⟩
  · obtain ⟨e, -, rfl⟩ := List.mem_map.mp hd
    cases hmember
    cases hT
    exact ⟨decl.type, List.mem_singleton_self _, rfl⟩
  · obtain rfl := List.mem_singleton.mp hd
    cases hmember
    obtain ⟨type, htype, rfl⟩ := Option.map_eq_some_iff.mp hT
    exact ⟨type, List.mem_append_left _ (Option.mem_toList.mpr htype), rfl⟩
  all_goals
    obtain rfl := List.mem_singleton.mp hd
    cases hmember

/-- What a class gives is of a type that is written in it. -/
theorem ClassDecl.written_of_gives {c : ClassDecl} {T : Ty} (h : c.view.Gives T) :
    ∃ m ∈ c.members, ∃ type ∈ m.annotations, T = .ofWritten type := by
  have hfound : ∀ {name member}, c.declarations.findSome? (·.value? name) = some member →
      member.given? = some T → ∃ m ∈ c.members, ∃ type ∈ m.annotations, T = .ofWritten type := by
    intro name member hfind hT
    obtain ⟨d, hd, hvalue⟩ := List.exists_of_findSome?_eq_some hfind
    obtain ⟨m, hm, hd⟩ := List.mem_flatMap.mp hd
    exact ⟨m, hm, m.written_of_given hd (Declaration.value?_eq_some.mp hvalue).2 hT⟩
  cases h with
  | ofAttribute hinfo =>
    obtain ⟨member, hmember, hi⟩ := Option.bind_eq_some_iff.mp hinfo
    cases member with
    | method signature => cases hi
    | _ =>
      cases hi
      exact hfound hmember rfl
  | ofResult hsignature hresult =>
    obtain ⟨member, hmember, hs⟩ := Option.bind_eq_some_iff.mp hsignature
    cases member with
    | method signature =>
      cases hs
      exact hfound hmember hresult
    | _ => cases hs

private theorem ClassEntry.slot_of_gives {e : ClassEntry} {T : Ty} (h : e.view.Gives T) :
    ∃ slot ∈ e.slots, ∃ member, slot.2.value = some member ∧ member.given? = some T := by
  have hslot : ∀ {name member}, (e.slotOf name).value = some member →
      ∃ slot ∈ e.slots, slot.2.value = some member := by
    intro name member hvalue
    unfold slotOf slot? at hvalue
    cases hl : e.slots.lookup name with
    | none =>
      rw [hl] at hvalue
      cases hvalue
    | some slot =>
      rw [hl] at hvalue
      obtain ⟨l₁, l₂, hsplit, -⟩ := List.lookup_eq_some_iff.mp hl
      exact ⟨(name, slot), by simp [hsplit], hvalue⟩
  cases h with
  | ofAttribute hinfo =>
    simp only [view, attribute?] at hinfo
    split at hinfo
    · rename_i hvalue
      cases hinfo
      obtain ⟨slot, hmem, hv⟩ := hslot hvalue
      exact ⟨slot, hmem, _, hv, rfl⟩
    · cases hinfo
  | ofResult hsignature hresult =>
    simp only [view, method?] at hsignature
    split at hsignature
    · rename_i hvalue
      cases hsignature
      obtain ⟨slot, hmem, hv⟩ := hslot hvalue
      exact ⟨slot, hmem, _, hv, hresult⟩
    · cases hsignature

/-- The built-in class gives primitive values. -/
theorem ClassTable.primitive_of_ioEntry_gives {T : Ty} (h : ioEntry.view.Gives T) :
    ∃ type, T = .primitive type := by
  obtain ⟨slot, hslot, member, hmember, hT⟩ := ClassEntry.slot_of_gives h
  simp only [ioEntry, List.mem_cons, List.not_mem_nil, or_false] at hslot
  rcases hslot with rfl | rfl | rfl | rfl | rfl | rfl | rfl | rfl | rfl <;> cases hmember <;>
    cases hT <;> exact ⟨_, rfl⟩

/-- The types that members give to values are primitive or written in the heads of members. -/
theorem Program.written_of_gives {p : Program} {name : String} {v : ClassView} {T : Ty}
    (hv : p.declared name = some v) (hT : v.Gives T) :
    (∃ type, T = .primitive type) ∨
      ∃ c ∈ p.classes, ∃ m ∈ c.members, ∃ type ∈ m.annotations, T = .ofWritten type := by
  unfold declared at hv
  split at hv
  · cases hv
    exact .inl (ClassTable.primitive_of_ioEntry_gives hT)
  · obtain ⟨c, hfind, rfl⟩ := Option.map_eq_some_iff.mp hv
    exact .inr ⟨c, List.mem_of_find?_eq_some hfind, c.written_of_gives hT⟩

/-! ## Types of expressions -/

namespace Context

/-- Whatever the classes and the names are, no value is a reference. -/
theorem carries_isReference (ctx : Context) (s : Scope) :
    ctx.Carries (fun T => T.isReference = false) s where
  primitive _ := rfl
  current := rfl
  declared _ _ := rfl
  members _ _ T _ _ := T.isReference_decayed
  names _ l _ := l.type.isReference_decayed
  array _ _ _ := rfl
  element T _ _ := T.isReference_decayed
  decayed T _ := T.isReference_decayed

/-- If types are declared as references at most on the outside, no value holds a reference. -/
theorem carries_isPlain {ctx : Context} {s : Scope}
    (hmembers : ∀ c v T, ctx.table.classes c = some v → v.Gives T → T.isDeclarable = true)
    (hnames : s.env.All fun T => T.isDeclarable = true) :
    ctx.Carries (fun T => T.isPlain = true) s where
  primitive _ := rfl
  current := rfl
  declared _ _ := rfl
  members c v T hv hT := Ty.isPlain_decayed_of_isDeclarable (hmembers c v T hv hT)
  names _ _ hl := Ty.isPlain_decayed_of_isDeclarable (hnames.lookup hl)
  array _ _ hT := hT
  element T _ hT := by
    have hplain : T.isPlain = true := hT
    rwa [Ty.decayed_of_isPlain hplain]
  decayed T hT := by rwa [Ty.decayed_of_isPlain hT]

end Context

/-- A type that is given in a scope has every property that the scope carries. -/
theorem Visit.At.all {P : Ty → Prop} {ctx : Context} {s : Scope} (h : ctx.Carries P s)
    {v : Visit} (hv : v.At ctx s) : v.type.All P := by
  cases hv with
  | expr e => exact Context.exprType_all h e
  | value e => exact Context.valueType_all h e
  | place stmt place hscope =>
    rw [← hscope] at h
    exact Context.target_all h stmt place

/-- In all scopes that the check of a parsed program goes through, no value holds a reference. -/
theorem ClassTable.carries_of_reached {ts : List Token} {p : Program}
    (hp : Program.ofTokens ts = .ok p) {t : ClassTable} (ht : build p = .ok t) {walk : Walk}
    {ops : List ScopeOp} (hops : ops <+: t.scopeOps walk p) {ctx : Context} (hctx : ctx.table = t) :
    ctx.Carries (fun T => T.isPlain = true) (Scope.global.run ops) := by
  have hwritten := fun c hc => Program.writes_declarable hp (c := c) hc
  have hnames : (Scope.global.run ops).env.All fun T => T.isDeclarable = true :=
    @all_of_reached (fun T => T.isDeclarable = true) rfl rfl t walk p hwritten ops hops
  refine Context.carries_isPlain ?_ hnames
  intro name v T hv hT
  rw [hctx, classes_of_build ht] at hv
  rcases Program.written_of_gives hv hT with ⟨type, rfl⟩ | ⟨c, hc, m, hm, type, htype, rfl⟩
  · rfl
  · have hmember : Node.member m ∈ (Node.classDecl c).children :=
      List.mem_append_right _ (List.mem_map_of_mem hm)
    exact (hwritten c hc).child hmember type (m.inside_of_mem_annotations htype)

/-- No expression has a reference type, whatever the classes and names around it are. In a program
that the parser gives, all written types are references at most on the outside; so in every scope
that the check of its members goes through, however far it goes, no expression has a type that
holds a reference at any depth, and no such type is given to any expression on the way. -/
theorem expressions_hold_no_references :
    (∀ (ctx : Context) (s : Scope) (e : Expr) (T : Ty),
      (ctx.exprType s e).value = .known T → T.isReference = false) ∧
    ∀ (ts : List Token) (p : Program), Program.ofTokens ts = .ok p →
      (∀ c ∈ p.classes, ∀ type, Node.Inside (.type type) (.classDecl c) →
        (Ty.ofWritten type).isDeclarable = true) ∧
      ∀ (t : ClassTable) (walk : Walk), ClassTable.build p = .ok t →
        (t.checkClasses walk p.classes .start).scope = Scope.global.run (t.scopeOps walk p) ∧
        (∀ (ops : List ScopeOp) (ctx : Context), ops <+: t.scopeOps walk p → ctx.table = t →
          ∀ (e : Expr) (T : Ty), (ctx.exprType (Scope.global.run ops) e).value = .known T →
            T.isPlain = true) ∧
        ∀ v ∈ t.visits walk p, ∀ T, v.type = .known T → T.isPlain = true := by
  refine ⟨fun ctx s e => Context.exprType_all (ctx.carries_isReference s) e, ?_⟩
  intro ts p hp
  refine ⟨fun c hc => Program.writes_declarable hp hc, fun t walk ht => ⟨?_, ?_, ?_⟩⟩
  · exact t.checkClasses_run walk p
  · intro ops ctx hops hctx e
    exact Context.exprType_all (ClassTable.carries_of_reached hp ht hops hctx) e
  · intro v hv
    obtain ⟨ctx, ops, hctx, hops, hat⟩ := t.visits_along walk p v hv
    exact hat.all (ClassTable.carries_of_reached hp ht hops hctx)

/-- The tokens of a class with a method that writes to the first of two numbers it gets a
reference to. -/
def binTokens : List Token :=
  let kinds : List TokenKind := [.keyword .kwClass, .identifier "Bin", .symbol .lbrace,
    .keyword .kwVoid, .identifier "fill", .symbol .lparen, .keyword .kwInt, .symbol .lbracket,
    .integer "2", .symbol .rbracket, .symbol .amp, .identifier "cells", .symbol .rparen,
    .symbol .lbrace, .identifier "cells", .symbol .lbracket, .integer "0", .symbol .rbracket,
    .symbol .assign, .integer "1", .symbol .semi, .symbol .rbrace, .symbol .rbrace, .eof]
  kinds.map fun kind => ⟨kind, ⟨0, 0⟩⟩

/-- The class as a tree. -/
def bin : Program :=
  let cells := .reference (.array (.primitive .int ⟨0, 0⟩) 2 ⟨0, 0⟩) ⟨0, 0⟩
  let first := .index (.ident "cells" ⟨0, 0⟩) (.int 0 ⟨0, 0⟩) ⟨0, 0⟩
  let body := [.assign first (.int 1 ⟨0, 0⟩) ⟨0, 0⟩]
  let fill := .method ⟨false, none, "fill", [⟨"cells", cells, ⟨0, 0⟩⟩], ⟨body, ⟨0, 0⟩⟩⟩ ⟨0, 0⟩
  ⟨[⟨⟨"Bin", ⟨0, 0⟩⟩, none, [fill], ⟨0, 0⟩⟩], ⟨0, 0⟩⟩

/-- The table of its classes. -/
def binTable : ClassTable where
  entries := [ClassTable.ioEntry, ⟨"Bin", none, [("fill",
    ⟨some (.method ⟨none, [("cells", .reference (.array .int 2))], false⟩), none, false⟩)]⟩]
  hasEntryPoint := false

/-- In the body of the method the parameter is a reference, but read as an array of numbers. -/
theorem bin_holds_no_references :
    let ops := [.push, .define ⟨"cells", .parameter, .reference (.array .int 2), true⟩]
    let ctx := Context.ofClass .untilSettled binTable "Bin"
    let cells := Expr.ident "cells" ⟨0, 0⟩
    Program.ofTokens binTokens = .ok bin ∧ ClassTable.build bin = .ok binTable ∧
      ops <+: binTable.scopeOps .untilSettled bin ∧
      (ctx.exprType (Scope.global.run ops) cells).value = .known (.array .int 2) ∧
      (Ty.array .int 2).isPlain = true ∧
      ⟨cells, .known (.array .int 2)⟩ ∈ binTable.visits .untilSettled bin := by
  intro ops ctx cells
  have hp : Program.ofTokens binTokens = .ok bin := rfl
  have ht : ClassTable.build bin = .ok binTable := by decide +kernel
  have hops : ops <+: binTable.scopeOps .untilSettled bin := by decide +kernel
  have htype : (ctx.exprType (Scope.global.run ops) cells).value = .known (.array .int 2) := rfl
  obtain ⟨-, hreached, -⟩ := (expressions_hold_no_references.2 binTokens bin hp).2 binTable
    .untilSettled ht
  exact ⟨hp, ht, hops, htype, hreached ops ctx hops rfl cells _ htype,
    List.mem_of_getElem? (i := 2) rfl⟩

end ClassCheck
