import ClassCheck.Parser.Basic
import Mathlib.Data.List.TakeWhile

/-!
# Cursors over token lists

A cursor stands in front of the tokens that are left, which may have ends of file anywhere among
them. It moves over one token at a time, and never over an end of file. So the tokens between two
places that it comes to are none of them ends of file, and what it can still come to are the tokens
before the first one.
-/

namespace ClassCheck

namespace Cursor

/-! ## One step -/

/-- At an end of file the cursor stays. -/
theorem advance_of_eof {c : Cursor} (h : c.current.kind = .eof) : c.advance = c := by
  obtain ⟨tokens, supplied, last⟩ := c
  cases tokens with
  | nil => rfl
  | cons t ts => exact if_pos h

/-- A token that is no end of file is the first of those that are left, and the cursor moves over
it. -/
theorem exists_tokens {c : Cursor} (h : c.current.kind ≠ .eof) :
    ∃ rest, c.tokens = c.current :: rest ∧ c.advance = ⟨rest, c.supplied, c.current.span⟩ := by
  obtain ⟨tokens, supplied, last⟩ := c
  cases tokens with
  | nil => exact absurd rfl h
  | cons t ts => exact ⟨ts, rfl, if_neg h⟩

/-! ## Moving over tokens -/

/-- A cursor has come from another one over some tokens. -/
structure Reaches (o : Cursor) (us : List Token) (c : Cursor) : Prop where
  /-- What was left is what it has come over and what is still left. -/
  split : o.tokens = us ++ c.tokens
  /-- It has come over no end of file. -/
  clean : ∀ u ∈ us, u.kind ≠ .eof
  /-- The end of file behind all tokens stands where it did. -/
  supplied_eq : c.supplied = o.supplied
  /-- The token consumed last is the last that it has come over. -/
  last_eq : c.last = (us.getLast?.map Token.span).getD o.last

/-- A cursor comes to where it is over no tokens. -/
theorem reaches_self (c : Cursor) : c.Reaches [] c := ⟨rfl, List.forall_mem_nil _, rfl, rfl⟩

/-- One move is over the token ahead. -/
theorem reaches_advance {c : Cursor} (h : c.current.kind ≠ .eof) :
    c.Reaches [c.current] c.advance := by
  obtain ⟨rest, htokens, hadvance⟩ := exists_tokens h
  rw [hadvance]
  exact ⟨htokens, List.forall_mem_singleton.mpr h, rfl, rfl⟩

/-- Moves can be put together. -/
theorem Reaches.trans {o c c' : Cursor} {us vs : List Token} (h : o.Reaches us c)
    (h' : c.Reaches vs c') : o.Reaches (us ++ vs) c' := by
  refine ⟨?_, List.forall_mem_append.mpr ⟨h.clean, h'.clean⟩,
    h'.supplied_eq.trans h.supplied_eq, ?_⟩
  · rw [h.split, h'.split, List.append_assoc]
  · rw [h'.last_eq, h.last_eq, List.getLast?_append]
    cases vs.getLast? <;> rfl

/-! ## Tokens before the end of file -/

/-- Nothing is ahead at an end of file. -/
theorem ahead_of_eof {c : Cursor} (h : c.current.kind = .eof) : c.ahead = [] := by
  obtain ⟨tokens, supplied, last⟩ := c
  cases tokens with
  | nil => rfl
  | cons t ts =>
    replace h : t.kind = .eof := h
    exact List.takeWhile_cons_of_neg (by simpa using h)

/-- What is ahead of a cursor that has come over tokens is what was ahead behind these. -/
theorem Reaches.ahead {o c : Cursor} {us : List Token} (h : o.Reaches us c) :
    o.ahead = us ++ c.ahead := by
  rw [Cursor.ahead, h.split, List.takeWhile_append_of_pos (by simpa using h.clean)]
  rfl

/-- The end of file stays where it is. -/
theorem Reaches.stop_eq {o c : Cursor} {us : List Token} (h : o.Reaches us c) :
    c.stop = o.stop := by
  have hnone : us.find? (·.kind = .eof) = none := by
    rw [List.find?_eq_none]
    simpa using h.clean
  rw [stop, stop, h.split, List.find?_append, hnone, Option.none_or, h.supplied_eq]

/-- Where there is no end of file, the token there is the first ahead. -/
theorem ahead_of_ne_eof {c : Cursor} (h : c.current.kind ≠ .eof) :
    c.ahead = c.current :: c.advance.ahead := (reaches_advance h).ahead

/-- So nothing is ahead just at an end of file. -/
theorem ahead_eq_nil_iff {c : Cursor} : c.ahead = [] ↔ c.current.kind = .eof := by
  refine ⟨fun h => ?_, ahead_of_eof⟩
  by_contra hkind
  rw [ahead_of_ne_eof hkind] at h
  cases h

/-- An end of file that the cursor is at is where the tokens stop. -/
theorem current_of_eof {c : Cursor} (h : c.current.kind = .eof) : c.current = ⟨.eof, c.stop⟩ := by
  obtain ⟨tokens, supplied, last⟩ := c
  cases tokens with
  | nil => rfl
  | cons t ts =>
    obtain ⟨kind, span⟩ := t
    obtain rfl : kind = .eof := h
    rfl

/-- The token ahead is the first before the end of file, or the end of file itself. -/
theorem current_of_ahead {c : Cursor} {t : Token} {rest : List Token} (h : c.ahead = t :: rest) :
    c.current = t ∧ t.kind ≠ .eof := by
  have hkind : c.current.kind ≠ .eof := by
    intro hkind
    rw [ahead_of_eof hkind] at h
    cases h
  rw [ahead_of_ne_eof hkind] at h
  obtain ⟨rfl, -⟩ := List.cons.inj h
  exact ⟨rfl, hkind⟩

/-- The kinds of the tokens before the end of file. -/
def kinds (c : Cursor) : List TokenKind := c.ahead.map Token.kind

/-- The first kind ahead is that of the token there. -/
theorem kinds_head? (c : Cursor) : c.kinds.head?.getD .eof = c.current.kind := by
  by_cases h : c.current.kind = .eof
  · rw [kinds, ahead_of_eof h, h]
    rfl
  · rw [kinds, ahead_of_ne_eof h]
    rfl

/-- The kinds that were ahead are those come over and those still ahead. -/
theorem Reaches.kinds {o c : Cursor} {us : List Token} (h : o.Reaches us c) :
    o.kinds = us.map Token.kind ++ c.kinds := by
  rw [Cursor.kinds, h.ahead, List.map_append]
  rfl

/-! ## Token lists -/

/-- A token list counts up to its first end of file, or as a whole if there is none. -/
theorem ofTokens_cases (ts : List Token) :
    (∃ t rest, t.kind = .eof ∧ ts = (ofTokens ts).ahead ++ t :: rest ∧
      (ofTokens ts).stop = t.span) ∨
    (ofTokens ts).ahead = ts ∧
      (ofTokens ts).stop = .point ((ts.getLast?.map (·.span.stop)).getD 0) := by
  have hsplit := List.takeWhile_append_dropWhile (p := fun t => t.kind ≠ .eof) (l := ts)
  have hfind : ts.find? (·.kind = .eof) = (ts.dropWhile (·.kind ≠ .eof)).head? := by
    rw [List.find?_eq_head?_dropWhile_not]
    congr 2
    funext t
    simp
  cases hrest : ts.dropWhile (·.kind ≠ .eof) with
  | nil =>
    rw [hrest, List.append_nil] at hsplit
    rw [hrest] at hfind
    refine .inr ⟨hsplit, ?_⟩
    rw [ofTokens, stop, hfind]
    rfl
  | cons t rest =>
    rw [hrest] at hsplit hfind
    have hkind : t.kind = .eof := by simpa using List.find?_some hfind
    refine .inl ⟨t, rest, hkind, hsplit.symm, ?_⟩
    rw [ofTokens, stop, hfind]
    rfl

/-- The tokens before the first end of file are ahead, and that is where they stop. -/
theorem ahead_stop_of_append {us : List Token} (hus : ∀ u ∈ us, u.kind ≠ .eof) {t : Token}
    (ht : t.kind = .eof) (rest : List Token) :
    (ofTokens (us ++ t :: rest)).ahead = us ∧ (ofTokens (us ++ t :: rest)).stop = t.span := by
  obtain ⟨c, hc, htokens⟩ : ∃ c, (ofTokens (us ++ t :: rest)).Reaches us c ∧
      c.tokens = t :: rest := ⟨⟨t :: rest, _, _⟩, ⟨rfl, hus, rfl, rfl⟩, rfl⟩
  have hcurrent : c.current = t := by
    rw [current, htokens]
    rfl
  have hkind : c.current.kind = .eof := hcurrent ▸ ht
  have hstop := congrArg Token.span (current_of_eof hkind)
  rw [hcurrent] at hstop
  exact ⟨by rw [hc.ahead, ahead_of_eof hkind, List.append_nil], hc.stop_eq.symm.trans hstop.symm⟩

end Cursor

end ClassCheck
