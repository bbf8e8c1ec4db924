import ClassCheck.Proofs.Lossless

/-!
# Looking ahead loses no token

A stream can be called in four ways: for the next token, for a look at it, for a test of its sort,
and for the token if it is of a sort. Some calls take an answer of the scanner away, others leave it
for the next call. Whatever the calls and their order, what they have taken away so far and what is
still to come are together what the scanner answers when nobody looks ahead.
-/

namespace ClassCheck.TokenStream

open Scanner

/-! ## Calls -/

/-- A call of a stream. -/
inductive Call where
  /-- Take the next token. -/
  | next
  /-- Look at the next token. -/
  | peek
  /-- Test whether the next token is of a sort. -/
  | check (kind : TokenKind)
  /-- Take the next token if it is of a sort. -/
  | accept (kind : TokenKind)
  deriving DecidableEq, Repr

/-- The stream after a call. -/
def step (s : TokenStream) : Call → TokenStream
  | .next => s.next.2
  | .peek => s.peek.2
  | .check kind => (s.check kind).2
  | .accept kind => (s.accept kind).2

/-- An error is taken away by the call that answers with it. -/
def failed {α : Type} : Except LexicalError α → List Answer
  | .ok _ => []
  | .error e => [.error e]

/-- What a call takes away: the token that it answers with, the token that it has accepted, or an
error. -/
def taken (s : TokenStream) : Call → List Answer
  | .next => [s.next.1]
  | .peek => failed s.peek.1
  | .check kind => failed (s.check kind).1
  | .accept kind =>
    match (s.accept kind).1 with
    | .ok true => [(s.check kind).2.next.1]
    | answer => failed answer

/-- The stream after calls in order. -/
def after (s : TokenStream) (calls : List Call) : TokenStream := calls.foldl step s

/-- What calls in order take away. -/
def takenBy : TokenStream → List Call → List Answer
  | _, [] => []
  | s, call :: calls => s.taken call ++ (s.step call).takenBy calls

/-! ## One call -/

/-- No token is looked at after one was taken. -/
theorem peeked_next (s : TokenStream) : s.next.2.peeked = none := by
  rw [next]
  split
  · rfl
  · rename_i hpeeked
    split
    · exact hpeeked
    · rfl

/-- A look at a token leaves it to be taken next. -/
theorem peek_of_ok {s : TokenStream} {t : Token} (h : s.next.1 = .ok t) :
    s.peek = (.ok t, ⟨some t, s.next.2.scanner, s.next.2.atEof⟩) ∧ s.peek.2.next = s.next := by
  have hnext : s.next = (.ok t, ⟨none, s.next.2.scanner, s.next.2.atEof⟩) := by
    rw [← h, ← peeked_next s]
  have hpeek : s.peek = (.ok t, ⟨some t, s.next.2.scanner, s.next.2.atEof⟩) := by
    unfold peek
    rw [hnext]
  exact ⟨hpeek, by rw [hpeek]; exact hnext.symm⟩

/-- An error is taken away by a look at it. -/
theorem peek_of_error {s : TokenStream} {e : LexicalError} (h : s.next.1 = .error e) :
    s.peek = (.error e, s.next.2) := by
  have hnext : s.next = (.error e, s.next.2) := by rw [← h]
  unfold peek
  rw [hnext]

/-- A look shows what would be taken next. -/
theorem peek_answer (s : TokenStream) : s.peek.1 = s.next.1 := by
  cases h : s.next.1 with
  | ok t => rw [(peek_of_ok h).1]
  | error e => rw [peek_of_error h]

/-- Looking for a kind is looking at the next token. -/
theorem check_eq (kind : TokenKind) (s : TokenStream) :
    s.check kind = (s.peek.1.map (·.kind.sameSort kind), s.peek.2) := by
  unfold check
  rcases s.peek with ⟨_ | t, s'⟩ <;> rfl

/-- A test is about what would be taken next. -/
theorem check_answer (kind : TokenKind) (s : TokenStream) :
    (s.check kind).1 = s.next.1.map (·.kind.sameSort kind) := by
  rw [check_eq, peek_answer]

/-- Where a test succeeds, the token is left to be taken next. -/
theorem next_of_check {kind : TokenKind} {s : TokenStream} (h : (s.check kind).1 = .ok true) :
    (s.check kind).2.next = s.next := by
  rw [check_answer] at h
  cases hnext : s.next.1 with
  | error e =>
    rw [hnext] at h
    cases h
  | ok t =>
    rw [check_eq]
    exact (peek_of_ok hnext).2

/-- A token for which a test succeeds is accepted and taken. -/
theorem accept_of_check {kind : TokenKind} {s : TokenStream} (h : (s.check kind).1 = .ok true) :
    s.accept kind = (.ok true, s.next.2) := by
  have hcheck : s.check kind = (.ok true, (s.check kind).2) := by rw [← h]
  unfold accept
  rw [hcheck]
  dsimp only
  rw [next_of_check h]

/-- Where a test does not succeed, nothing else is done. -/
theorem accept_of_not_check {kind : TokenKind} {s : TokenStream}
    (h : (s.check kind).1 ≠ .ok true) : s.accept kind = s.check kind := by
  unfold accept
  split
  · rename_i hcheck
    rw [hcheck] at h
    exact absurd rfl h
  · rename_i hcheck
    exact hcheck.symm

/-- To accept a token or not is about what would be taken next. -/
theorem accept_answer (kind : TokenKind) (s : TokenStream) :
    (s.accept kind).1 = s.next.1.map (·.kind.sameSort kind) := by
  rw [← check_answer]
  by_cases h : (s.check kind).1 = .ok true
  · rw [accept_of_check h, h]
  · rw [accept_of_not_check h]

/-! ## The flag at the end of the text -/

/-- The stream with its flag put down. -/
def unflagged (s : TokenStream) : TokenStream := { s with atEof := false }

/-- The flag is up only where nothing is left to read. -/
def Honest (s : TokenStream) : Prop := s.atEof = true → s.scanner.rest = []

theorem honest_ofText (source : String) : (ofText source).Honest := nofun

/-- A scanner that answers with the end of the text has nothing left to read. -/
theorem rest_of_isEof {s : Scanner} (h : isEof s.next.1 = true) : s.next.2.rest = [] := by
  obtain ⟨given, s', hreads, hend⟩ := s.exists_reads
  cases hreads with
  | done => rw [hend.next]
  | lexeme hw hheads _ =>
    rw [next_lexeme hw hheads, isEof_ofLexeme hheads] at h
    cases h

/-- With nothing left to read, a scanner answers with the end of the text and stays as it is. -/
theorem next_of_rest {s : Scanner} (h : s.rest = []) :
    s.next = (.ok ⟨.eof, .point (s.offset + Text.byteLength s.rest)⟩, s) := by
  have hend : s.AtEnd := ⟨[], [], h, .nil, .inl rfl⟩
  obtain ⟨offset, rest⟩ := s
  obtain rfl : rest = [] := h
  exact hend.next

/-- An answer leaves a stream honest. -/
theorem Honest.next {s : TokenStream} (h : s.Honest) : s.next.2.Honest := by
  rw [TokenStream.next]
  split
  · exact h
  · split
    · exact h
    · exact rest_of_isEof

/-- With the flag put down, the next answer is the same, and so is what is left behind it. -/
theorem Honest.next_unflagged {s : TokenStream} (h : s.Honest) :
    s.unflagged.next.1 = s.next.1 ∧ s.unflagged.next.2.unflagged = s.next.2.unflagged := by
  obtain ⟨peeked, scanner, atEof⟩ := s
  cases peeked with
  | some t => exact ⟨rfl, rfl⟩
  | none =>
    cases atEof with
    | false => exact ⟨rfl, rfl⟩
    | true =>
      -- Here alone the flag decides: without it the scanner is asked once more.
      have hnext := next_of_rest (h rfl)
      have hdown : (TokenStream.mk none scanner true).unflagged.next =
          (scanner.next.1, ⟨none, scanner.next.2, isEof scanner.next.1⟩) := rfl
      rw [hdown, hnext]
      exact ⟨rfl, rfl⟩

/-- So are the answers and what is left behind them in a call of any sort. -/
theorem Honest.step {s : TokenStream} (h : s.Honest) (call : Call) : (s.step call).Honest ∧
    (s.unflagged.step call).unflagged = (s.step call).unflagged := by
  obtain ⟨hanswer, hleft⟩ := h.next_unflagged
  have hpeek : s.peek.2.Honest ∧ s.unflagged.peek.2.unflagged = s.peek.2.unflagged := by
    cases hnext : s.next.1 with
    | ok t =>
      rw [(peek_of_ok hnext).1, (peek_of_ok (hanswer.trans hnext)).1]
      refine ⟨h.next, ?_⟩
      exact congrArg (fun s => TokenStream.mk (some t) s.scanner false) hleft
    | error e =>
      rw [peek_of_error hnext, peek_of_error (hanswer.trans hnext)]
      exact ⟨h.next, hleft⟩
  have hcheck : ∀ kind, (s.check kind).2.Honest ∧
      (s.unflagged.check kind).2.unflagged = (s.check kind).2.unflagged := by
    intro kind
    rw [check_eq, check_eq]
    exact hpeek
  cases call with
  | next => exact ⟨h.next, hleft⟩
  | peek => exact hpeek
  | check kind => exact hcheck kind
  | accept kind =>
    have hsame : (s.unflagged.check kind).1 = (s.check kind).1 := by
      rw [check_answer, check_answer, hanswer]
    rw [TokenStream.step, TokenStream.step]
    by_cases hyes : (s.check kind).1 = .ok true
    · rw [accept_of_check hyes, accept_of_check (hsame.trans hyes)]
      exact ⟨h.next, hleft⟩
    · rw [accept_of_not_check hyes, accept_of_not_check (hsame ▸ hyes)]
      exact hcheck kind

/-- Calls of any sort leave a stream honest. -/
theorem Honest.after {s : TokenStream} (h : s.Honest) (calls : List Call) :
    (s.after calls).Honest := by
  induction calls generalizing s with
  | nil => exact h
  | cons call calls ih => exact ih (h.step call).1

/-- The flag makes no difference. A stream whose flag is put down after each call is the same but
for the flag, and the next answer, which all four calls are about, is the same without it. -/
theorem atEof_redundant (source : String) (calls : List Call) :
    calls.foldl (fun s call => (s.step call).unflagged) (ofText source) =
      ((ofText source).after calls).unflagged ∧
    ((ofText source).after calls).unflagged.next.1 = ((ofText source).after calls).next.1 := by
  refine ⟨?_, ((honest_ofText source).after calls).next_unflagged.1⟩
  have hrun : ∀ s : TokenStream, s.Honest →
      calls.foldl (fun s call => (s.step call).unflagged) s.unflagged =
        (s.after calls).unflagged := by
    induction calls with
    | nil => exact fun s _ => rfl
    | cons call calls ih =>
      intro s h
      obtain ⟨hstep, hsame⟩ := h.step call
      rw [List.foldl_cons, hsame]
      exact ih _ hstep
  exact hrun (ofText source) (honest_ofText source)

/-! ## What is still to come -/

/-- What is still to come depends only on the next answer and what is left after it. -/
theorem answers_congr {s s' : TokenStream} (h : s.next = s'.next) (calls : Nat) :
    s.answers calls = s'.answers calls := by
  cases calls with
  | zero => rfl
  | succ calls => rw [answers, answers, h]

/-- A look takes away an error and nothing else. -/
theorem answers_peek (s : TokenStream) (calls : Nat) :
    s.answers ((failed s.peek.1).length + calls) =
      failed s.peek.1 ++ s.peek.2.answers calls := by
  cases h : s.next.1 with
  | ok t =>
    have hleft := answers_congr (peek_of_ok h).2
    rw [peek_answer, h, hleft]
    dsimp only [failed, List.length_nil, List.nil_append]
    rw [Nat.zero_add]
  | error e =>
    rw [peek_of_error h]
    dsimp only [failed, List.length_singleton]
    rw [Nat.add_comm, answers, h, List.singleton_append]

/-- So does a test for a kind. -/
theorem answers_check (kind : TokenKind) (s : TokenStream) (calls : Nat) :
    s.answers ((failed (s.check kind).1).length + calls) =
      failed (s.check kind).1 ++ (s.check kind).2.answers calls := by
  have hfailed : failed (s.check kind).1 = failed s.peek.1 := by
    rw [check_eq]
    cases s.peek.1 <;> rfl
  rw [hfailed, check_eq, answers_peek]

/-- What a call takes away and what is to come after it are what was to come before it. -/
theorem answers_step (s : TokenStream) (call : Call) (calls : Nat) :
    s.answers ((s.taken call).length + calls) = s.taken call ++ (s.step call).answers calls := by
  cases call with
  | next =>
    rw [taken, List.length_singleton, Nat.add_comm, answers, List.singleton_append]
    rfl
  | peek => exact s.answers_peek calls
  | check kind => exact answers_check kind s calls
  | accept kind =>
    by_cases h : (s.check kind).1 = .ok true
    · have haccept := accept_of_check h
      have htaken : s.taken (.accept kind) = [s.next.1] := by
        rw [taken, haccept, next_of_check h]
      rw [htaken, step, haccept, List.length_singleton, Nat.add_comm, answers,
        List.singleton_append]
    · have haccept := accept_of_not_check h
      have htaken : s.taken (.accept kind) = failed (s.check kind).1 := by
        rw [taken, haccept]
        split
        · rename_i hok
          exact absurd hok h
        · rfl
      rw [htaken, step, haccept]
      exact answers_check kind s calls

/-- What calls take away and what is to come after them are what was to come before them. -/
theorem answers_after (s : TokenStream) (calls : List Call) (more : Nat) :
    s.answers ((s.takenBy calls).length + more) =
      s.takenBy calls ++ (s.after calls).answers more := by
  induction calls generalizing s with
  | nil =>
    rw [takenBy, List.length_nil, Nat.zero_add]
    rfl
  | cons call calls ih =>
    rw [takenBy, List.length_append, Nat.add_assoc, answers_step, ih, List.append_assoc]
    rfl

/-- A token that was looked at is the next one to come. -/
theorem answers_peeked (s : TokenStream) :
    s.answers s.peeked.toList.length = s.peeked.toList.map .ok := by
  cases h : s.peeked with
  | none => rfl
  | some t =>
    have hnext : s.next.1 = .ok t := by rw [next, h]
    rw [Option.toList_some, List.length_singleton, answers, hnext]
    rfl

/-- From some answer on a stream over a text answers with the end of the text. -/
theorem exists_answers_eof (source : String) :
    ∃ n, ∀ more, (ofText source).answers (n + more) =
      (ofText source).answers n ++ List.replicate more (.ok ⟨.eof, .point source.utf8ByteSize⟩) := by
  obtain ⟨given, s', hreads, hend⟩ := (Scanner.ofText source).exists_reads
  have hgiven : (ofText source).answers given.length = given := by
    rw [← Nat.add_zero given.length]
    exact (answers_of_reads hreads 0).trans (List.append_nil _)
  refine ⟨given.length, fun more => ?_⟩
  rw [hgiven, ← hreads.stop_ofText, ← answers_of_atEnd hend]
  exact answers_of_reads hreads more

/-- Looking ahead never loses, doubles or reorders tokens. After any calls on a stream over a text,
what they have taken away, followed by the token that was looked at last, is how the answers begin
that the scanner gives when nobody looks ahead, the end of the text again and again at last. All
four calls are then about the same answer, the one behind those that were taken away. -/
theorem lookahead_keeps_answers (source : String) (calls : List Call) :
    (∃ n, (ofText source).takenBy calls ++ ((ofText source).after calls).peeked.toList.map .ok =
      (ofText source).answers n) ∧
    (∃ n, ∀ more, (ofText source).answers (n + more) =
      (ofText source).answers n ++
        List.replicate more (.ok ⟨.eof, .point source.utf8ByteSize⟩)) ∧
    ∃ a : Answer,
      (ofText source).answers (((ofText source).takenBy calls).length + 1) =
        (ofText source).takenBy calls ++ [a] ∧
      ((ofText source).after calls).next.1 = a ∧
      ((ofText source).after calls).peek.1 = a ∧
      ∀ kind,
        (((ofText source).after calls).check kind).1 = a.map (·.kind.sameSort kind) ∧
        (((ofText source).after calls).accept kind).1 = a.map (·.kind.sameSort kind) := by
  refine ⟨⟨((ofText source).takenBy calls).length +
    ((ofText source).after calls).peeked.toList.length, ?_⟩, exists_answers_eof source, _,
    answers_after (ofText source) calls 1, rfl, peek_answer _,
    fun kind => ⟨check_answer kind _, accept_answer kind _⟩⟩
  rw [answers_after, answers_peeked]

end ClassCheck.TokenStream
