/-
# ScriptLang.Proofs.Syntax.Lookahead — a reader sees what it takes and one token more.

A reader on a stream takes some tokens off its front and stops at the token that is next.  With the same
tokens in front of any other stream that shows the same token next, it does the same: it takes them for
the same phrase, or fails with the same error.  Where a phrase ends with a token of its own, as an argument
list does, not even the next token matters; after an operand it matters only whether it goes on there, which
its kind tells.

Each rule of the grammar gives this from its parts, and so does the bound on nesting.  A whole program stops
at the first end token, so what is behind that is no part of what it says; and an error is told by the
tokens up to the one at which the reader stopped.
-/
import ScriptLang.Proofs.FrontEnd
import ScriptLang.Proofs.Syntax.Reads

namespace ScriptLang

/-! ## Streams -/

namespace TokenStream

/-- The end token stands at the end and nowhere else. -/
structure Proper (s : TokenStream) : Prop where
  ended : s.eof.kind = .eof
  inner : ∀ t ∈ s.tokens, t.kind ≠ .eof

variable {s t u : TokenStream} {w : List Token}

theorem ofList_proper (ts : List Token) : (ofList ts).Proper := ⟨ofList_eof ts, ofList_inner ts⟩

theorem Proper.rest (h : (s.prepend w).Proper) : s.Proper :=
  ⟨h.ended, fun t member => h.inner t (List.mem_append_right w member)⟩

/-- Tokens of one proper stream may stand in front of another. -/
theorem Proper.swap (h : (s.prepend w).Proper) (hu : u.Proper) : (u.prepend w).Proper where
  ended := hu.ended
  inner t member := by
    rcases List.mem_append.1 member with front | behind
    · exact h.inner t (List.mem_append_left _ front)
    · exact hu.inner t behind

/-- At its end a proper stream has nothing left. -/
theorem Proper.tokens_nil (h : s.Proper) (eof : s.peek.kind = .eof) : s.tokens = [] := by
  obtain ⟨_ | ⟨t, rest⟩, last⟩ := s
  · rfl
  · exact absurd eof (h.inner t List.mem_cons_self)

theorem Proper.next_of_eof (h : s.Proper) (eof : s.peek.kind = .eof) : s.next = s := by
  have none := h.tokens_nil eof
  obtain ⟨tokens, last⟩ := s
  subst none
  rfl

/-- A stream that is not at its end is its next token in front of what is left. -/
theorem Proper.eq_prepend (h : s.Proper) (more : s.peek.kind ≠ .eof) : s = s.next.prepend [s.peek] := by
  obtain ⟨_ | ⟨t, rest⟩, last⟩ := s
  · exact absurd h.ended more
  · rfl

/-- The next token is the first one in front, if there is one. -/
theorem peek_prepend_congr (h : w ≠ [] ∨ u.peek = t.peek) : (u.prepend w).peek = (t.prepend w).peek := by
  cases w with
  | nil => exact h.resolve_left fun none => none rfl
  | cons first rest => rfl

/-! ### Semicolons -/

/-- A stream is its semicolons in front of what is left without them. -/
theorem semicolons_in_front (s : TokenStream) :
    s = s.dropSemicolons.prepend (s.tokens.takeWhile (·.kind = .sign .semicolon)) := by
  obtain ⟨tokens, eof⟩ := s
  simp only [dropSemicolons, prepend, List.takeWhile_append_dropWhile]

theorem dropSemicolons_stops (ended : s.eof.kind = .eof) : s.dropSemicolons.peek.kind ≠ .sign .semicolon := by
  obtain ⟨tokens, eof⟩ := s
  induction tokens with
  | nil =>
    intro semicolon
    cases ended.symm.trans semicolon
  | cons t rest ih =>
    by_cases found : t.kind = .sign .semicolon
    · simp only [dropSemicolons, List.dropWhile_cons, found, decide_true, if_true]
      exact ih ended
    · simp only [dropSemicolons, List.dropWhile_cons, found, decide_false, Bool.false_eq_true, if_false]
      exact found

theorem dropSemicolons_prepend (all : ∀ t ∈ w, t.kind = .sign .semicolon)
    (other : s.peek.kind ≠ .sign .semicolon) : (s.prepend w).dropSemicolons = s := by
  have dropped := dropSemicolons_of_ne other
  rw [dropSemicolons] at dropped
  rw [dropSemicolons, prepend, List.dropWhile_append_of_pos fun t member => decide_eq_true (all t member)]
  exact dropped

end TokenStream

/-! ## Readers -/

/-- An error that names a token names this one, which is not of the kind that was needed. -/
def ParseError.FoundAt (e : ParseError) (t : Token) : Prop :=
  ∀ expected found value place, e.fault = .unexpected expected found value place →
    t = ⟨found, value, e.span⟩ ∧ found ≠ expected

namespace Parse

variable {α β ι : Type}

/-- No kind of token. -/
def noKind : Kind → Prop := fun _ => False

/-- On `s` the reader `p` takes `k` tokens or more if it succeeds, and wherever these tokens stand and the same
token is next after them, each of the readers `q` does the same.  If `p` succeeds, a next token of a kind of
`next` does as well; if it fails, but not for a bound, its error is about the next token. -/
structure LocalAt (k : Nat) (next : Kind → Prop) (p : Parse α) (q : ι → Parse α) (s : TokenStream) : Prop where
  reads : ∀ a t, p s = .ok (a, t) → ∃ w, k ≤ w.length ∧ s = t.prepend w ∧
    ∀ i (u : TokenStream), u.Proper → u.peek = t.peek ∨ next u.peek.kind → q i (u.prepend w) = .ok (a, u)
  fails : ∀ e, p s = .error e → e.fault ≠ .invalid .tooDeep →
    ∃ w t, s = TokenStream.prepend t w ∧ e.FoundAt t.peek ∧
      ∀ i (u : TokenStream), u.Proper → u.peek = t.peek → q i (u.prepend w) = .error e

/-- What `p` does, each of the readers `q` does from what `p` sees: the tokens that it takes, `k` or more, and
of the token after them at most whether its kind is one of `next`. -/
def Local (k : Nat) (next : Kind → Prop) (p : Parse α) (q : ι → Parse α) : Prop :=
  ∀ s, s.Proper → LocalAt k next p q s

variable {j k : Nat} {next next' : Kind → Prop} {p p' : Parse α} {q q' : ι → Parse α} {c : α → Parse β}
  {d : ι → α → Parse β} {s : TokenStream}

namespace LocalAt

theorem mono (h : LocalAt k next p q s) (le : j ≤ k) (sub : ∀ kind, next' kind → next kind) :
    LocalAt j next' p q s where
  reads a t read := by
    obtain ⟨w, long, split, same⟩ := h.reads a t read
    exact ⟨w, Nat.le_trans le long, split, fun i u hu seen => same i u hu (seen.imp_right (sub _))⟩
  fails := h.fails

/-- A reader that takes the tokens `w`. -/
theorem ok {a : α} {t : TokenStream} (w : List Token) (long : k ≤ w.length) (read : p s = .ok (a, t))
    (split : s = t.prepend w)
    (same : ∀ i (u : TokenStream), u.Proper → u.peek = t.peek ∨ next u.peek.kind →
      q i (u.prepend w) = .ok (a, u)) :
    LocalAt k next p q s where
  reads b u read' := by
    rw [read] at read'
    cases read'
    exact ⟨w, long, split, same⟩
  fails e failed := by
    rw [read] at failed
    cases failed

/-- A reader that fails at once. -/
theorem error {e : ParseError} (failed : p s = .error e) (found : e.FoundAt s.peek)
    (same : ∀ i (u : TokenStream), u.Proper → u.peek = s.peek → q i u = .error e) : LocalAt k next p q s where
  reads a t read := by
    rw [failed] at read
    cases read
  fails e' failed' _ := by
    rw [failed] at failed'
    cases failed'
    exact ⟨[], s, rfl, found, same⟩

/-- Two readers in turn.  What the second takes, or else what may come after it, has to be something that the
first may meet. -/
theorem bind (hs : s.Proper) (h : LocalAt j next p q s)
    (l : ∀ a t, p s = .ok (a, t) → LocalAt k next' (c a) (d · a) t)
    (compat : 0 < k ∨ ∀ kind, next' kind → next kind) : LocalAt (j + k) next' (p >>= c) (fun i => q i >>= d i) s where
  reads b u read := by
    obtain ⟨a, t, first, second⟩ := bind_eq_ok.1 read
    obtain ⟨w, long, rfl, same⟩ := h.reads a t first
    obtain ⟨v, long', rfl, same'⟩ := (l a t first).reads b u second
    refine ⟨w ++ v, by rw [List.length_append]; omega, by rw [TokenStream.prepend_append], ?_⟩
    intro i x hx seen
    rw [TokenStream.prepend_append]
    refine bind_eq_ok.2 ⟨a, x.prepend v, same i _ (hs.rest.swap hx) ?_, same' i x hx seen⟩
    by_cases taken : v = []
    · -- then the second reader takes nothing, and both meet the same token
      subst taken
      have none : ¬0 < k := fun some => Nat.not_lt.2 long' some
      exact seen.imp_right (compat.resolve_left none _)
    · exact .inl (TokenStream.peek_prepend_congr (.inl taken))
  fails e failed other := by
    rw [bind_run] at failed
    cases first : p s with
    | error e' =>
      rw [first] at failed
      cases failed
      obtain ⟨w, t, split, found, same⟩ := h.fails e first other
      exact ⟨w, t, split, found, fun i u hu seen => by rw [bind_run, same i u hu seen]⟩
    | ok r =>
      obtain ⟨a, t⟩ := r
      rw [first] at failed
      obtain ⟨w, -, rfl, same⟩ := h.reads a t first
      obtain ⟨v, t, rfl, found, same'⟩ := (l a t first).fails e failed other
      refine ⟨w ++ v, t, by rw [TokenStream.prepend_append], found, fun i u hu seen => ?_⟩
      have ahead : (u.prepend v).peek = (t.prepend v).peek := TokenStream.peek_prepend_congr (.inr seen)
      rw [TokenStream.prepend_append, bind_of_ok (same i _ (hs.rest.swap hu) (.inl ahead))]
      exact same' i u hu seen

theorem map (f : α → β) (h : LocalAt k next p q s) : LocalAt k next (f <$> p) (fun i => f <$> q i) s where
  reads b t read := by
    cases first : p s with
    | error e =>
      rw [map_run, first] at read
      cases read
    | ok r =>
      obtain ⟨a, t'⟩ := r
      rw [map_of_ok first] at read
      cases read
      obtain ⟨w, long, split, same⟩ := h.reads a t first
      exact ⟨w, long, split, fun i u hu seen => map_of_ok (same i u hu seen) f⟩
  fails e failed other := by
    cases first : p s with
    | error e' =>
      rw [map_run, first] at failed
      cases failed
      obtain ⟨w, t, split, found, same⟩ := h.fails e first other
      exact ⟨w, t, split, found, fun i u hu seen => by rw [map_run, same i u hu seen]⟩
    | ok r =>
      rw [map_run, first] at failed
      cases failed

theorem ite {cond : Prop} [Decidable cond] (h : cond → LocalAt k next p q s)
    (h' : ¬cond → LocalAt k next p' q' s) :
    LocalAt k next (if cond then p else p') (fun i => if cond then q i else q' i) s := by
  split
  · exact h ‹_›
  · exact h' ‹_›

/-- A token that is not the end is taken whatever comes after it. -/
theorem advance (hs : s.Proper) (taken : s.peek.kind ≠ .eof) :
    LocalAt 1 next Parse.advance (fun _ : ι => Parse.advance) s :=
  .ok [s.peek] (Nat.le_refl 1) rfl (hs.eq_prepend taken) fun _ _ _ _ => rfl

/-- A reader that looks at a token goes on with that token in hand; it takes the token, or else what comes is
the same. -/
theorem peek_bind {c : Token → Parse β} {d : ι → Token → Parse β} (compat : 0 < k ∨ ∀ kind, ¬next kind)
    (h : LocalAt k next (c s.peek) (d · s.peek) s) : LocalAt k next (Parse.peek >>= c) (fun i => Parse.peek >>= d i) s where
  reads a t read := by
    obtain ⟨w, long, rfl, same⟩ := h.reads a t read
    refine ⟨w, long, rfl, fun i u hu seen => ?_⟩
    have ahead : (u.prepend w).peek = (t.prepend w).peek := by
      refine TokenStream.peek_prepend_congr ?_
      rcases compat with some | none
      · exact .inl (List.length_pos_iff.1 (Nat.lt_of_lt_of_le some long))
      · exact .inr (seen.resolve_right (none _))
    rw [Parse.peek_bind, ahead, same i u hu seen]
  fails e failed other := by
    obtain ⟨w, t, rfl, found, same⟩ := h.fails e failed other
    refine ⟨w, t, rfl, found, fun i u hu seen => ?_⟩
    rw [Parse.peek_bind, TokenStream.peek_prepend_congr (.inr seen)]
    exact same i u hu seen

theorem advance_bind {c : Token → Parse β} {d : ι → Token → Parse β} (hs : s.Proper) (taken : s.peek.kind ≠ .eof)
    (h : Local 0 next (c s.peek) (d · s.peek)) :
    LocalAt 1 next (Parse.advance >>= c) (fun i => Parse.advance >>= d i) s := by
  have one : LocalAt 1 next Parse.advance (fun _ : ι => Parse.advance) s := .advance hs taken
  refine one.bind (k := 0) hs (fun t u read => ?_) (.inr fun _ => id)
  cases read
  exact h _ (TokenStream.Proper.rest (w := [s.peek]) (hs.eq_prepend taken ▸ hs))

/-- The token that is needed is another one. -/
theorem unexpected {expected : Kind} {place : Place} (other : s.peek.kind ≠ expected) :
    LocalAt k next (Parse.unexpected expected place : Parse α) (fun _ : ι => Parse.unexpected expected place) s := by
  refine .error rfl ?_ fun _ u _ seen => by unfold Parse.unexpected; rw [seen]
  intro expected found value place same
  cases same
  exact ⟨rfl, other⟩

end LocalAt

namespace Local

theorem mono (h : Local k next p q) (le : j ≤ k) (sub : ∀ kind, next' kind → next kind) : Local j next' p q :=
  fun s hs => (h s hs).mono le sub

theorem weaken (h : Local k noKind p q) : Local 0 noKind p q := h.mono (Nat.zero_le k) fun _ => id

/-- A reader that takes a token after one that sees it. -/
theorem before (h : Local 0 noKind p q) (l : ∀ a, Local (k + 1) next (c a) (d · a)) :
    Local (k + 1) next (p >>= c) (fun i => q i >>= d i) := by
  intro s hs
  refine ((h s hs).bind hs (fun a t read => l a t ?_) (.inl (Nat.succ_pos k))).mono (Nat.le_add_left _ _)
    fun _ => id
  obtain ⟨w, -, rfl, -⟩ := (h s hs).reads a t read
  exact hs.rest

/-- A reader that may take nothing, after one that sees no more of what comes. -/
theorem andThen (h : Local k next p q) (l : ∀ a, Local 0 next (c a) (d · a)) :
    Local k next (p >>= c) (fun i => q i >>= d i) := by
  intro s hs
  refine (h s hs).bind (k := 0) hs (fun a t read => l a t ?_) (.inr fun _ => id)
  obtain ⟨w, -, rfl, -⟩ := (h s hs).reads a t read
  exact hs.rest

/-- Two readers in turn, each of which sees the token after what it takes. -/
theorem bind (h : Local 0 noKind p q) (l : ∀ a, Local 0 noKind (c a) (d · a)) :
    Local 0 noKind (p >>= c) (fun i => q i >>= d i) := h.andThen l

theorem map (f : α → β) (h :
    Local k next p q) : Local k next (f <$> p) (fun i => f <$> q i) := fun s hs => (h s hs).map f

theorem ite {cond : Prop} [Decidable cond] (h : Local k next p q) (h' : Local k next p' q') :
    Local k next (if cond then p else p') (fun i => if cond then q i else q' i) :=
  fun s hs => .ite (fun _ => h s hs) fun _ => h' s hs

theorem pure (a : α) : Local 0 next (Pure.pure a) (fun _ : ι => Pure.pure a) :=
  fun _ _ => .ok [] (Nat.le_refl 0) rfl rfl fun _ _ _ _ => rfl

theorem invalid (span : Span) (breach : RuleBreach) :
    Local k next (Parse.invalid span breach : Parse α) (fun _ : ι => Parse.invalid span breach) :=
  fun _ _ => .error rfl (fun _ _ _ _ => nofun) fun _ _ _ _ => rfl

theorem tooDeep : Local k next (Parse.tooDeep : Parse α) q := fun _ _ => by
  refine ⟨fun _ _ => nofun, fun e failed other => absurd ?_ other⟩
  cases failed
  rfl

theorem peek : Local 0 noKind Parse.peek (fun _ : ι => Parse.peek) := by
  refine fun s _ => .ok [] (Nat.le_refl 0) rfl rfl fun _ u _ seen => ?_
  rw [TokenStream.prepend_nil, Parse.peek, seen.resolve_right id]

/-- Whether a token can be taken is seen at that token. -/
theorem advance : Local 0 noKind Parse.advance (fun _ : ι => Parse.advance) := by
  intro s hs
  by_cases eof : s.peek.kind = .eof
  · refine .ok [] (Nat.le_refl 0) rfl (hs.next_of_eof eof).symm fun i u hu seen => ?_
    have same : u.peek = s.peek := by rw [seen.resolve_right id, hs.next_of_eof eof]
    rw [TokenStream.prepend_nil, Parse.advance, hu.next_of_eof (same ▸ eof), same]
  · have one : LocalAt 1 noKind Parse.advance (fun _ : ι => Parse.advance) s := .advance hs eof
    exact one.mono (Nat.zero_le 1) fun _ => id

theorem accept {kind : Kind} (taken : kind ≠ .eof) :
    Local 0 noKind (Parse.accept kind) (fun _ : ι => Parse.accept kind) := by
  intro s hs
  by_cases found : s.peek.kind = kind
  · exact .ok [s.peek] (Nat.zero_le 1) (if_pos found) (hs.eq_prepend (found ▸ taken)) fun _ _ _ _ => if_pos found
  · refine .ok [] (Nat.le_refl 0) (if_neg found) rfl fun _ u _ seen => if_neg ?_
    rwa [TokenStream.prepend_nil, seen.resolve_right id]

theorem expect {kind : Kind} (place : Place) (taken : kind ≠ .eof) :
    Local 1 next (Parse.expect kind place) (fun _ : ι => Parse.expect kind place) := by
  intro s hs
  by_cases found : s.peek.kind = kind
  · exact .ok [s.peek] (Nat.le_refl 1) (if_pos found) (hs.eq_prepend (found ▸ taken)) fun _ _ _ _ => if_pos found
  · refine .error (if_neg found) ?_ fun _ u _ seen => ?_
    · intro expected found' value place' same
      cases same
      exact ⟨rfl, found⟩
    · unfold Parse.expect
      rw [seen, if_neg found]

theorem expectName (place : Place) :
    Local 1 next (Parse.expectName place) (fun _ : ι => Parse.expectName place) :=
  (expect place (by decide)).andThen fun _ => pure _

theorem skipSemicolons : Local 0 noKind Parse.skipSemicolons (fun _ : ι => Parse.skipSemicolons) := by
  refine fun s hs => .ok _ (Nat.zero_le _) rfl s.semicolons_in_front fun _ u _ seen => ?_
  have other : u.peek.kind ≠ .sign .semicolon := by
    rw [seen.resolve_right id]
    exact TokenStream.dropSemicolons_stops hs.ended
  refine congrArg (fun left => Except.ok ((), left)) (TokenStream.dropSemicolons_prepend ?_ other)
  intro t member
  have taken := List.mem_takeWhile_imp member
  exact of_decide_eq_true taken

end Local

end Parse

/-- What the readers of the two phrases that contain themselves do under one bound, they do under larger ones
from what they see. -/
structure Phrases.Local {ι : Type} (parts : Phrases) (parts' : ι → Phrases) : Prop where
  bound : ∀ i, parts.bound ≤ (parts' i).bound
  expression : Parse.Local 0 Parse.noKind parts.expression fun i => (parts' i).expression
  statement : Parse.Local 0 Parse.noKind parts.statement fun i => (parts' i).statement

namespace Grammar

open Parse (Local LocalAt noKind)

variable {ι : Type} {k : Nat} {next : Kind → Prop}

/-! ## Lists of phrases -/

section

variable {α : Type} {p : Parse α} {q : ι → Parse α} {n : Nat} {m : ι → Nat}

/-- Bounds above a positive one. -/
theorem exists_succ_of_lt (le : ∀ i, n + 1 ≤ m i) : ∃ m' : ι → Nat, m = (fun i => m' i + 1) ∧ ∀ i, n ≤ m' i := by
  refine ⟨fun i => m i - 1, funext fun i => ?_, fun i => Nat.le_sub_of_add_le (le i)⟩
  exact (Nat.sub_add_cancel (Nat.le_of_add_left_le (le i))).symm

theorem phrasesToEnd_local (h : Local 0 noKind p q) (ends : Kind → Bool) (le : ∀ i, n ≤ m i) :
    Local 0 noKind (phrasesToEnd p ends n) fun i => phrasesToEnd (q i) ends (m i) := by
  induction n generalizing m with
  | zero => exact .tooDeep
  | succ n ih =>
    obtain ⟨m, rfl, less⟩ := exists_succ_of_lt le
    refine Local.skipSemicolons.bind fun _ => Local.peek.bind fun t => .ite (.pure _) ?_
    exact h.bind fun first => (ih less).bind fun rest => .pure _

theorem phrasesByComma_local (h : Local 0 noKind p q) (le : ∀ i, n ≤ m i) :
    Local 0 noKind (phrasesByComma p n) fun i => phrasesByComma (q i) (m i) := by
  induction n generalizing m with
  | zero => exact .tooDeep
  | succ n ih =>
    obtain ⟨m, rfl, less⟩ := exists_succ_of_lt le
    refine h.bind fun first => (Local.accept (by decide)).bind fun more => ?_
    exact .ite ((ih less).bind fun rest => .pure _) (.pure _)

theorem phrasesInLiteral_local (h :
    Local 0 noKind p q) (closing : Kind) (between : Place) (le : ∀ i, n ≤ m i) :
    Local 0 noKind (phrasesInLiteral p closing between n) fun i => phrasesInLiteral (q i) closing between (m i) := by
  induction n generalizing m with
  | zero => exact .tooDeep
  | succ n ih =>
    obtain ⟨m, rfl, less⟩ := exists_succ_of_lt le
    have more := ih less
    refine Local.peek.bind fun t => .ite (.pure _) ?_
    refine h.bind fun first => Local.peek.bind fun after => .ite ?_ (more.bind fun rest => .pure _)
    exact (Local.expect _ (by decide)).weaken.bind fun _ => more.bind fun rest => .pure _

/-- Operands end at a token that is no operator of theirs and at which the last of them ends. -/
theorem operandsAfter_local {operator? : Kind → Option Operator} {operand : Parse Expr}
    {operand' : ι → Parse Expr} {next' : Kind → Prop} (h : Local 1 next operand operand')
    (stops : ∀ kind, next' kind → operator? kind = none ∧ next kind) (le : ∀ i, n ≤ m i) (left : Expr) :
    Local 0 next' (operandsAfter operator? operand n left)
      fun i => operandsAfter operator? (operand' i) (m i) left := by
  induction n generalizing m left with
  | zero => exact .tooDeep
  | succ n ih =>
    obtain ⟨m, rfl, less⟩ := exists_succ_of_lt le
    intro s hs
    have run (operand : Parse Expr) (n : Nat) (u : TokenStream) (ended : operator? u.peek.kind = none) :
        operandsAfter operator? operand (n + 1) left u = .ok (left, u) := by
      rw [operandsAfter, Parse.peek_bind, ended]
      rfl
    cases found : operator? s.peek.kind with
    | none =>
      refine .ok [] (Nat.le_refl 0) (run operand n s found) rfl fun i u _ seen => run (operand' i) (m i) u ?_
      exact seen.elim (fun same => same ▸ found) fun other => (stops _ other).1
    | some operator =>
      have operands := h.mono (Nat.le_refl 1) fun kind other => (stops kind other).2
      have round := Local.advance.before (k := 0) fun _ => operands.andThen fun right =>
        ih less (.binary left.span left operator right)
      refine (LocalAt.peek_bind (.inl Nat.one_pos) ?_).mono (Nat.zero_le 1) fun _ => id
      rw [found]
      exact round s hs

end

variable {parts : Phrases} {parts' : ι → Phrases} (h : parts.Local parts')

include h

/-! ## Declarations -/

theorem block_local (place : Place) : Local 1 next (block parts place) fun i => block (parts' i) place := by
  refine (Local.expect _ (by decide)).weaken.before fun _ => ?_
  refine (phrasesToEnd_local h.statement _ h.bound).before fun body => ?_
  exact (Local.expect _ (by decide)).andThen fun _ => .pure _

theorem variableDeclaration_local (visibility : Option Visibility) :
    Local 0 noKind (variableDeclaration parts visibility) fun i => variableDeclaration (parts' i) visibility := by
  refine Local.advance.bind fun first => (Local.expectName _).weaken.bind fun name => ?_
  refine Local.peek.bind fun t => .ite (.ite (.invalid _ _) (.pure _)) ?_
  exact (Local.expect _ (by decide)).weaken.bind fun _ => h.expression.bind fun value => .pure _

omit h in
theorem parameter_local : Local 0 noKind parameter fun _ : ι => parameter := by
  refine Local.peek.bind fun t => .ite ?_ (.invalid _ _)
  exact Local.advance.bind fun _ => .pure _

theorem untilParenthesis_local {α : Type} {p : Parse α} {q : ι → Parse α} (hp :
    Local 0 noKind p q) (place : Place) :
    Local 1 next (untilParenthesis parts p place) fun i => untilParenthesis (parts' i) (q i) place := by
  -- the list may be empty; either way the parenthesis is next
  have close (items : List α) :
      Local 1 next (Parse.expect (.sign .rightParen) place >>= fun _ => pure items)
        (fun _ : ι => Parse.expect (.sign .rightParen) place >>= fun _ => pure items) :=
    (Local.expect _ (by decide)).andThen fun _ => .pure items
  exact Local.peek.before fun t => .ite (close []) ((phrasesByComma_local hp h.bound).before close)

theorem functionDeclaration_local (visibility : Option Visibility) :
    Local 0 noKind (functionDeclaration parts visibility) fun i => functionDeclaration (parts' i) visibility := by
  refine Local.peek.bind fun first => (Local.accept (by decide)).bind fun isAsync => ?_
  refine (Local.expect _ (by decide)).weaken.bind fun _ => Local.peek.bind fun t => ?_
  refine .ite (Local.advance.bind fun _ => (Local.pure _).bind fun name => ?_)
    ((Local.pure _).bind fun name => ?_)
  -- with a name or without one, the rest is read in the same way
  all_goals
    refine .ite (.invalid _ _) ((Local.expect _ (by decide)).weaken.bind fun _ => ?_)
    refine (untilParenthesis_local h parameter_local _).weaken.bind fun parameters => ?_
    exact (block_local h _).weaken.bind fun body => .pure _

omit h in
theorem visibilityMark_local : Local 0 noKind visibilityMark fun _ : ι => visibilityMark := by
  refine Local.peek.bind fun t => ?_
  split
  case h_1 | h_2 => exact Local.advance.bind fun _ => .pure _
  case h_3 => exact .pure _

theorem classMember_local : Local 0 noKind (classMember parts) fun i => classMember (parts' i) := by
  refine Local.peek.bind fun first => visibilityMark_local.bind fun visibility => Local.peek.bind fun t => ?_
  split
  case h_1 | h_2 =>
    refine (variableDeclaration_local h _).bind fun property => ?_
    cases visibility with
    | none => exact .invalid _ _
    | some visibility => exact (Local.accept (by decide)).bind fun _ => .pure _
  case h_3 | h_4 =>
    refine (functionDeclaration_local h _).bind fun method => ?_
    cases method.name with
    | none => exact .invalid _ _
    | some name =>
      refine .ite (.invalid _ _) ?_
      cases visibility with
      | none => exact .ite (.pure _) (.invalid _ _)
      | some visibility => exact .pure _
  case h_5 => exact .invalid _ _

theorem classDeclaration_local :
    Local 0 noKind (classDeclaration parts) fun i => classDeclaration (parts' i) := by
  refine Local.advance.bind fun _ => (Local.expectName _).weaken.bind fun name => Local.peek.bind fun t => ?_
  refine .ite (.invalid _ _) ((Local.accept (by decide)).bind fun derived => ?_)
  refine .ite (((Local.expectName _).map some).weaken.bind fun superclass => ?_)
    ((Local.pure _).bind fun superclass => ?_)
  -- with a superclass or without one, the body is read in the same way
  all_goals
    refine (Local.expect _ (by decide)).weaken.bind fun _ => ?_
    refine (phrasesToEnd_local (classMember_local h) _ h.bound).bind fun members => ?_
    exact (Local.expect _ (by decide)).weaken.bind fun _ => .pure _

/-! ## Expressions -/

theorem arrayLiteral_local (span : Span) :
    Local 1 next (arrayLiteral parts span) fun i => arrayLiteral (parts' i) span := by
  refine (phrasesInLiteral_local h.expression _ _ h.bound).before fun elements => ?_
  exact (Local.expect _ (by decide)).andThen fun _ => .pure _

theorem property_local : Local 0 noKind (property parts) fun i => property (parts' i) := by
  refine Local.peek.bind fun first => (Local.expectName _).weaken.bind fun key => ?_
  refine (Local.accept (by decide)).bind fun valued => .ite ?_ (.pure _)
  exact (h.expression.map some).bind fun value => .pure _

theorem objectLiteral_local (span : Span) :
    Local 1 next (objectLiteral parts span) fun i => objectLiteral (parts' i) span := by
  refine (phrasesInLiteral_local (property_local h) _ _ h.bound).before fun properties => ?_
  exact (Local.expect _ (by decide)).andThen fun _ => .pure _

theorem primary_local : Local 1 next (primary parts) fun i => primary (parts' i) := by
  intro s hs
  refine .peek_bind (.inl Nat.one_pos) ?_
  split
  case h_1 found | h_3 found => exact .advance_bind hs (by rw [found]; decide) (.pure _)
  case h_2 found =>
    cases Number.read? s.peek.value with
    | none => exact Local.invalid _ _ s hs
    | some x => exact .advance_bind hs (by rw [found]; decide) (.pure _)
  case h_4 found =>
    refine (Local.advance.before fun _ => h.expression.before fun e => ?_) s hs
    exact (Local.expect _ (by decide)).andThen fun _ => .pure e
  case h_5 => exact (Local.advance.before fun _ => arrayLiteral_local h _) s hs
  case h_6 => exact (Local.advance.before fun _ => objectLiteral_local h _) s hs
  case h_7 | h_8 | h_9 => exact Local.invalid _ _ s hs

theorem memberOf_local (object : Expr) :
    Local 1 next (memberOf parts object) fun i => memberOf (parts' i) object := by
  refine Local.advance.before fun first => .ite ?_ ?_
  · refine h.expression.before fun property => ?_
    exact (Local.expect _ (by decide)).andThen fun _ => .pure _
  · exact (Local.expect _ (by decide)).andThen fun t => .pure _

theorem arguments_local (place : Place) :
    Local 1 next (arguments parts place) fun i => arguments (parts' i) place :=
  (Local.expect _ (by decide)).weaken.before fun _ => untilParenthesis_local h h.expression _

theorem callsAfter_local {n : Nat} {m : ι → Nat} (le : ∀ i, n ≤ m i) (e : Expr) :
    Local 0 (EndsAt 5) (callsAfter parts n e) fun i => callsAfter (parts' i) (m i) e := by
  induction n generalizing m e with
  | zero => exact .tooDeep
  | succ n ih =>
    obtain ⟨m, rfl, less⟩ := exists_succ_of_lt le
    have more := ih less
    intro s hs
    have run (parts : Phrases) (n : Nat) (u : TokenStream) (ended : EndsAt 5 u.peek.kind) :
        callsAfter parts (n + 1) e u = .ok (e, u) :=
      levelLoop_ends parts (by decide) (Nat.le_refl 5) n e ended
    by_cases ended : EndsAt 5 s.peek.kind
    · refine .ok [] (Nat.le_refl 0) (run parts n s ended) rfl fun i u _ seen => run (parts' i) (m i) u ?_
      exact seen.elim (fun same => same ▸ ended) id
    · refine (LocalAt.peek_bind (.inl Nat.one_pos) ?_).mono (Nat.zero_le 1) fun _ => id
      split
      case h_1 => exact ((arguments_local h _).andThen fun args => more _) s hs
      case h_2 | h_3 => exact ((memberOf_local h e).andThen more) s hs
      case h_4 paren dot bracket =>
        refine absurd ⟨nofun, ?_, ?_, ?_, fun _ => ⟨paren, dot, bracket⟩⟩ ended <;> intro le <;> omega

theorem membersAfter_local {n : Nat} {m : ι → Nat} (le : ∀ i, n ≤ m i) (e : Expr) :
    Local 0 noKind (membersAfter parts n e) fun i => membersAfter (parts' i) (m i) e := by
  induction n generalizing m e with
  | zero => exact .tooDeep
  | succ n ih =>
    obtain ⟨m, rfl, less⟩ := exists_succ_of_lt le
    refine Local.peek.bind fun t => ?_
    split
    case h_1 | h_2 => exact (memberOf_local h e).weaken.bind (ih less)
    case h_3 => exact .pure e

theorem callChain_local : Local 1 (EndsAt 5) (callChain parts) fun i => callChain (parts' i) :=
  (primary_local h).andThen fun e => callsAfter_local h h.bound e

theorem product_local : Local 1 (EndsAt 4) (product parts) fun i => product (parts' i) := by
  have operand := callChain_local h
  refine (operand.mono (Nat.le_refl 1) fun _ => .mono (Nat.le_succ 4)).andThen fun e => ?_
  exact operandsAfter_local operand (fun _ ended => ⟨ended.product (by decide), ended.mono (Nat.le_succ 4)⟩) h.bound e

theorem sum_local : Local 1 (EndsAt 3) (sum parts) fun i => sum (parts' i) := by
  have operand := product_local h
  refine (operand.mono (Nat.le_refl 1) fun _ => .mono (Nat.le_succ 3)).andThen fun e => ?_
  exact operandsAfter_local operand (fun _ ended => ⟨ended.sum (by decide), ended.mono (Nat.le_succ 3)⟩) h.bound e

theorem comparison_local : Local 1 (EndsAt 2) (comparison parts) fun i => comparison (parts' i) := by
  have operand := sum_local h
  refine (operand.mono (Nat.le_refl 1) fun _ => .mono (Nat.le_succ 2)).andThen fun e => ?_
  exact operandsAfter_local operand
    (fun _ ended => ⟨ended.comparison (by decide), ended.mono (Nat.le_succ 2)⟩) h.bound e

theorem instantiation_local : Local 1 (EndsAt 1) (instantiation parts) fun i => instantiation (parts' i) := by
  have plain := (comparison_local h).mono (Nat.le_refl 1) fun _ => .mono (Nat.le_succ 1)
  refine Local.peek.before fun t => .ite (Local.advance.before fun _ => ?_) plain
  refine (primary_local h).weaken.before fun first => ?_
  refine (membersAfter_local h h.bound first).before fun target => ?_
  exact (arguments_local h _).andThen fun args => .pure _

theorem assignmentTo_local (target : Expr) :
    Local 0 noKind (assignmentTo parts target) fun i => assignmentTo (parts' i) target := by
  have value : Local 0 noKind (instantiation parts) fun i => instantiation (parts' i) :=
    (instantiation_local h).mono (Nat.zero_le 1) nofun
  refine Local.peek.bind fun t => ?_
  cases update? t.kind with
  | none => exact .pure target
  | some update =>
    refine .ite (Local.advance.bind fun _ => ?_) (.invalid _ _)
    cases update with
    | replace => exact h.expression.bind fun value => .pure _
    | step operator => exact (Local.pure _).bind fun value => .pure _
    | combine operator => exact value.bind fun right => (Local.pure _).bind fun value => .pure _

theorem expression_local : Local 0 noKind (expression parts) fun i => expression (parts' i) := by
  have target : Local 0 noKind (instantiation parts) fun i => instantiation (parts' i) :=
    (instantiation_local h).mono (Nat.zero_le 1) nofun
  refine Local.peek.bind fun t => ?_
  split
  case h_1 | h_2 => exact (functionDeclaration_local h none).bind fun d => .pure _
  case h_3 => exact target.bind fun target => assignmentTo_local h target

/-! ## Statements -/

theorem returnedValue_local (span : Span) :
    Local 0 noKind (returnedValue parts span) fun i => returnedValue (parts' i) span := by
  refine Local.peek.bind fun t => ?_
  split
  case h_1 | h_2 | h_3 => exact .pure _
  case h_4 => exact h.expression

theorem conditional_local (word : Keyword) :
    Local 1 next (conditional parts word) fun i => conditional (parts' i) word := by
  refine (Local.expect _ (by decide)).weaken.before fun _ => h.expression.before fun condition => ?_
  refine (Local.expect _ (by decide)).weaken.before fun _ => ?_
  exact (block_local h _).andThen fun body => .pure _

theorem loopCounter_local : Local 0 noKind (loopCounter parts) fun i => loopCounter (parts' i) := by
  intro s hs
  refine .peek_bind (.inr fun _ => id) ?_
  split
  case h_1 | h_2 =>
    exact ((variableDeclaration_local h none).bind fun counter => .ite (.pure _) (.invalid _ _)) s hs
  case h_3 other _ => exact .unexpected other

theorem loopIterator_local (name : String) :
    Local 0 noKind (loopIterator parts name) fun i => loopIterator (parts' i) name := by
  refine (Local.expect _ (by decide)).weaken.bind fun t => ?_
  exact (assignmentTo_local h _).bind fun iterator => .ite (.pure _) (.invalid _ _)

theorem forLoop_local : Local 1 next (forLoop parts) fun i => forLoop (parts' i) := by
  refine (Local.expect _ (by decide)).weaken.before fun _ => (loopCounter_local h).before fun counter => ?_
  refine (Local.expect _ (by decide)).weaken.before fun _ => h.expression.before fun condition => ?_
  refine (Local.expect _ (by decide)).weaken.before fun _ => (loopIterator_local h _).before fun iterator => ?_
  refine (Local.expect _ (by decide)).weaken.before fun _ => ?_
  exact (block_local h _).andThen fun body => .pure _

theorem bareStatement_local : Local 0 noKind (bareStatement parts) fun i => bareStatement (parts' i) := by
  refine Local.peek.bind fun t => ?_
  split
  case h_1 | h_2 => exact (variableDeclaration_local h none).map _
  case h_3 | h_4 => exact (functionDeclaration_local h none).map _
  case h_5 => exact (classDeclaration_local h).map _
  case h_6 | h_7 => exact .invalid _ _
  case h_8 => exact Local.advance.bind fun _ => (returnedValue_local h _).map _
  case h_9 => exact Local.advance.bind fun _ => .pure _
  case h_10 | h_11 =>
    exact Local.advance.bind fun _ => (conditional_local h _).weaken.bind fun parts => .pure _
  case h_12 => exact Local.advance.bind fun _ => ((forLoop_local h).map _).weaken
  case h_13 => exact (expression_local h).map _

theorem statement_local : Local 0 noKind (statement parts) fun i => statement (parts' i) :=
  (bareStatement_local h).bind fun _ => (Local.accept (by decide)).bind fun _ => .pure _

end Grammar

/-- What the readers of bounded nesting do, those of larger bounds do from what they see. -/
theorem readers_local {ι : Type} {n : Nat} {N : ι → Nat} (le : ∀ i, n ≤ N i) :
    (Parse.Local 0 Parse.noKind (readExpression n) fun i => readExpression (N i)) ∧
      Parse.Local 0 Parse.noKind (readStatement n) fun i => readStatement (N i) := by
  induction n generalizing N with
  | zero => exact ⟨.tooDeep, .tooDeep⟩
  | succ n ih =>
    obtain ⟨N, rfl, less⟩ := Grammar.exists_succ_of_lt le
    obtain ⟨expression, statement⟩ := ih less
    have parts : Phrases.Local ⟨n + 1, readExpression n, readStatement n⟩
        fun i => ⟨N i + 1, readExpression (N i), readStatement (N i)⟩ := ⟨le, expression, statement⟩
    exact ⟨Grammar.expression_local parts, Grammar.statement_local parts⟩

/-! ## Programs -/

/-- The tokens of a list up to its first end token, with that one. -/
def Token.throughEnd : List Token → List Token
  | [] => []
  | t :: rest => if t.kind = .eof then [t] else t :: throughEnd rest

theorem Token.throughEnd_append {front : List Token} {eof : Token} (behind : List Token)
    (inner : ∀ t ∈ front, t.kind ≠ .eof) (ended : eof.kind = .eof) :
    throughEnd (front ++ eof :: behind) = front ++ [eof] := by
  induction front with
  | nil => exact if_pos ended
  | cons t rest ih =>
    rw [List.forall_mem_cons] at inner
    rw [List.cons_append, throughEnd, if_neg inner.1, ih inner.2, List.cons_append]

/-- The list that the readers go over is their stream, its end token, and what they do not meet. -/
theorem Token.closed_split (ts : List Token) :
    ∃ behind, closed ts = (TokenStream.ofList ts).tokens ++ (TokenStream.ofList ts).eof :: behind :=
  (closed_stands ts).ahead (closed_getLast? ts)

theorem Token.throughEnd_closed (ts : List Token) :
    throughEnd (closed ts) = (TokenStream.ofList ts).tokens ++ [(TokenStream.ofList ts).eof] := by
  obtain ⟨behind, whole⟩ := closed_split ts
  rw [whole, throughEnd_append behind (TokenStream.ofList_inner ts) (TokenStream.ofList_eof ts)]

namespace TokenStream

theorem ofList_peek (t : Token) (rest : List Token) : (ofList (t :: rest)).peek = t := by
  by_cases eof : t.kind = .eof
  · have whole : ofList ([] ++ t :: rest) = ⟨[], t⟩ := ofList_before_end rest (fun _ => nofun) eof
    rw [← List.nil_append (t :: rest), whole]
    rfl
  · have first : (ofList (t :: rest)).tokens = t :: rest.takeWhile (·.kind ≠ .eof) := by
      rw [ofList_tokens]
      exact List.takeWhile_cons_of_pos (decide_eq_true eof)
    rw [peek, first]
    rfl

/-- Tokens in front of a list stand in front of its stream. -/
theorem ofList_prepend {w : List Token} (inner : ∀ t ∈ w, t.kind ≠ .eof) (t : Token) (rest : List Token) :
    ofList (w ++ t :: rest) = (ofList (t :: rest)).prepend w := by
  have front : ∀ t ∈ w, decide (t.kind ≠ .eof) = true := fun t member => decide_eq_true (inner t member)
  have last : (w ++ t :: rest).getLast? = (t :: rest).getLast? := by
    rw [List.getLast?_append, List.getLast?_cons, Option.some_or]
  unfold ofList
  rw [List.dropWhile_append_of_pos front, List.takeWhile_append_of_pos front, last]
  split <;> rfl

end TokenStream

namespace Token

theorem ofList_closed (ts : List Token) : TokenStream.ofList (closed ts) = TokenStream.ofList ts := by
  have left := (closed_stands ts).left
  rwa [List.drop_zero, eq_comm] at left

variable {ts ts' w : List Token} {s : TokenStream}

/-- Where a stream has tokens in front, its list has them in front, and then the token that is next. -/
theorem closed_of_prepend (split : TokenStream.ofList ts = s.prepend w) :
    ∃ behind, closed ts = w ++ s.peek :: behind := by
  obtain ⟨behind, whole⟩ := closed_split ts
  rw [whole, split]
  obtain ⟨_ | ⟨t, rest⟩, eof⟩ := s
  · exact ⟨behind, by rw [TokenStream.prepend, List.append_nil]; rfl⟩
  · exact ⟨rest ++ eof :: behind, List.append_assoc _ _ _⟩

/-- A list that begins like another one, up to the token that is next after some of its tokens, has a stream
with these tokens in front and the same token next after them. -/
theorem ofList_of_take (split : TokenStream.ofList ts = s.prepend w)
    (same : (closed ts').take (w.length + 1) = (closed ts).take (w.length + 1)) :
    ∃ u : TokenStream, u.Proper ∧ TokenStream.ofList ts' = u.prepend w ∧ u.peek = s.peek := by
  obtain ⟨behind, whole⟩ := closed_of_prepend split
  have front : (w ++ [s.peek]).length = w.length + 1 := List.length_append
  rw [whole, List.append_cons, List.take_left' front] at same
  obtain ⟨behind', whole'⟩ : ∃ behind', closed ts' = w ++ s.peek :: behind' := by
    refine ⟨(closed ts').drop (w.length + 1), ?_⟩
    rw [List.append_cons, ← same, List.take_append_drop]
  have inner : ∀ t ∈ w, t.kind ≠ .eof := fun t member =>
    (split ▸ TokenStream.ofList_proper ts).inner t (List.mem_append_left _ member)
  refine ⟨TokenStream.ofList (s.peek :: behind'), TokenStream.ofList_proper _, ?_, TokenStream.ofList_peek _ _⟩
  rw [← ofList_closed ts', whole', TokenStream.ofList_prepend inner]

end Token

/-- The readers see one token ahead and nothing behind the first end token.  What a list of tokens is read as
depends on its tokens up to and including the first end token.  Where reading fails it stops at one of these,
and every list with the same tokens up to that one fails with the very same error; and an error for a token of
another kind than the one that was needed is about that token: its kind, its text and its span. -/
theorem reading_sees_one_token_ahead (ts : List Token) :
    (∀ ts', Token.throughEnd (Token.closed ts') = Token.throughEnd (Token.closed ts) →
      Program.ofTokens? ts' = Program.ofTokens? ts) ∧
    ∀ e, Program.ofTokens? ts = .error e →
      ∃ k, k < (Token.throughEnd (Token.closed ts)).length ∧
        (∀ ts', (Token.closed ts').take (k + 1) = (Token.closed ts).take (k + 1) →
          Program.ofTokens? ts' = .error e) ∧
        ∀ expected found value place, e.fault = .unexpected expected found value place →
          (Token.closed ts)[k]? = some ⟨found, value, e.span⟩ ∧ found ≠ expected := by
  refine ⟨fun ts' same => ?_, fun e failed => ?_⟩
  · have streams : TokenStream.ofList ts' = TokenStream.ofList ts := by
      rw [Token.throughEnd_closed, Token.throughEnd_closed] at same
      obtain ⟨tokens, eof⟩ := List.append_inj' same rfl
      rw [List.singleton_inj] at eof
      rw [TokenStream.mk.injEq]
      exact ⟨tokens, eof⟩
    unfold Program.ofTokens?
    rw [streams]
  · have other := (Program.ofTokens?_ends ts).2 e failed
    let n := (TokenStream.ofList ts).tokens.length + 1
    have parts := (readers_local (n := n) (N := fun more => n + more) fun more => Nat.le_add_right n more).2
    have list := Grammar.phrasesToEnd_local parts (· = .eof) fun more => Nat.le_add_right n more
    obtain ⟨w, t, split, found, same⟩ :=
      (list _ (TokenStream.ofList_proper ts)).fails e (Program.ofStream_eq_error.1 failed) other
    obtain ⟨behind, whole⟩ := Token.closed_of_prepend split
    refine ⟨w.length, ?_, fun ts' begins => ?_, fun expected found' value place fault => ?_⟩
    · rw [Token.throughEnd_closed, split, List.length_append]
      exact Nat.lt_succ_of_le (List.length_append ▸ Nat.le_add_right _ _)
    · obtain ⟨u, proper, split', next⟩ := Token.ofList_of_take split begins
      have failed' := same (TokenStream.ofList ts').tokens.length u proper next
      rw [← split'] at failed'
      have long : (TokenStream.ofList ts').tokens.length < n + (TokenStream.ofList ts').tokens.length := by
        omega
      rw [← (Program.ofTokens?_ends ts').1 _ long, Program.ofStream_eq_error, failed']
    · obtain ⟨here, kinds⟩ := found expected found' value place fault
      refine ⟨?_, kinds⟩
      rw [whole, List.getElem?_append_right (Nat.le_refl _), Nat.sub_self, here]
      rfl

/-- `let x`, an end token, and `= y` behind it. -/
def cutDeclaration : List Token :=
  [⟨.keyword .letWord, "let", ⟨1, 1, 3⟩⟩, ⟨.identifier, "x", ⟨1, 5, 1⟩⟩, ⟨.eof, "", ⟨1, 6, 0⟩⟩,
    ⟨.sign .assign, "=", ⟨1, 7, 1⟩⟩, ⟨.identifier, "y", ⟨1, 9, 1⟩⟩]

/-- A declaration that is cut off fails at the end token in the middle, whatever is behind that. -/
theorem cutDeclaration_fails_at_end :
    ∃ e, e.fault = .unexpected (.sign .assign) .eof "" .inVariableDeclaration ∧
      Program.ofTokens? cutDeclaration = .error e ∧ Program.ofTokens? (cutDeclaration.take 3) = .error e ∧
      ∃ k, (Token.closed cutDeclaration)[k]? = some ⟨.eof, "", e.span⟩ ∧
        ∀ ts', (Token.closed ts').take (k + 1) = (Token.closed cutDeclaration).take (k + 1) →
          Program.ofTokens? ts' = .error e := by
  have failed : Program.ofTokens? cutDeclaration =
      .error ⟨⟨1, 6, 0⟩, .unexpected (.sign .assign) .eof "" .inVariableDeclaration⟩ := rfl
  obtain ⟨same, stops⟩ := reading_sees_one_token_ahead cutDeclaration
  obtain ⟨k, -, alone, found⟩ := stops _ failed
  exact ⟨_, rfl, failed, (same _ rfl).trans failed, k, (found _ _ _ _ rfl).1, alone⟩

end ScriptLang
