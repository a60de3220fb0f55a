/-
# ScriptLang.Proofs.Syntax.Progress — the bounds of readers are never met.

A reader that is given a bound on nesting and on the length of lists reads like the one with any larger
bound, as long as the bound is above the number of tokens left: what it takes is taken from the front of
the stream, and every phrase takes a token before it uses the readers of smaller bound.  So the bound is
no part of what is read, and running out of it is never the answer.

`Settles k b p q` says this of two readers that differ in their bounds, on streams of fewer than `b`
tokens: they do the same, take `k` tokens or more if they succeed, and do not fail for a bound.  Each rule
of the grammar takes one token; the loops of the grammar may take none, but each turn of a loop takes one.
-/
import ScriptLang.Syntax.Grammar

namespace ScriptLang

/-! ## Streams -/

namespace TokenStream

/-- `t` is what is left of `s` when `k` tokens or more are taken. -/
structure Leaves (k : Nat) (s t : TokenStream) : Prop where
  eof : t.eof = s.eof
  suffix : t.tokens <:+ s.tokens
  taken : t.tokens.length + k ≤ s.tokens.length

/-- Fewer than `b` tokens are left, and an end token after them. -/
structure Within (b : Nat) (s : TokenStream) : Prop where
  ended : s.eof.kind = .eof
  short : s.tokens.length < b

variable {j k b : Nat} {s t u : TokenStream}

theorem Leaves.refl (s : TokenStream) : s.Leaves 0 s := ⟨rfl, List.suffix_refl _, Nat.le_refl _⟩

theorem Leaves.trans (h : s.Leaves j t) (h' : t.Leaves k u) : s.Leaves (j + k) u where
  eof := h'.eof.trans h.eof
  suffix := h'.suffix.trans h.suffix
  taken := by
    have first := h.taken
    have second := h'.taken
    omega

theorem Leaves.le (h : s.Leaves k t) (le : j ≤ k) : s.Leaves j t :=
  ⟨h.eof, h.suffix, Nat.le_trans (Nat.add_le_add_left le _) h.taken⟩

theorem Within.leave (h : s.Within b) (left : s.Leaves k t) : t.Within (b - k) where
  ended := by rw [left.eof, h.ended]
  short := by
    have taken := left.taken
    have short := h.short
    omega

theorem Within.mono {n : Nat} (h : s.Within b) (le : b ≤ n) : s.Within n :=
  ⟨h.ended, Nat.lt_of_lt_of_le h.short le⟩

theorem leaves_next (s : TokenStream) : s.Leaves 0 s.next where
  eof := rfl
  suffix := List.tail_suffix _
  taken := by
    rw [length_next]
    omega

/-- A token that is not the end is taken. -/
theorem leaves_next_of_ne (ended : s.eof.kind = .eof) (h : s.peek.kind ≠ .eof) : s.Leaves 1 s.next where
  eof := rfl
  suffix := List.tail_suffix _
  taken := by
    obtain ⟨_ | ⟨first, rest⟩, eof⟩ := s
    · exact absurd ended h
    · exact Nat.le_refl _

theorem leaves_dropSemicolons (s : TokenStream) : s.Leaves 0 s.dropSemicolons :=
  ⟨rfl, List.dropWhile_suffix _, s.length_dropSemicolons_le⟩

end TokenStream

/-! ## Readers -/

namespace Parse

variable {α β : Type}

/-- From `s` two readers do the same: they take `k` tokens or more, or fail, and not for a bound. -/
structure SettlesAt (k : Nat) (p q : Parse α) (s : TokenStream) : Prop where
  same : q s = p s
  takes : ∀ a t, p s = .ok (a, t) → s.Leaves k t
  fails : ∀ e, p s = .error e → e.fault ≠ .invalid .tooDeep

/-- From streams of fewer than `b` tokens two readers do the same: they take `k` tokens or more, or fail,
and not for a bound. -/
def Settles (k b : Nat) (p q : Parse α) : Prop := ∀ s, s.Within b → SettlesAt k p q s

variable {j k b n : Nat} {p p' q q' : Parse α} {c d : α → Parse β} {s : TokenStream}

namespace SettlesAt

theorem le (h : SettlesAt k p q s) (le : j ≤ k) : SettlesAt j p q s :=
  ⟨h.same, fun a t read => (h.takes a t read).le le, h.fails⟩

theorem ok {a : α} {t : TokenStream} (h : p s = .ok (a, t)) (h' : q s = .ok (a, t))
    (left : s.Leaves k t) : SettlesAt k p q s where
  same := by rw [h, h']
  takes b u read := by
    rw [h] at read
    cases read
    exact left
  fails e read := by
    rw [h] at read
    cases read

theorem error {e : ParseError} (h : p s = .error e) (h' : q s = .error e)
    (other : e.fault ≠ .invalid .tooDeep) : SettlesAt k p q s where
  same := by rw [h, h']
  takes a t read := by
    rw [h] at read
    cases read
  fails e' read := by
    rw [h] at read
    cases read
    exact other

theorem bind (h : SettlesAt j p q s) (l : ∀ a t, s.Leaves j t → SettlesAt k (c a) (d a) t) :
    SettlesAt (j + k) (p >>= c) (q >>= d) s := by
  have same := h.same
  cases first : p s with
  | error e =>
    rw [first] at same
    exact .error (by rw [bind_run, first]) (by rw [bind_run, same]) (h.fails e first)
  | ok r =>
    obtain ⟨a, t⟩ := r
    rw [first] at same
    have left := h.takes a t first
    have rest := l a t left
    have ran : (p >>= c) s = c a t := by rw [bind_run, first]
    refine ⟨?_, fun b u read => ?_, fun e read => ?_⟩
    · rw [ran, bind_run, same]
      exact rest.same
    · exact left.trans (rest.takes b u (ran ▸ read))
    · exact rest.fails e (ran ▸ read)

theorem map (f : α → β) (h : SettlesAt k p q s) : SettlesAt k (f <$> p) (f <$> q) s := by
  have same := h.same
  cases first : p s with
  | error e =>
    rw [first] at same
    exact .error (by rw [map_run, first]) (by rw [map_run, same]) (h.fails e first)
  | ok r =>
    obtain ⟨a, t⟩ := r
    rw [first] at same
    exact .ok (by rw [map_run, first]) (by rw [map_run, same]) (h.takes a t first)

theorem ite {c : Prop} [Decidable c] (h : c → SettlesAt k p q s) (h' : ¬c → SettlesAt k p' q' s) :
    SettlesAt k (if c then p else p') (if c then q else q') s := by
  split
  · exact h ‹_›
  · exact h' ‹_›

variable {c d : Token → Parse β}

/-- A reader that looks at a token goes on with that token in hand. -/
theorem peek_bind (h : SettlesAt k (c s.peek) (d s.peek) s) :
    SettlesAt k (Parse.peek >>= c) (Parse.peek >>= d) s := by
  have ran (f : Token → Parse β) : (Parse.peek >>= f) s = f s.peek s := bind_run _ _ _
  refine ⟨?_, fun b t read => h.takes b t (ran c ▸ read), fun e read => h.fails e (ran c ▸ read)⟩
  rw [ran, ran]
  exact h.same

/-- The next token is taken if it is not the end; what follows is the same either way. -/
theorem advance_look (hs : s.Within b) (h : Settles k b (c s.peek) (d s.peek)) :
    SettlesAt k (Parse.advance >>= c) (Parse.advance >>= d) s := by
  have ran (f : Token → Parse β) : (Parse.advance >>= f) s = f s.peek s.next := bind_run _ _ _
  have rest := h s.next (hs.leave s.leaves_next)
  refine ⟨?_, fun b t read => ?_, fun e read => rest.fails e (ran c ▸ read)⟩
  · rw [ran, ran]
    exact rest.same
  · exact (s.leaves_next.trans (rest.takes b t (ran c ▸ read))).le (Nat.le_add_left _ _)

theorem advance_bind (hs : s.Within (n + 1)) (taken : s.peek.kind ≠ .eof)
    (h : Settles 0 n (c s.peek) (d s.peek)) : SettlesAt 1 (Parse.advance >>= c) (Parse.advance >>= d) s := by
  have left := TokenStream.leaves_next_of_ne hs.ended taken
  have ran (f : Token → Parse β) : (Parse.advance >>= f) s = f s.peek s.next := bind_run _ _ _
  have rest := h s.next (hs.leave left)
  refine ⟨?_, fun b t read => ?_, fun e read => rest.fails e (ran c ▸ read)⟩
  · rw [ran, ran]
    exact rest.same
  · exact left.trans (rest.takes b t (ran c ▸ read))

end SettlesAt

namespace Settles

theorem le (h : Settles 1 b p q) : Settles 0 b p q := fun s hs => (h s hs).le (Nat.zero_le _)

theorem lower (h : Settles k b p q) (le : n ≤ b) : Settles k n p q :=
  fun s hs => h s (hs.mono le)

theorem zero : Settles k 0 p q := fun _ hs => absurd hs.short (Nat.not_lt_zero _)

/-- What comes first may take tokens or not; the rest takes enough. -/
theorem bind (h : Settles j b p q) (l : ∀ a, Settles k b (c a) (d a)) :
    Settles k b (p >>= c) (q >>= d) := by
  intro s hs
  refine ((h s hs).bind fun a t left => ?_).le (Nat.le_add_left k j)
  exact l a t ((hs.leave left).mono (Nat.sub_le _ _))

/-- What comes first takes enough; the rest may take tokens or not. -/
theorem andThen (h : Settles k b p q) (l : ∀ a, Settles 0 b (c a) (d a)) :
    Settles k b (p >>= c) (q >>= d) := by
  intro s hs
  refine (h s hs).bind (k := 0) fun a t left => ?_
  exact l a t ((hs.leave left).mono (Nat.sub_le _ _))

/-- What comes first takes a token, so that the rest has fewer. -/
theorem takes_bind (h : Settles 1 (b + 1) p q) (l : ∀ a, Settles 0 b (c a) (d a)) :
    Settles 1 (b + 1) (p >>= c) (q >>= d) := by
  intro s hs
  exact (h s hs).bind (k := 0) fun a t left => l a t (hs.leave left)

theorem map (f : α → β) (h : Settles k b p q) : Settles k b (f <$> p) (f <$> q) :=
  fun s hs => (h s hs).map f

theorem ite {c : Prop} [Decidable c] (h : Settles k b p q) (h' : Settles k b p' q') :
    Settles k b (if c then p else p') (if c then q else q') :=
  fun s hs => .ite (fun _ => h s hs) fun _ => h' s hs

theorem pure (a : α) : Settles 0 b (Pure.pure a) (Pure.pure a) := fun s _ => .ok rfl rfl (.refl s)

theorem invalid (span : Span) {breach : RuleBreach} (other : breach ≠ .tooDeep) :
    Settles k b (Parse.invalid span breach : Parse α) (Parse.invalid span breach) :=
  fun _ _ => .error rfl rfl fun same => other (ParseFault.invalid.inj same)

theorem unexpected (kind : Kind) (place : Place) :
    Settles k b (Parse.unexpected kind place : Parse α) (Parse.unexpected kind place) :=
  fun _ _ => .error rfl rfl nofun

theorem look {c d : Token → Parse β} (h : ∀ t, Settles k b (c t) (d t)) :
    Settles k b (Parse.peek >>= c) (Parse.peek >>= d) :=
  fun s hs => .peek_bind (h _ s hs)

theorem advance : Settles 0 b Parse.advance Parse.advance :=
  fun s _ => .ok rfl rfl s.leaves_next

theorem skipSemicolons : Settles 0 b Parse.skipSemicolons Parse.skipSemicolons :=
  fun s _ => .ok rfl rfl s.leaves_dropSemicolons

theorem accept (kind : Kind) : Settles 0 b (Parse.accept kind) (Parse.accept kind) := by
  intro s hs
  by_cases found : s.peek.kind = kind
  · exact .ok (if_pos found) (if_pos found) s.leaves_next
  · exact .ok (if_neg found) (if_neg found) (.refl s)

theorem expect {kind : Kind} (place : Place) (taken : kind ≠ .eof) :
    Settles 1 b (Parse.expect kind place) (Parse.expect kind place) := by
  intro s hs
  by_cases found : s.peek.kind = kind
  · exact .ok (if_pos found) (if_pos found) (TokenStream.leaves_next_of_ne hs.ended (found ▸ taken))
  · exact .error (if_neg found) (if_neg found) nofun

theorem expectName (place : Place) : Settles 1 b (Parse.expectName place) (Parse.expectName place) :=
  (expect place (by decide)).andThen fun _ => .pure _

end Settles

/-- If the reader succeeds from `s`, the token after what it takes is of a kind where it stops. -/
def StopsAt (stop : Kind → Prop) (p : Parse α) (s : TokenStream) : Prop :=
  ∀ a t, p s = .ok (a, t) → stop t.peek.kind

/-- The token after what the reader takes is of a kind where it stops. -/
def Stops (stop : Kind → Prop) (p : Parse α) : Prop := ∀ s, StopsAt stop p s

variable {stop : Kind → Prop}

theorem Stops.tooDeep : Stops stop (Parse.tooDeep : Parse α) := by
  intro s a t read
  cases read

namespace StopsAt

theorem pure {a : α} (h : stop s.peek.kind) : StopsAt stop (Pure.pure a) s := by
  intro _ _ read
  cases read
  exact h

theorem bind {c : α → Parse β} (h : ∀ a, Stops stop (c a)) : StopsAt stop (p >>= c) s := by
  intro b u read
  obtain ⟨a, t, -, second⟩ := bind_eq_ok.1 read
  exact h a t b u second

theorem peek_bind {c : Token → Parse β} (h : StopsAt stop (c s.peek) s) :
    StopsAt stop (Parse.peek >>= c) s := by
  intro b u read
  rw [bind_run] at read
  exact h b u read

end StopsAt

end Parse

/-! ## Lists of phrases -/

/-- The readers of the two phrases that contain themselves, under two bounds above `n`. -/
structure Phrases.Settle (n : Nat) (parts parts' : Phrases) : Prop where
  bound : n ≤ parts.bound
  bound' : n ≤ parts'.bound
  expression : Parse.Settles 1 n parts.expression parts'.expression
  statement : Parse.Settles 1 n parts.statement parts'.statement

namespace Grammar

open Parse (Settles SettlesAt Stops)

section

variable {α : Type} {p q : Parse α} {b m m' : Nat}

theorem phrasesToEnd_settles (h : Settles 1 b p q) (ends : Kind → Bool) (le : b ≤ m) (le' : b ≤ m') :
    Settles 0 b (phrasesToEnd p ends m) (phrasesToEnd q ends m') := by
  induction b generalizing m m' with
  | zero => exact .zero
  | succ b ih =>
    obtain ⟨m, rfl⟩ := Nat.exists_eq_succ_of_ne_zero (Nat.ne_zero_of_lt le)
    obtain ⟨m', rfl⟩ := Nat.exists_eq_succ_of_ne_zero (Nat.ne_zero_of_lt le')
    have more := ih (h.lower (Nat.le_succ b)) (Nat.le_of_succ_le_succ le) (Nat.le_of_succ_le_succ le')
    refine Settles.skipSemicolons.bind fun _ => .look fun t => .ite (.pure _) ?_
    exact (h.takes_bind fun first => more.bind fun rest => .pure _).le

theorem phrasesByComma_settles (h : Settles 1 b p q) (le : b ≤ m) (le' : b ≤ m') :
    Settles 1 b (phrasesByComma p m) (phrasesByComma q m') := by
  induction b generalizing m m' with
  | zero => exact .zero
  | succ b ih =>
    obtain ⟨m, rfl⟩ := Nat.exists_eq_succ_of_ne_zero (Nat.ne_zero_of_lt le)
    obtain ⟨m', rfl⟩ := Nat.exists_eq_succ_of_ne_zero (Nat.ne_zero_of_lt le')
    have more := ih (h.lower (Nat.le_succ b)) (Nat.le_of_succ_le_succ le) (Nat.le_of_succ_le_succ le')
    refine h.takes_bind fun first => (Settles.accept _).bind fun comma => ?_
    exact .ite (more.le.bind fun rest => .pure _) (.pure _)

theorem phrasesInLiteral_settles (h : Settles 1 b p q) (closing : Kind) (between : Place) (le : b ≤ m)
    (le' : b ≤ m') :
    Settles 0 b (phrasesInLiteral p closing between m) (phrasesInLiteral q closing between m') := by
  induction b generalizing m m' with
  | zero => exact .zero
  | succ b ih =>
    obtain ⟨m, rfl⟩ := Nat.exists_eq_succ_of_ne_zero (Nat.ne_zero_of_lt le)
    obtain ⟨m', rfl⟩ := Nat.exists_eq_succ_of_ne_zero (Nat.ne_zero_of_lt le')
    have more := ih (h.lower (Nat.le_succ b)) (Nat.le_of_succ_le_succ le) (Nat.le_of_succ_le_succ le')
    refine .look fun t => .ite (.pure _) (h.takes_bind fun first => .look fun after => .ite ?_ ?_).le
    · exact (Settles.expect _ (by decide)).bind fun _ => more.bind fun rest => .pure _
    · exact more.bind fun rest => .pure _

theorem operandsAfter_settles (operator? : Kind → Option Operator) {operand operand' : Parse Expr}
    (h : Settles 1 b operand operand') (le : b ≤ m) (le' : b ≤ m') (left : Expr) :
    Settles 0 b (operandsAfter operator? operand m left) (operandsAfter operator? operand' m' left) := by
  induction b generalizing m m' left with
  | zero => exact .zero
  | succ b ih =>
    obtain ⟨m, rfl⟩ := Nat.exists_eq_succ_of_ne_zero (Nat.ne_zero_of_lt le)
    obtain ⟨m', rfl⟩ := Nat.exists_eq_succ_of_ne_zero (Nat.ne_zero_of_lt le')
    refine .look fun t => ?_
    cases operator? t.kind with
    | none => exact .pure left
    | some operator =>
      refine Settles.advance.bind fun _ => (h.takes_bind fun right => ?_).le
      exact ih (h.lower (Nat.le_succ b)) (Nat.le_of_succ_le_succ le) (Nat.le_of_succ_le_succ le') _

/-! ### Where a list stops -/

variable {s t : TokenStream} {xs : List α}

/-- A list takes a token at least for each of its phrases. -/
theorem phrasesToEnd_leaves (h : Settles 1 b p q) {ends : Kind → Bool} (hs : s.Within b)
    (read : phrasesToEnd p ends m s = .ok (xs, t)) : s.Leaves xs.length t := by
  induction m generalizing s xs with
  | zero => cases read
  | succ m ih =>
    obtain ⟨_, u, skipped, read⟩ := Parse.bind_eq_ok.1 read
    cases skipped
    obtain ⟨_, _, looked, read⟩ := Parse.bind_eq_ok.1 read
    cases looked
    have front := s.leaves_dropSemicolons
    split at read
    · cases read
      exact front
    · obtain ⟨first, v, begun, read⟩ := Parse.bind_eq_ok.1 read
      obtain ⟨rest, w, more, read⟩ := Parse.bind_eq_ok.1 read
      cases read
      have one := (h _ (hs.leave front)).takes first v begun
      have later := ih ((hs.leave front).leave one |>.mono (Nat.sub_le _ _)) more
      exact (front.trans (one.trans later)).le (by simp [Nat.add_comm])

theorem phrasesByComma_leaves (h : Settles 1 b p q) (hs : s.Within b)
    (read : phrasesByComma p m s = .ok (xs, t)) :
    s.Leaves xs.length t ∧ t.peek.kind ≠ .sign .comma := by
  induction m generalizing s xs with
  | zero => cases read
  | succ m ih =>
    obtain ⟨first, v, begun, read⟩ := Parse.bind_eq_ok.1 read
    obtain ⟨comma, w, accepted, read⟩ := Parse.bind_eq_ok.1 read
    have one := (h s hs).takes first v begun
    have ahead := hs.leave one |>.mono (Nat.sub_le _ _)
    unfold Parse.accept at accepted
    split at accepted
    · cases accepted
      obtain ⟨rest, u, more, read⟩ := Parse.bind_eq_ok.1 read
      cases read
      have front := v.leaves_next
      obtain ⟨later, stop⟩ := ih (ahead.leave front) more
      exact ⟨(one.trans (front.trans later)).le (by simp [Nat.add_comm]), stop⟩
    · next stop =>
      cases accepted
      cases read
      exact ⟨one, stop⟩

theorem phrasesInLiteral_leaves (h : Settles 1 b p q) {closing : Kind} {between : Place} (hs : s.Within b)
    (read : phrasesInLiteral p closing between m s = .ok (xs, t)) :
    s.Leaves xs.length t ∧ (t.peek.kind = closing ∨ t.peek.kind = .eof) := by
  induction m generalizing s xs with
  | zero => cases read
  | succ m ih =>
    obtain ⟨_, _, looked, read⟩ := Parse.bind_eq_ok.1 read
    cases looked
    split at read
    · next stop =>
      cases read
      exact ⟨.refl _, stop⟩
    · obtain ⟨first, v, begun, read⟩ := Parse.bind_eq_ok.1 read
      obtain ⟨_, _, looked, read⟩ := Parse.bind_eq_ok.1 read
      cases looked
      have one := (h _ hs).takes first v begun
      have ahead := hs.leave one |>.mono (Nat.sub_le _ _)
      -- the comma, where there is one, is taken too
      have rest {w u : TokenStream} (one : u.Leaves 1 v) (front : v.Leaves 0 w)
          (read : (phrasesInLiteral p closing between m >>= fun tail => pure (first :: tail)) w =
            .ok (xs, t)) : u.Leaves xs.length t ∧ (t.peek.kind = closing ∨ t.peek.kind = .eof) := by
        obtain ⟨tail, u, more, read⟩ := Parse.bind_eq_ok.1 read
        cases read
        obtain ⟨later, stop⟩ := ih (ahead.leave front) more
        exact ⟨(one.trans (front.trans later)).le (by simp [Nat.add_comm]), stop⟩
      split at read
      · obtain ⟨_, w, comma, read⟩ := Parse.bind_eq_ok.1 read
        exact rest one ((Settles.expect (b := b) _ (by decide)).le v ahead |>.takes _ _ comma) read
      · exact rest one (.refl v) read

theorem operandsAfter_stops (operator? : Kind → Option Operator) (operand : Parse Expr) (left : Expr) :
    Stops (operator? · = none) (operandsAfter operator? operand m left) := by
  induction m generalizing left with
  | zero => exact .tooDeep
  | succ m ih =>
    refine fun s => .peek_bind ?_
    cases next : operator? s.peek.kind with
    | none => exact .pure next
    | some operator => exact .bind fun _ _ => .bind fun right => ih _

end

variable {n : Nat} {parts parts' : Phrases} (h : parts.Settle n parts')

include h

/-! ## Declarations -/

theorem block_settles (place : Place) : Settles 1 (n + 1) (block parts place) (block parts' place) := by
  refine (Settles.expect _ (by decide)).takes_bind fun _ => ?_
  refine (phrasesToEnd_settles h.statement _ h.bound h.bound').bind fun body => ?_
  exact (Settles.expect _ (by decide)).bind fun _ => .pure body

theorem variableDeclaration_settles (visibility : Option Visibility) :
    Settles 1 (n + 1) (variableDeclaration parts visibility) (variableDeclaration parts' visibility) := by
  refine Settles.advance.bind fun first => (Settles.expectName _).takes_bind fun name => ?_
  refine .look fun t => .ite (.ite (.invalid _ (by nofun)) (.pure _)) ?_
  exact (Settles.expect _ (by decide)).bind fun _ => h.expression.bind fun value => .pure _

omit h in
theorem parameter_settles : Settles 1 (n + 1) parameter parameter := by
  intro s hs
  refine .peek_bind (.ite (fun found => ?_) fun _ => Settles.invalid _ (by nofun) s hs)
  exact .advance_bind hs (by rw [found]; decide) (.pure _)

theorem untilParenthesis_settles {α : Type} {p q : Parse α} (hp : Settles 1 n p q) (place : Place) :
    Settles 1 n (untilParenthesis parts p place) (untilParenthesis parts' q place) := by
  -- the list may be empty; either way the parenthesis is next
  have close (items : List α) :
      Settles 1 n (Parse.expect (.sign .rightParen) place >>= fun _ => pure items)
        (Parse.expect (.sign .rightParen) place >>= fun _ => pure items) :=
    (Settles.expect _ (by decide)).andThen fun _ => .pure items
  exact .look fun t => .ite (close []) ((phrasesByComma_settles hp h.bound h.bound').bind close)

theorem functionDeclaration_settles (visibility : Option Visibility) :
    Settles 1 (n + 1) (functionDeclaration parts visibility) (functionDeclaration parts' visibility) := by
  -- with a name or without one, the rest is read in the same way
  have rest (parts parts' : Phrases) (h : parts.Settle n parts') (first : Token) (isAsync : Bool)
      (name : Option String) : Settles 0 n
      (if name.isNone && visibility.isSome then Parse.invalid first.span .anonymousMember
       else do
        let _ ← Parse.expect (.sign .leftParen) .parametersStart
        let parameters ← untilParenthesis parts parameter .parametersEnd
        let body ← block parts .functionBodyStart
        return (⟨name, parameters, body, isAsync, visibility⟩ : FunctionDeclaration))
      (if name.isNone && visibility.isSome then Parse.invalid first.span .anonymousMember
       else do
        let _ ← Parse.expect (.sign .leftParen) .parametersStart
        let parameters ← untilParenthesis parts' parameter .parametersEnd
        let body ← block parts' .functionBodyStart
        return (⟨name, parameters, body, isAsync, visibility⟩ : FunctionDeclaration)) := by
    refine .ite (.invalid _ (by nofun)) ((Settles.expect _ (by decide)).bind fun _ => ?_)
    refine (untilParenthesis_settles h (parameter_settles.lower (Nat.le_succ n)) _).bind fun parameters => ?_
    exact ((block_settles h _).lower (Nat.le_succ n)).bind fun body => .pure _
  refine .look fun first => (Settles.accept _).bind fun isAsync => ?_
  refine (Settles.expect _ (by decide)).takes_bind fun _ => .look fun t => .ite ?_ ?_
  · exact Settles.advance.bind fun _ => (Settles.pure _).bind fun name => rest _ _ h _ _ name
  · exact (Settles.pure _).bind fun name => rest _ _ h _ _ name

omit h in
theorem visibilityMark_settles : Settles 0 n visibilityMark visibilityMark := by
  refine .look fun t => ?_
  split
  case h_1 | h_2 => exact Settles.advance.bind fun _ => .pure _
  case h_3 => exact .pure _

theorem classMember_settles : Settles 1 (n + 1) (classMember parts) (classMember parts') := by
  refine .look fun first => visibilityMark_settles.bind fun visibility => .look fun t => ?_
  split
  case h_1 | h_2 =>
    refine (variableDeclaration_settles h _).andThen fun property => ?_
    cases visibility with
    | none => exact .invalid _ (by nofun)
    | some visibility => exact (Settles.accept _).bind fun _ => .pure _
  case h_3 | h_4 =>
    refine (functionDeclaration_settles h _).andThen fun method => ?_
    cases method.name with
    | none => exact .invalid _ (by nofun)
    | some name =>
      refine .ite (.invalid _ (by nofun)) ?_
      cases visibility with
      | none => exact .ite (.pure _) (.invalid _ (by nofun))
      | some visibility => exact .pure _
  case h_5 => exact .invalid _ (by nofun)

theorem classDeclaration_settles :
    Settles 1 (n + 1) (classDeclaration parts) (classDeclaration parts') := by
  -- with a superclass or without one, the body is read in the same way
  have rest (name : String) (superclass : Option String) : Settles 0 n
      (do
        let _ ← Parse.expect (.sign .leftBrace) .classBodyStart
        let members ← phrasesToEnd (classMember parts) endsBody parts.bound
        let _ ← Parse.expect (.sign .rightBrace) .classBodyEnd
        return (⟨name, superclass, members⟩ : ClassDeclaration))
      (do
        let _ ← Parse.expect (.sign .leftBrace) .classBodyStart
        let members ← phrasesToEnd (classMember parts') endsBody parts'.bound
        let _ ← Parse.expect (.sign .rightBrace) .classBodyEnd
        return (⟨name, superclass, members⟩ : ClassDeclaration)) := by
    have member := (classMember_settles h).lower (Nat.le_succ n)
    refine (Settles.expect _ (by decide)).bind fun _ => ?_
    refine (phrasesToEnd_settles member _ h.bound h.bound').bind fun members => ?_
    exact (Settles.expect _ (by decide)).bind fun _ => .pure _
  refine Settles.advance.bind fun _ => (Settles.expectName _).takes_bind fun name => .look fun t => ?_
  refine .ite (.invalid _ (by nofun)) ((Settles.accept _).bind fun derived => .ite ?_ ?_)
  · exact ((Settles.expectName _).map some).bind fun superclass => rest _ _
  · exact rest _ _

/-! ## Expressions -/

theorem arrayLiteral_settles (span : Span) :
    Settles 1 n (arrayLiteral parts span) (arrayLiteral parts' span) := by
  refine (phrasesInLiteral_settles h.expression _ _ h.bound h.bound').bind fun elements => ?_
  exact (Settles.expect _ (by decide)).andThen fun _ => .pure _

theorem property_settles : Settles 1 (n + 1) (property parts) (property parts') := by
  refine .look fun first => (Settles.expectName _).takes_bind fun key => ?_
  refine (Settles.accept _).bind fun valued => .ite ?_ (.pure _)
  exact (h.expression.map some).bind fun value => .pure _

theorem objectLiteral_settles (span : Span) :
    Settles 1 n (objectLiteral parts span) (objectLiteral parts' span) := by
  have each := (property_settles h).lower (Nat.le_succ n)
  refine (phrasesInLiteral_settles each _ _ h.bound h.bound').bind fun properties => ?_
  exact (Settles.expect _ (by decide)).andThen fun _ => .pure _

theorem primary_settles : Settles 1 (n + 1) (primary parts) (primary parts') := by
  intro s hs
  refine .peek_bind ?_
  split
  case h_1 found | h_3 found => exact .advance_bind hs (by rw [found]; decide) (.pure _)
  case h_2 found =>
    cases Number.read? s.peek.value with
    | none => exact Settles.invalid _ (by nofun) s hs
    | some x => exact .advance_bind hs (by rw [found]; decide) (.pure _)
  case h_4 found =>
    refine .advance_bind hs (by rw [found]; decide) (h.expression.bind fun e => ?_)
    exact (Settles.expect _ (by decide)).bind fun _ => .pure e
  case h_5 found => exact .advance_bind hs (by rw [found]; decide) (arrayLiteral_settles h _).le
  case h_6 found => exact .advance_bind hs (by rw [found]; decide) (objectLiteral_settles h _).le
  case h_7 | h_8 | h_9 => exact Settles.invalid _ (by nofun) s hs

theorem memberOf_settles (object : Expr) :
    Settles 1 (n + 1) (memberOf parts object) (memberOf parts' object) := by
  intro s hs
  by_cases found : s.peek.kind = .sign .leftBracket
  · refine .advance_bind hs (by rw [found]; decide) ?_
    rw [if_pos found, if_pos found]
    exact h.expression.bind fun property => (Settles.expect _ (by decide)).bind fun _ => .pure _
  · -- whatever stands in the place of the dot, a name has to follow
    refine .advance_look hs ?_
    rw [if_neg found, if_neg found]
    exact (Settles.expect _ (by decide)).andThen fun name => .pure _

theorem arguments_settles (place : Place) :
    Settles 1 (n + 1) (arguments parts place) (arguments parts' place) :=
  (Settles.expect _ (by decide)).takes_bind fun _ => (untilParenthesis_settles h h.expression _).le

theorem callsAfter_settles {b m m' : Nat} (within : b ≤ n + 1) (le : b ≤ m) (le' : b ≤ m') (e : Expr) :
    Settles 0 b (callsAfter parts m e) (callsAfter parts' m' e) := by
  induction b generalizing m m' e with
  | zero => exact .zero
  | succ b ih =>
    obtain ⟨m, rfl⟩ := Nat.exists_eq_succ_of_ne_zero (Nat.ne_zero_of_lt le)
    obtain ⟨m', rfl⟩ := Nat.exists_eq_succ_of_ne_zero (Nat.ne_zero_of_lt le')
    have more := ih (Nat.le_of_succ_le within) (Nat.le_of_succ_le_succ le) (Nat.le_of_succ_le_succ le')
    refine .look fun t => ?_
    split
    case h_1 => exact (((arguments_settles h _).lower within).takes_bind fun args => more _).le
    case h_2 | h_3 => exact (((memberOf_settles h e).lower within).takes_bind more).le
    case h_4 => exact .pure e

theorem membersAfter_settles {b m m' : Nat} (within : b ≤ n + 1) (le : b ≤ m) (le' : b ≤ m') (e : Expr) :
    Settles 0 b (membersAfter parts m e) (membersAfter parts' m' e) := by
  induction b generalizing m m' e with
  | zero => exact .zero
  | succ b ih =>
    obtain ⟨m, rfl⟩ := Nat.exists_eq_succ_of_ne_zero (Nat.ne_zero_of_lt le)
    obtain ⟨m', rfl⟩ := Nat.exists_eq_succ_of_ne_zero (Nat.ne_zero_of_lt le')
    have more := ih (Nat.le_of_succ_le within) (Nat.le_of_succ_le_succ le) (Nat.le_of_succ_le_succ le')
    refine .look fun t => ?_
    split
    case h_1 | h_2 => exact (((memberOf_settles h e).lower within).takes_bind more).le
    case h_3 => exact .pure e

omit h in
theorem callsAfter_stops (m : Nat) (e : Expr) :
    Stops (fun k => k ≠ .sign .leftParen ∧ k ≠ .sign .dot ∧ k ≠ .sign .leftBracket) (callsAfter parts m e) := by
  induction m generalizing e with
  | zero => exact .tooDeep
  | succ m ih =>
    refine fun s => .peek_bind ?_
    split
    case h_1 => exact .bind fun args => ih _
    case h_2 | h_3 => exact .bind fun member => ih member
    case h_4 paren dot bracket => exact .pure ⟨paren, dot, bracket⟩

omit h in
theorem membersAfter_stops (m : Nat) (e : Expr) :
    Stops (fun k => k ≠ .sign .dot ∧ k ≠ .sign .leftBracket) (membersAfter parts m e) := by
  induction m generalizing e with
  | zero => exact .tooDeep
  | succ m ih =>
    refine fun s => .peek_bind ?_
    split
    case h_1 | h_2 => exact .bind fun member => ih member
    case h_3 dot bracket => exact .pure ⟨dot, bracket⟩

theorem callChain_settles : Settles 1 (n + 1) (callChain parts) (callChain parts') :=
  (primary_settles h).takes_bind fun e => callsAfter_settles h (Nat.le_succ n) h.bound h.bound' e

theorem product_settles : Settles 1 (n + 1) (product parts) (product parts') := by
  have operand := callChain_settles h
  exact operand.takes_bind fun e =>
    operandsAfter_settles _ (operand.lower (Nat.le_succ n)) h.bound h.bound' e

theorem sum_settles : Settles 1 (n + 1) (sum parts) (sum parts') := by
  have operand := product_settles h
  exact operand.takes_bind fun e =>
    operandsAfter_settles _ (operand.lower (Nat.le_succ n)) h.bound h.bound' e

theorem comparison_settles : Settles 1 (n + 1) (comparison parts) (comparison parts') := by
  have operand := sum_settles h
  exact operand.takes_bind fun e =>
    operandsAfter_settles _ (operand.lower (Nat.le_succ n)) h.bound h.bound' e

theorem instantiation_settles : Settles 1 (n + 1) (instantiation parts) (instantiation parts') := by
  refine .look fun t => .ite (Settles.advance.bind fun _ => ?_) (comparison_settles h)
  refine (primary_settles h).takes_bind fun first => ?_
  refine (membersAfter_settles h (Nat.le_succ n) h.bound h.bound' first).bind fun target => ?_
  exact ((arguments_settles h _).lower (Nat.le_succ n)).bind fun args => .pure _

theorem assignmentTo_settles (target : Expr) :
    Settles 0 (n + 1) (assignmentTo parts target) (assignmentTo parts' target) := by
  intro s hs
  refine .peek_bind ?_
  cases found : update? s.peek.kind with
  | none => exact Settles.pure target s hs
  | some update =>
    refine .ite (fun _ => ?_) fun _ => Settles.invalid _ (by nofun) s hs
    have taken : s.peek.kind ≠ .eof := fun eof => by
      rw [eof] at found
      cases found
    refine (SettlesAt.advance_bind hs taken ?_).le (Nat.zero_le _)
    cases update with
    | replace => exact h.expression.bind fun value => .pure _
    | step operator => exact .pure _
    | combine operator =>
      exact ((instantiation_settles h).lower (Nat.le_succ n)).bind fun right => .pure _

theorem expression_settles : Settles 1 (n + 1) (expression parts) (expression parts') := by
  refine .look fun t => ?_
  split
  case h_1 | h_2 => exact (functionDeclaration_settles h none).andThen fun d => .pure _
  case h_3 =>
    exact (instantiation_settles h).andThen fun target => assignmentTo_settles h target

/-! ## Statements -/

theorem returnedValue_settles (span : Span) :
    Settles 0 n (returnedValue parts span) (returnedValue parts' span) := by
  refine .look fun t => ?_
  split
  case h_1 | h_2 | h_3 => exact .pure _
  case h_4 => exact h.expression.le

theorem conditional_settles (word : Keyword) :
    Settles 1 (n + 1) (conditional parts word) (conditional parts' word) := by
  refine (Settles.expect _ (by decide)).takes_bind fun _ => h.expression.bind fun condition => ?_
  refine (Settles.expect _ (by decide)).bind fun _ => ?_
  exact ((block_settles h _).lower (Nat.le_succ n)).bind fun body => .pure _

theorem loopCounter_settles : Settles 1 (n + 1) (loopCounter parts) (loopCounter parts') := by
  refine .look fun t => ?_
  split
  case h_1 | h_2 =>
    exact (variableDeclaration_settles h none).andThen fun counter => .ite (.pure _) (.invalid _ (by nofun))
  case h_3 => exact .unexpected _ _

theorem loopIterator_settles (name : String) :
    Settles 1 (n + 1) (loopIterator parts name) (loopIterator parts' name) := by
  refine (Settles.expect _ (by decide)).andThen fun t => ?_
  exact (assignmentTo_settles h _).bind fun iterator => .ite (.pure _) (.invalid _ (by nofun))

theorem forLoop_settles : Settles 1 (n + 1) (forLoop parts) (forLoop parts') := by
  refine (Settles.expect _ (by decide)).takes_bind fun _ => ?_
  refine ((loopCounter_settles h).lower (Nat.le_succ n)).bind fun counter => ?_
  refine (Settles.expect _ (by decide)).bind fun _ => h.expression.bind fun condition => ?_
  refine (Settles.expect _ (by decide)).bind fun _ => ?_
  refine ((loopIterator_settles h _).lower (Nat.le_succ n)).bind fun iterator => ?_
  refine (Settles.expect _ (by decide)).bind fun _ => ?_
  exact ((block_settles h _).lower (Nat.le_succ n)).bind fun body => .pure _

theorem bareStatement_settles : Settles 1 (n + 1) (bareStatement parts) (bareStatement parts') := by
  intro s hs
  refine .peek_bind ?_
  split
  case h_1 | h_2 => exact (variableDeclaration_settles h none).map _ s hs
  case h_3 | h_4 => exact (functionDeclaration_settles h none).map _ s hs
  case h_5 => exact (classDeclaration_settles h).map _ s hs
  case h_6 | h_7 => exact Settles.invalid _ (by nofun) s hs
  case h_8 found => exact .advance_bind hs (by rw [found]; decide) ((returnedValue_settles h _).map _)
  case h_9 found => exact .advance_bind hs (by rw [found]; decide) (.pure _)
  case h_10 | h_11 =>
    exact (Settles.advance.bind fun _ => (conditional_settles h _).andThen fun parts => .pure _) s hs
  case h_12 => exact (Settles.advance.bind fun _ => (forLoop_settles h).map _) s hs
  case h_13 => exact (expression_settles h).map _ s hs

theorem statement_settles : Settles 1 (n + 1) (statement parts) (statement parts') :=
  (bareStatement_settles h).andThen fun _ => (Settles.accept _).bind fun _ => .pure _

end Grammar

/-! ## Programs -/

/-- The readers of bounded nesting do not depend on the bound. -/
theorem readers_settle {n N : Nat} (le : n ≤ N) :
    Parse.Settles 1 n (readExpression n) (readExpression N) ∧
      Parse.Settles 1 n (readStatement n) (readStatement N) := by
  induction n generalizing N with
  | zero => exact ⟨.zero, .zero⟩
  | succ n ih =>
    obtain ⟨N, rfl⟩ := Nat.exists_eq_succ_of_ne_zero (Nat.ne_zero_of_lt le)
    obtain ⟨expression, statement⟩ := ih (Nat.le_of_succ_le_succ le)
    have parts : Phrases.Settle n ⟨n + 1, readExpression n, readStatement n⟩
        ⟨N + 1, readExpression N, readStatement N⟩ :=
      ⟨Nat.le_succ n, Nat.le_of_succ_le le, expression, statement⟩
    exact ⟨Grammar.expression_settles parts, Grammar.statement_settles parts⟩

end ScriptLang
