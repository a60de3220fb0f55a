/-
# ScriptLang.Proofs.Syntax.Sequel — what is read stays read when more follows a semicolon.

Tokens that spell a program, then semicolons, then other tokens: together they spell the statements of
that program and then what the other tokens spell, or fail as these fail.  A reader that succeeds on a stream is compared with
the same reader on that stream with another behind it.  It reads the same phrase there, and has the same
left with the other stream behind it, since at the end of the first stream it meets a semicolon instead of
the end, and no reader that accepts the end there goes on at a semicolon.  Only the semicolon after a
statement may be taken at that place.

The readers of the longer stream may have larger bounds, and what they read of the second stream does not
depend on their bounds.
-/
import ScriptLang.Proofs.Syntax.Balance
import ScriptLang.Proofs.Syntax.Progress

namespace ScriptLang

/-! ## Streams -/

/-- A stream, and another in place of its end. -/
def TokenStream.append (s rest : TokenStream) : TokenStream := ⟨s.tokens ++ rest.tokens, rest.eof⟩

/-- What may stand behind a stream that ends with a given token: nothing, or a semicolon and more. -/
structure TokenStream.Follows (last : Token) (rest : TokenStream) : Prop where
  ended : last.kind = .eof
  begins : rest = ⟨[], last⟩ ∨ rest.peek.kind = .sign .semicolon

namespace TokenStream

variable {last : Token} {rest s : TokenStream}

/-- Before its end a stream shows what it showed, and at its end a semicolon if anything. -/
theorem Follows.peek (f : Follows last rest) (hs : s.eof = last) :
    (s.append rest).peek = s.peek ∨
      s.tokens = [] ∧ s.peek.kind = .eof ∧ (s.append rest).peek.kind = .sign .semicolon := by
  obtain ⟨tokens, eof⟩ := s
  subst hs
  cases tokens with
  | cons t ts => exact .inl rfl
  | nil =>
    rcases f.begins with rfl | semicolon
    · exact .inl rfl
    · exact .inr ⟨rfl, f.ended, semicolon⟩

theorem ne_nil_of_peek (hs : s.eof.kind = .eof) (h : s.peek.kind ≠ .eof) : s.tokens ≠ [] := by
  intro none
  rw [TokenStream.peek, none] at h
  exact h hs

theorem append_peek (rest : TokenStream) (h : s.tokens ≠ []) : (s.append rest).peek = s.peek := by
  obtain ⟨_ | ⟨t, ts⟩, eof⟩ := s
  · exact absurd rfl h
  · rfl

theorem append_next (h : s.tokens ≠ []) : (s.append rest).next = s.next.append rest := by
  obtain ⟨_ | ⟨t, ts⟩, eof⟩ := s
  · exact absurd rfl h
  · rfl

theorem append_dropSemicolons (h : s.dropSemicolons.tokens ≠ []) :
    (s.append rest).dropSemicolons = s.dropSemicolons.append rest := by
  rw [dropSemicolons] at h
  rw [dropSemicolons, append, List.dropWhile_append, if_neg (by simpa using h)]
  rfl

theorem append_dropSemicolons_nil (h : s.dropSemicolons.tokens = []) :
    (s.append rest).dropSemicolons = rest.dropSemicolons := by
  rw [dropSemicolons] at h
  rw [dropSemicolons, append, List.dropWhile_append, if_pos (by simpa using h)]
  rfl

theorem next_dropSemicolons (h : s.peek.kind = .sign .semicolon) :
    s.next.dropSemicolons = s.dropSemicolons := by
  obtain ⟨_ | ⟨t, ts⟩, eof⟩ := s
  · rfl
  · have semicolon : decide (t.kind = .sign .semicolon) = true := decide_eq_true h
    simp [dropSemicolons, next, semicolon]

theorem Follows.next_dropSemicolons (f : Follows last rest) :
    rest.next.dropSemicolons = rest.dropSemicolons := by
  rcases f.begins with rfl | semicolon
  · rfl
  · exact TokenStream.next_dropSemicolons semicolon

end TokenStream

/-! ## Readers -/

namespace Parse

variable {α β γ : Type} (last : Token) (rest : TokenStream)

/-- What the reader `p` reads of `s`, the reader `q` reads of `s` with `rest` behind it. -/
def ExtendsAt (p q : Parse α) (s : TokenStream) : Prop :=
  s.eof = last → ∀ a t, p s = .ok (a, t) → t.eof = last ∧ q (s.append rest) = .ok (a, t.append rest)

/-- What the reader `p` reads, the reader `q` reads with `rest` behind. -/
def Extends (p q : Parse α) : Prop := ∀ s, ExtendsAt last rest p q s

/-- What the reader `p` reads of `s`, the reader `q` reads of `s` with `rest` behind it, and if nothing is
left after it, `q` may have taken the first token of `rest` too. -/
def ExtendsToEndAt (p q : Parse α) (s : TokenStream) : Prop :=
  s.eof = last → ∀ a t, p s = .ok (a, t) → t.eof = last ∧
    (q (s.append rest) = .ok (a, t.append rest) ∨ t.tokens = [] ∧ q (s.append rest) = .ok (a, rest.next))

/-- What the reader `p` reads, the reader `q` reads with `rest` behind, to the end or past a token. -/
def ExtendsToEnd (p q : Parse α) : Prop := ∀ s, ExtendsToEndAt last rest p q s

variable {last rest}

/-- The reader reads nothing of `s`. -/
def FailsAt (p : Parse α) (s : TokenStream) : Prop := ∃ e, p s = .error e

namespace FailsAt

variable {s : TokenStream}

theorem bind {p : Parse α} (h : p.FailsAt s) (c : α → Parse β) : (p >>= c).FailsAt s := by
  obtain ⟨e, failed⟩ := h
  exact ⟨e, by rw [bind_run, failed]⟩

theorem map {p : Parse α} (h : p.FailsAt s) (c : α → β) : (c <$> p).FailsAt s := by
  obtain ⟨e, failed⟩ := h
  exact ⟨e, by rw [map_run, failed]⟩

theorem peek_bind {c : Token → Parse β} (h : (c s.peek).FailsAt s) : (Parse.peek >>= c).FailsAt s := by
  obtain ⟨e, failed⟩ := h
  exact ⟨e, by rw [bind_run]; exact failed⟩

/-- At the end no other token is found. -/
theorem expect {kind : Kind} {place : Place} (eof : s.peek.kind = .eof) (needed : kind ≠ .eof) :
    (Parse.expect kind place).FailsAt s :=
  ⟨_, if_neg (by rw [eof]; exact needed.symm)⟩

end FailsAt

namespace ExtendsAt

variable {s : TokenStream}

theorem fail {p q : Parse α} (h : p.FailsAt s) : ExtendsAt last rest p q s := by
  obtain ⟨e, failed⟩ := h
  intro _ a t read
  rw [failed] at read
  cases read

theorem bind {p q : Parse α} {c d : α → Parse β} (h : ExtendsAt last rest p q s)
    (k : ∀ a t, ExtendsAt last rest (c a) (d a) t) : ExtendsAt last rest (p >>= c) (q >>= d) s := by
  intro hs b u read
  obtain ⟨a, t, first, second⟩ := bind_eq_ok.1 read
  obtain ⟨ht, found⟩ := h hs a t first
  obtain ⟨hu, found'⟩ := k a t ht b u second
  exact ⟨hu, bind_eq_ok.2 ⟨a, _, found, found'⟩⟩

theorem toEnd {p q : Parse α} (h : ExtendsAt last rest p q s) : ExtendsToEndAt last rest p q s := by
  intro hs a t read
  obtain ⟨ht, found⟩ := h hs a t read
  exact ⟨ht, .inl found⟩

theorem bind_toEnd {p q : Parse α} {c d : α → Parse β} (h : ExtendsAt last rest p q s)
    (k : ∀ a, ExtendsToEnd last rest (c a) (d a)) : ExtendsToEndAt last rest (p >>= c) (q >>= d) s := by
  intro hs b u read
  obtain ⟨a, t, first, second⟩ := bind_eq_ok.1 read
  obtain ⟨ht, found⟩ := h hs a t first
  rw [bind_run, found]
  exact k a t ht b u second

theorem map {p q : Parse α} (c : α → β) (h : ExtendsAt last rest p q s) :
    ExtendsAt last rest (c <$> p) (c <$> q) s := by
  intro hs b u read
  rw [map_run] at read
  split at read
  · next a t first =>
    cases read
    obtain ⟨ht, found⟩ := h hs a _ first
    exact ⟨ht, by rw [map_run, found]⟩
  · cases read

theorem ite {c : Prop} [Decidable c] {p p' q q' : Parse α} (h : c → ExtendsAt last rest p q s)
    (h' : ¬c → ExtendsAt last rest p' q' s) :
    ExtendsAt last rest (if c then p else p') (if c then q else q') s := by
  split
  · exact h ‹_›
  · exact h' ‹_›

/-- A reader that looks at a token goes on with that token in hand; at the end of the first stream it may
meet a semicolon instead. -/
theorem peek_bind (f : TokenStream.Follows last rest) {c d : Token → Parse β}
    (h : ExtendsAt last rest (c s.peek) (d s.peek) s)
    (atEnd : s.tokens = [] → s.peek.kind = .eof → ∀ t, t.kind = .sign .semicolon →
      ExtendsAt last rest (c s.peek) (d t) s) :
    ExtendsAt last rest (Parse.peek >>= c) (Parse.peek >>= d) s := by
  intro hs b u read
  rw [bind_run] at read ⊢
  rcases f.peek hs with same | ⟨none, eof, semicolon⟩
  · have found := h hs b u read
    rw [← same] at found
    exact found
  · exact atEnd none eof _ semicolon hs b u read

/-- A token that is not the end is taken. -/
theorem next (f : TokenStream.Follows last rest) {p q : Parse α} {a : α} (taken : s.peek.kind ≠ .eof)
    (h : p s = .ok (a, s.next)) (h' : q (s.append rest) = .ok (a, (s.append rest).next)) :
    ExtendsAt last rest p q s := by
  intro hs b u read
  rw [h] at read
  cases read
  refine ⟨hs, ?_⟩
  rw [h', TokenStream.append_next (TokenStream.ne_nil_of_peek (hs ▸ f.ended) taken)]

theorem advance_bind (f : TokenStream.Follows last rest) {c d : Token → Parse β}
    (taken : s.peek.kind ≠ .eof) (k : ∀ t, ExtendsAt last rest (c s.peek) (d s.peek) t) :
    ExtendsAt last rest (Parse.advance >>= c) (Parse.advance >>= d) s := by
  intro hs b u read
  have some := TokenStream.ne_nil_of_peek (s := s) (hs ▸ f.ended) taken
  rw [bind_run] at read ⊢
  have found := k s.next hs b u read
  rwa [← TokenStream.append_next some, ← TokenStream.append_peek rest some] at found

end ExtendsAt

namespace Extends

variable (f : TokenStream.Follows last rest)

theorem pure (a : α) : Extends last rest (Pure.pure a) (Pure.pure a) := by
  intro s hs b u read
  cases read
  exact ⟨hs, rfl⟩

theorem invalid {q : Parse α} (span : Span) (breach : RuleBreach) :
    Extends last rest (Parse.invalid span breach) q :=
  fun _ => .fail ⟨_, rfl⟩

theorem unexpected {q : Parse α} (kind : Kind) (place : Place) :
    Extends last rest (Parse.unexpected kind place) q :=
  fun _ => .fail ⟨_, rfl⟩

theorem tooDeep {q : Parse α} : Extends last rest Parse.tooDeep q := fun _ => .fail ⟨_, rfl⟩

theorem bind {p q : Parse α} {c d : α → Parse β} (h : Extends last rest p q)
    (k : ∀ a, Extends last rest (c a) (d a)) : Extends last rest (p >>= c) (q >>= d) :=
  fun s => (h s).bind fun a t => k a t

theorem map {p q : Parse α} (c : α → β) (h : Extends last rest p q) :
    Extends last rest (c <$> p) (c <$> q) :=
  fun s => (h s).map c

theorem ite {c : Prop} [Decidable c] {p p' q q' : Parse α} (h : Extends last rest p q)
    (h' : Extends last rest p' q') : Extends last rest (if c then p else p') (if c then q else q') :=
  fun s => .ite (fun _ => h s) fun _ => h' s

include f

omit f in
/-- A reader that looks at a token, and is the same whatever it sees. -/
theorem look {c d : Token → Parse β} (h : ∀ t u, Extends last rest (c t) (d u)) :
    Extends last rest (Parse.peek >>= c) (Parse.peek >>= d) := by
  intro s hs b u read
  rw [bind_run] at read ⊢
  exact h _ _ s hs b u read

/-- A reader that does not tell the end from a semicolon. -/
theorem peek_bind {c d : Token → Parse β} (h : ∀ t, Extends last rest (c t) (d t))
    (atEnd : ∀ t u, t.kind = .eof → u.kind = .sign .semicolon → Extends last rest (c t) (d u)) :
    Extends last rest (Parse.peek >>= c) (Parse.peek >>= d) :=
  fun s => .peek_bind f (h _ s) fun _ eof u semicolon => atEnd _ u eof semicolon s

theorem expect {kind : Kind} (place : Place) (taken : kind ≠ .eof) :
    Extends last rest (Parse.expect kind place) (Parse.expect kind place) := by
  intro s hs
  by_cases found : s.peek.kind = kind
  · have some := TokenStream.ne_nil_of_peek (s := s) (hs ▸ f.ended) (found ▸ taken)
    have same := TokenStream.append_peek rest some
    refine ExtendsAt.next f (a := s.peek) (found ▸ taken) (if_pos found) ?_ hs
    rw [Parse.expect, same, if_pos found]
  · exact ExtendsAt.fail ⟨_, if_neg found⟩ hs

theorem expectName (place : Place) :
    Extends last rest (Parse.expectName place) (Parse.expectName place) := by
  exact (expect f place (by decide)).bind fun _ => pure _

/-- Whether a sign follows is told alike, unless it is the one that may be met at the end. -/
theorem accept {kind : Kind} (taken : kind ≠ .eof) (other : kind ≠ .sign .semicolon) :
    Extends last rest (Parse.accept kind) (Parse.accept kind) := by
  intro s hs
  by_cases found : s.peek.kind = kind
  · have some := TokenStream.ne_nil_of_peek (s := s) (hs ▸ f.ended) (found ▸ taken)
    have same := TokenStream.append_peek rest some
    refine ExtendsAt.next f (a := true) (found ▸ taken) (if_pos found) ?_ hs
    rw [Parse.accept, same, if_pos found]
  · intro b u read
    rw [Parse.accept, if_neg found] at read
    cases read
    refine ⟨hs, if_neg ?_⟩
    rcases f.peek hs with same | ⟨-, -, semicolon⟩
    · rwa [same]
    · rw [semicolon]
      exact other.symm

end Extends

namespace ExtendsToEnd

/-- A reader that looks at a token, and is the same whatever it sees. -/
theorem look {c d : Token → Parse β} (h : ∀ t u, ExtendsToEnd last rest (c t) (d u)) :
    ExtendsToEnd last rest (Parse.peek >>= c) (Parse.peek >>= d) := by
  intro s hs b u read
  rw [bind_run] at read ⊢
  exact h _ _ s hs b u read

/-- A semicolon is taken if it is there.  At the end of the first stream it may be that of the second. -/
theorem acceptSemicolon (f : TokenStream.Follows last rest) (a : α) :
    ExtendsToEnd last rest (Parse.accept (.sign .semicolon) >>= fun _ => Pure.pure a)
      (Parse.accept (.sign .semicolon) >>= fun _ => Pure.pure a) := by
  intro s hs b u read
  rw [bind_run, Parse.accept] at read ⊢
  rcases f.peek hs with same | ⟨none, eof, semicolon⟩
  · rw [same]
    by_cases here : s.peek.kind = .sign .semicolon
    · have some := TokenStream.ne_nil_of_peek (s := s) (hs ▸ f.ended) (by rw [here]; decide)
      rw [if_pos here] at read ⊢
      cases read
      exact ⟨hs, .inl (by rw [TokenStream.append_next some]; rfl)⟩
    · rw [if_neg here] at read ⊢
      cases read
      exact ⟨hs, .inl rfl⟩
  · rw [if_neg (by rw [eof]; decide)] at read
    rw [if_pos semicolon, TokenStream.append, none]
    cases read
    exact ⟨hs, .inr ⟨none, rfl⟩⟩

end ExtendsToEnd

theorem ExtendsToEndAt.peek_bind {s : TokenStream} (f : TokenStream.Follows last rest)
    {c d : Token → Parse β} (h : ExtendsToEndAt last rest (c s.peek) (d s.peek) s)
    (atEnd : s.tokens = [] → s.peek.kind = .eof → ∀ t, t.kind = .sign .semicolon →
      ExtendsToEndAt last rest (c s.peek) (d t) s) :
    ExtendsToEndAt last rest (Parse.peek >>= c) (Parse.peek >>= d) s := by
  intro hs b u read
  rw [bind_run] at read ⊢
  rcases f.peek hs with same | ⟨none, eof, semicolon⟩
  · have found := h hs b u read
    rw [← same] at found
    exact found
  · exact atEnd none eof _ semicolon hs b u read

end Parse

/-! ## Lists of phrases -/

/-- The readers of the two phrases that contain themselves read what they read when more follows. -/
structure Phrases.Extends (last : Token) (rest : TokenStream) (parts parts' : Phrases) : Prop where
  follows : rest.Follows last
  bound : parts.bound ≤ parts'.bound
  expression : Parse.Extends last rest parts.expression parts'.expression
  statement : Parse.ExtendsToEnd last rest parts.statement parts'.statement

namespace Grammar

open Parse (Extends ExtendsAt ExtendsToEnd FailsAt)

section

variable {last : Token} {rest : TokenStream} {α β : Type} {p q : Parse α}

/-- A list and what is done with it, as one look at its first token. -/
theorem phrasesInLiteral_bind (p : Parse α) (closing : Kind) (between : Place) (n : Nat)
    (k : List α → Parse β) :
    (phrasesInLiteral p closing between (n + 1) >>= k) = (Parse.peek >>= fun t =>
      if t.kind = closing ∨ t.kind = .eof then k []
      else p >>= fun first => Parse.peek >>= fun after =>
        if after.kind ≠ closing then
          Parse.expect (.sign .comma) between >>= fun _ =>
            phrasesInLiteral p closing between n >>= fun tail => k (first :: tail)
        else phrasesInLiteral p closing between n >>= fun tail => k (first :: tail)) := by
  rw [phrasesInLiteral, bind_assoc]
  congr 1
  funext t
  split
  · rw [pure_bind]
  · rw [bind_assoc]
    congr 1
    funext first
    rw [bind_assoc]
    congr 1
    funext after
    split <;> simp only [bind_assoc, pure_bind]

/-- A body and what is done with it, on the stream after the semicolons at its front. -/
theorem phrasesToEnd_bind (p : Parse α) (ends : Kind → Bool) (n : Nat) (k : List α → Parse β)
    (s : TokenStream) :
    (phrasesToEnd p ends (n + 1) >>= k) s =
      (if ends s.dropSemicolons.peek.kind then k []
       else p >>= fun first => phrasesToEnd p ends n >>= fun tail => k (first :: tail))
        s.dropSemicolons := by
  rw [Parse.bind_run, phrasesToEnd, Parse.bind_run, Parse.skipSemicolons]
  dsimp only
  rw [Parse.bind_run, Parse.peek]
  dsimp only
  by_cases ended : ends s.dropSemicolons.peek.kind
  · rw [if_pos ended, if_pos ended]
    rfl
  · rw [if_neg ended, if_neg ended, ← Parse.bind_run]
    simp only [bind_assoc, pure_bind]

variable (f : rest.Follows last) {n N : Nat} (le : n ≤ N)

include f le

theorem phrasesByComma_extends (h : Extends last rest p q) :
    Extends last rest (phrasesByComma p n) (phrasesByComma q N) := by
  induction n generalizing N with
  | zero => exact .tooDeep
  | succ n ih =>
    obtain ⟨N, rfl⟩ := Nat.exists_eq_succ_of_ne_zero (Nat.ne_zero_of_lt le)
    refine h.bind fun first => (Extends.accept f (by decide) (by decide)).bind fun more => ?_
    exact .ite ((ih (Nat.le_of_succ_le_succ le)).bind fun tail => .pure _) (.pure _)

/-- A list up to a closing sign, and that sign.  At the end of the first stream the sign is missing. -/
theorem phrasesInLiteral_extends (h : Extends last rest p q) {closing : Kind} (needed : closing ≠ .eof)
    (between place : Place) (g : List α → β) :
    Extends last rest
      (phrasesInLiteral p closing between n >>= fun xs =>
        Parse.expect closing place >>= fun _ => pure (g xs))
      (phrasesInLiteral q closing between N >>= fun xs =>
        Parse.expect closing place >>= fun _ => pure (g xs)) := by
  induction n generalizing N g with
  | zero => exact fun _ => .fail ⟨_, rfl⟩
  | succ n ih =>
    obtain ⟨N, rfl⟩ := Nat.exists_eq_succ_of_ne_zero (Nat.ne_zero_of_lt le)
    have tail (first : α) := ih (Nat.le_of_succ_le_succ le) (g := fun tail => g (first :: tail))
    have close : Extends last rest (Parse.expect closing place >>= fun _ => pure (g []))
        (Parse.expect closing place >>= fun _ => pure (g [])) :=
      (Extends.expect f place needed).bind fun _ => .pure _
    intro s
    rw [phrasesInLiteral_bind, phrasesInLiteral_bind]
    refine .peek_bind f ?_ fun _ eof t semicolon => ?_
    · refine .ite (fun _ => close s) fun _ => (h s).bind fun first t => ?_
      refine .peek_bind f ?_ fun _ eof u semicolon => ?_
      · exact .ite (fun _ => (Extends.expect f _ (by decide)).bind (fun _ => tail first) t)
          fun _ => tail first t
      · rw [if_pos (by rw [eof]; exact needed.symm)]
        exact .fail ((FailsAt.expect eof (by decide)).bind _)
    · rw [if_pos (.inr eof)]
      exact .fail ((FailsAt.expect eof needed).bind _)

omit f le in
/-- A body that is closed does not begin at the end. -/
theorem ne_nil_of_closed {place : Place} {g : List α → β} {s t : TokenStream} {b : β}
    (hs : s.eof.kind = .eof) (h : (phrasesToEnd p endsBody n >>= fun xs =>
      Parse.expect (.sign .rightBrace) place >>= fun _ => pure (g xs)) s = .ok (b, t)) :
    s.dropSemicolons.tokens ≠ [] := by
  intro none
  have atEnd : s.dropSemicolons.peek.kind = .eof := by
    rw [TokenStream.peek, none]
    exact hs
  cases n with
  | zero => cases h
  | succ n =>
    rw [phrasesToEnd_bind, if_pos (by rw [atEnd]; rfl), Parse.bind_run, Parse.expect,
      if_neg (by rw [atEnd]; decide)] at h
    cases h

/-- Statements or members up to the brace that closes their body, and that brace.  No phrase before it
comes to the end of the first stream. -/
theorem phrasesToEnd_extends (h : ExtendsToEnd last rest p q) (place : Place) (g : List α → β) :
    Extends last rest
      (phrasesToEnd p endsBody n >>= fun xs =>
        Parse.expect (.sign .rightBrace) place >>= fun _ => pure (g xs))
      (phrasesToEnd q endsBody N >>= fun xs =>
        Parse.expect (.sign .rightBrace) place >>= fun _ => pure (g xs)) := by
  induction n generalizing N g with
  | zero => exact fun _ => .fail ⟨_, rfl⟩
  | succ n ih =>
    obtain ⟨N, rfl⟩ := Nat.exists_eq_succ_of_ne_zero (Nat.ne_zero_of_lt le)
    intro s hs b u read
    have some := ne_nil_of_closed (hs ▸ f.ended) read
    rw [phrasesToEnd_bind] at read ⊢
    rw [TokenStream.append_dropSemicolons some, TokenStream.append_peek rest some]
    split at read
    · have close : Extends last rest (Parse.expect (.sign .rightBrace) place >>= fun _ => pure (g []))
          (Parse.expect (.sign .rightBrace) place >>= fun _ => pure (g [])) :=
        (Extends.expect f place (by decide)).bind fun _ => .pure _
      rw [if_pos ‹_›]
      exact close s.dropSemicolons hs b u read
    · obtain ⟨first, t, begun, read⟩ := Parse.bind_eq_ok.1 read
      obtain ⟨ht, found | ⟨none, -⟩⟩ := h s.dropSemicolons hs first t begun
      · obtain ⟨hu, found'⟩ := ih (Nat.le_of_succ_le_succ le) (fun tail => g (first :: tail)) t ht b u read
        rw [if_neg ‹_›]
        exact ⟨hu, Parse.bind_eq_ok.2 ⟨first, _, found, found'⟩⟩
      · refine absurd ?_ (ne_nil_of_closed (ht ▸ f.ended) read)
        rw [TokenStream.dropSemicolons, none]
        rfl

/-- At the end no operator follows, and a semicolon is none. -/
theorem operandsAfter_extends {operator? : Kind → Option Operator} (atEnd : operator? .eof = none)
    (atSemicolon : operator? (.sign .semicolon) = none) {operand operand' : Parse Expr}
    (h : Extends last rest operand operand') (left : Expr) :
    Extends last rest (operandsAfter operator? operand n left)
      (operandsAfter operator? operand' N left) := by
  induction n generalizing N left with
  | zero => exact .tooDeep
  | succ n ih =>
    obtain ⟨N, rfl⟩ := Nat.exists_eq_succ_of_ne_zero (Nat.ne_zero_of_lt le)
    intro s
    refine .peek_bind f ?_ fun _ eof t semicolon => ?_
    · cases found : operator? s.peek.kind with
      | none => exact Extends.pure left s
      | some operator =>
        refine .advance_bind f (fun eof => ?_) fun t => ?_
        · rw [eof, atEnd] at found
          cases found
        · exact (h.bind fun right => ih (Nat.le_of_succ_le_succ le) _) t
    · rw [eof, atEnd, semicolon, atSemicolon]
      exact Extends.pure left s

end

section

variable {last : Token} {rest : TokenStream} {parts parts' : Phrases}
  (h : parts.Extends last rest parts')

include h

/-! ## Declarations -/

theorem block_extends (place : Place) : Extends last rest (block parts place) (block parts' place) :=
  (Extends.expect h.follows _ (by decide)).bind fun _ =>
    phrasesToEnd_extends h.follows h.bound h.statement _ id

theorem variableDeclaration_extends (visibility : Option Visibility) {s : TokenStream}
    (taken : s.peek.kind ≠ .eof) :
    ExtendsAt last rest (variableDeclaration parts visibility) (variableDeclaration parts' visibility) s := by
  refine .advance_bind h.follows taken fun t => ?_
  refine ((Extends.expectName h.follows _).bind fun name => fun u => ?_) t
  -- without a value the declaration ends before a semicolon, which is there already
  refine .peek_bind h.follows ?_ fun _ eof v _ => ?_
  · refine .ite (fun _ => .ite (fun _ => Extends.invalid _ _ u) fun _ => Extends.pure _ u) fun _ => ?_
    exact ((Extends.expect h.follows _ (by decide)).bind fun _ => h.expression.bind fun value => .pure _) u
  · rw [if_neg (by rw [eof]; decide)]
    exact .fail ((FailsAt.expect eof (by decide)).bind _)

theorem parameter_extends : Extends last rest parameter parameter := by
  intro s
  refine .peek_bind h.follows ?_ fun _ eof t _ => ?_
  · refine .ite (fun found => ?_) fun _ => Extends.invalid _ _ s
    exact .advance_bind h.follows (by rw [found]; decide) fun t => Extends.pure _ t
  · rw [if_neg (by rw [eof]; decide)]
    exact .fail ⟨_, rfl⟩

theorem untilParenthesis_extends {α : Type} {p q : Parse α} (hp : Extends last rest p q) (place : Place) :
    Extends last rest (untilParenthesis parts p place) (untilParenthesis parts' q place) := by
  -- the list may be empty; either way the parenthesis is next
  have close (items : List α) :
      Extends last rest (Parse.expect (.sign .rightParen) place >>= fun _ => pure items)
        (Parse.expect (.sign .rightParen) place >>= fun _ => pure items) :=
    (Extends.expect h.follows _ (by decide)).bind fun _ => .pure _
  have items := (phrasesByComma_extends h.follows h.bound hp).bind close
  refine .peek_bind h.follows (fun t => .ite (close []) items) fun t u eof semicolon => ?_
  rw [if_neg (by rw [eof]; decide), if_neg (by rw [semicolon]; decide)]
  exact items

omit h in
/-- An identifier may stand next, and name what follows. -/
theorem nameIfThere_extends {β : Type} (f : rest.Follows last) {k l : Option String → Parse β}
    (hk : ∀ name, Extends last rest (k name) (l name)) :
    Extends last rest
      (Parse.peek >>= fun t =>
        if t.kind = .identifier then Parse.advance >>= fun _ => pure (some t.value) >>= k
        else pure none >>= k)
      (Parse.peek >>= fun t =>
        if t.kind = .identifier then Parse.advance >>= fun _ => pure (some t.value) >>= l
        else pure none >>= l) := by
  intro s
  refine .peek_bind f ?_ fun _ eof t semicolon => ?_
  · refine .ite (fun found => ?_) fun _ => ((Extends.pure none).bind hk) s
    exact .advance_bind f (by rw [found]; decide) fun t => ((Extends.pure _).bind hk) t
  · rw [if_neg (by rw [eof]; decide), if_neg (by rw [semicolon]; decide)]
    exact ((Extends.pure none).bind hk) s

theorem functionDeclaration_extends (visibility : Option Visibility) :
    Extends last rest (functionDeclaration parts visibility) (functionDeclaration parts' visibility) := by
  have f := h.follows
  refine .look fun first first' => (Extends.accept f (by decide) (by decide)).bind fun isAsync => ?_
  refine (Extends.expect f _ (by decide)).bind fun _ => nameIfThere_extends f fun name => ?_
  refine .ite (.invalid _ _) ((Extends.expect f _ (by decide)).bind fun _ => ?_)
  refine (untilParenthesis_extends h (parameter_extends h) _).bind fun parameters => ?_
  exact (block_extends h _).bind fun body => .pure _

omit h in
theorem visibilityMark_extends (f : rest.Follows last) : Extends last rest visibilityMark visibilityMark := by
  intro s
  refine .peek_bind f ?_ fun _ eof t semicolon => ?_
  · split
    case h_1 found | h_2 found =>
      exact .advance_bind f (by rw [found]; decide) fun t => Extends.pure _ t
    case h_3 => exact Extends.pure _ s
  · rw [eof, semicolon]
    exact Extends.pure _ s

theorem classMember_extends : ExtendsToEnd last rest (classMember parts) (classMember parts') := by
  have f := h.follows
  refine .look fun first first' => fun s => (visibilityMark_extends f s).bind_toEnd fun visibility s => ?_
  refine .peek_bind f ?_ fun _ eof t _ => ?_
  · split
    case h_1 found | h_2 found =>
      refine (variableDeclaration_extends h _ (by rw [found]; decide)).bind_toEnd fun property => ?_
      cases visibility with
      | none => exact fun t => (Extends.invalid _ _ t).toEnd
      | some visibility => exact .acceptSemicolon f _
    case h_3 | h_4 =>
      refine ((functionDeclaration_extends h _).bind (fun method => ?_) s).toEnd
      cases method.name with
      | none => exact .invalid _ _
      | some name =>
        refine .ite (.invalid _ _) ?_
        cases visibility with
        | none => exact .ite (.pure _) (.invalid _ _)
        | some visibility => exact .pure _
    case h_5 => exact (Extends.invalid _ _ s).toEnd
  · rw [eof]
    exact ExtendsAt.toEnd (.fail ⟨_, rfl⟩)

theorem classDeclaration_extends {s : TokenStream} (taken : s.peek.kind ≠ .eof) :
    ExtendsAt last rest (classDeclaration parts) (classDeclaration parts') s := by
  have f := h.follows
  -- with a superclass or without one, the body is read in the same way
  have body (name : String) (superclass : Option String) :
      Extends last rest
        (do
          let _ ← Parse.expect (.sign .leftBrace) .classBodyStart
          let members ← phrasesToEnd (classMember parts) endsBody parts.bound
          let _ ← Parse.expect (.sign .rightBrace) .classBodyEnd
          return (⟨name, superclass, members⟩ : ClassDeclaration))
        (do
          let _ ← Parse.expect (.sign .leftBrace) .classBodyStart
          let members ← phrasesToEnd (classMember parts') endsBody parts'.bound
          let _ ← Parse.expect (.sign .rightBrace) .classBodyEnd
          return (⟨name, superclass, members⟩ : ClassDeclaration)) :=
    (Extends.expect f _ (by decide)).bind fun _ =>
      phrasesToEnd_extends f h.bound (classMember_extends h) _ fun members =>
        (⟨name, superclass, members⟩ : ClassDeclaration)
  refine .advance_bind f taken fun t => ((Extends.expectName f _).bind fun name => ?_) t
  have accepted : Extends last rest (Parse.accept (.keyword .extendsWord))
      (Parse.accept (.keyword .extendsWord)) := .accept f (by decide) (by decide)
  have heritage := accepted.bind fun derived => Extends.ite (c := derived)
    (((Extends.expectName f (.after (.keyword .extendsWord))).map some).bind (body name))
    ((Extends.pure none).bind (body name))
  refine .peek_bind f (fun u => .ite (.invalid _ _) heritage) fun u v eof semicolon => ?_
  rw [if_neg (by rw [eof]; decide), if_neg (by rw [semicolon]; decide)]
  exact heritage

/-! ## Expressions -/

theorem arrayLiteral_extends (span : Span) :
    Extends last rest (arrayLiteral parts span) (arrayLiteral parts' span) :=
  phrasesInLiteral_extends h.follows h.bound h.expression (by decide) _ _ _

theorem property_extends : Extends last rest (property parts) (property parts') := by
  have f := h.follows
  intro s
  refine .peek_bind f ?_ fun _ eof t _ => ?_
  · refine ((Extends.expectName f _).bind fun key => ?_) s
    refine (Extends.accept f (by decide) (by decide)).bind fun valued => .ite ?_ (.pure _)
    exact (h.expression.map some).bind fun value => .pure _
  · exact .fail (((FailsAt.expect eof (by decide)).bind _).bind _)

theorem objectLiteral_extends (span : Span) :
    Extends last rest (objectLiteral parts span) (objectLiteral parts' span) :=
  phrasesInLiteral_extends h.follows h.bound (property_extends h) (by decide) _ _ _

theorem primary_extends : Extends last rest (primary parts) (primary parts') := by
  have f := h.follows
  intro s
  refine .peek_bind f ?_ fun _ eof t _ => ?_
  · split
    case h_1 found | h_3 found =>
      exact .advance_bind f (by rw [found]; decide) fun t => Extends.pure _ t
    case h_2 found =>
      cases Number.read? s.peek.value with
      | none => exact Extends.invalid _ _ s
      | some x => exact .advance_bind f (by rw [found]; decide) fun t => Extends.pure _ t
    case h_4 found =>
      refine .advance_bind f (by rw [found]; decide) fun t => (h.expression.bind fun e => ?_) t
      exact (Extends.expect f _ (by decide)).bind fun _ => .pure e
    case h_5 found =>
      exact .advance_bind f (by rw [found]; decide) fun t => arrayLiteral_extends h _ t
    case h_6 found =>
      exact .advance_bind f (by rw [found]; decide) fun t => objectLiteral_extends h _ t
    case h_7 | h_8 | h_9 => exact Extends.invalid _ _ s
  · rw [eof]
    exact .fail ⟨_, rfl⟩

theorem memberOf_extends (object : Expr) {s : TokenStream} (taken : s.peek.kind ≠ .eof) :
    ExtendsAt last rest (memberOf parts object) (memberOf parts' object) s := by
  have f := h.follows
  refine .advance_bind f taken fun t => .ite (fun _ => ?_) fun _ => ?_
  · refine (h.expression.bind fun property => ?_) t
    exact (Extends.expect f _ (by decide)).bind fun _ => .pure _
  · exact ((Extends.expect f _ (by decide)).bind fun name => .pure _) t

theorem arguments_extends (place : Place) :
    Extends last rest (arguments parts place) (arguments parts' place) :=
  (Extends.expect h.follows _ (by decide)).bind fun _ => untilParenthesis_extends h h.expression _

theorem callsAfter_extends {n N : Nat} (le : n ≤ N) (e : Expr) :
    Extends last rest (callsAfter parts n e) (callsAfter parts' N e) := by
  have f := h.follows
  induction n generalizing N e with
  | zero => exact .tooDeep
  | succ n ih =>
    obtain ⟨N, rfl⟩ := Nat.exists_eq_succ_of_ne_zero (Nat.ne_zero_of_lt le)
    have more := ih (Nat.le_of_succ_le_succ le)
    intro s
    refine .peek_bind f ?_ fun _ eof t semicolon => ?_
    · split
      case h_1 => exact (arguments_extends h _).bind (fun args => more _) s
      case h_2 found | h_3 found => exact (memberOf_extends h e (by rw [found]; decide)).bind more
      case h_4 => exact Extends.pure e s
    · rw [eof, semicolon]
      exact Extends.pure e s

theorem membersAfter_extends {n N : Nat} (le : n ≤ N) (e : Expr) :
    Extends last rest (membersAfter parts n e) (membersAfter parts' N e) := by
  have f := h.follows
  induction n generalizing N e with
  | zero => exact .tooDeep
  | succ n ih =>
    obtain ⟨N, rfl⟩ := Nat.exists_eq_succ_of_ne_zero (Nat.ne_zero_of_lt le)
    have more := ih (Nat.le_of_succ_le_succ le)
    intro s
    refine .peek_bind f ?_ fun _ eof t semicolon => ?_
    · split
      case h_1 found | h_2 found => exact (memberOf_extends h e (by rw [found]; decide)).bind more
      case h_3 => exact Extends.pure e s
    · rw [eof, semicolon]
      exact Extends.pure e s

theorem callChain_extends : Extends last rest (callChain parts) (callChain parts') :=
  (primary_extends h).bind fun e => callsAfter_extends h h.bound e

theorem product_extends : Extends last rest (product parts) (product parts') :=
  (callChain_extends h).bind fun e =>
    operandsAfter_extends h.follows h.bound rfl rfl (callChain_extends h) e

theorem sum_extends : Extends last rest (sum parts) (sum parts') :=
  (product_extends h).bind fun e => operandsAfter_extends h.follows h.bound rfl rfl (product_extends h) e

theorem comparison_extends : Extends last rest (comparison parts) (comparison parts') :=
  (sum_extends h).bind fun e => operandsAfter_extends h.follows h.bound rfl rfl (sum_extends h) e

theorem instantiation_extends : Extends last rest (instantiation parts) (instantiation parts') := by
  have f := h.follows
  intro s
  refine .peek_bind f (.ite (fun found => ?_) fun _ => comparison_extends h s) fun _ eof t semicolon => ?_
  · refine .advance_bind f (by rw [found]; decide) fun t => ?_
    refine ((primary_extends h).bind fun first => ?_) t
    refine (membersAfter_extends h h.bound first).bind fun target => ?_
    exact (arguments_extends h _).bind fun args => .pure _
  · rw [if_neg (by rw [eof]; decide), if_neg (by rw [semicolon]; decide)]
    exact comparison_extends h s

theorem assignmentTo_extends (target : Expr) :
    Extends last rest (assignmentTo parts target) (assignmentTo parts' target) := by
  have f := h.follows
  intro s
  refine .peek_bind f ?_ fun _ eof t semicolon => ?_
  · cases found : update? s.peek.kind with
    | none => exact Extends.pure target s
    | some update =>
      refine .ite (fun _ => ?_) fun _ => Extends.invalid _ _ s
      refine .advance_bind f (fun eof => ?_) fun t => ?_
      · rw [eof] at found
        cases found
      · cases update with
        | replace => exact h.expression.bind (fun value => .pure _) t
        | step operator => exact Extends.pure _ t
        | combine operator => exact (instantiation_extends h).bind (fun right => .pure _) t
  · rw [eof, semicolon]
    exact Extends.pure target s

omit h in
/-- No expression begins at the end. -/
theorem expression_atEnd {s : TokenStream} (eof : s.peek.kind = .eof) : (expression parts).FailsAt s := by
  have primary : (primary parts).FailsAt s := .peek_bind (by rw [eof]; exact ⟨_, rfl⟩)
  have comparison : (comparison parts).FailsAt s := (((primary.bind _).bind _).bind _).bind _
  have instantiation : (instantiation parts).FailsAt s :=
    .peek_bind (by rw [if_neg (by rw [eof]; decide)]; exact comparison)
  exact .peek_bind (by rw [eof]; exact instantiation.bind _)

theorem expression_extends : Extends last rest (expression parts) (expression parts') := by
  have f := h.follows
  have assignment := (instantiation_extends h).bind fun target => assignmentTo_extends h target
  intro s
  refine .peek_bind f ?_ fun _ eof t semicolon => ?_
  · split
    case h_1 | h_2 => exact (functionDeclaration_extends h none).bind (fun d => .pure _) s
    case h_3 => exact assignment s
  · rw [eof, semicolon]
    exact assignment s

/-! ## Statements -/

theorem returnedValue_extends (span : Span) :
    Extends last rest (returnedValue parts span) (returnedValue parts' span) := by
  intro s
  refine .peek_bind h.follows ?_ fun _ eof t semicolon => ?_
  · split
    case h_1 | h_2 | h_3 => exact Extends.pure _ s
    case h_4 => exact h.expression s
  · rw [eof, semicolon]
    exact Extends.pure _ s

theorem conditional_extends (word : Keyword) :
    Extends last rest (conditional parts word) (conditional parts' word) := by
  refine (Extends.expect h.follows _ (by decide)).bind fun _ => h.expression.bind fun condition => ?_
  refine (Extends.expect h.follows _ (by decide)).bind fun _ => ?_
  exact (block_extends h _).bind fun body => .pure _

theorem loopCounter_extends : Extends last rest (loopCounter parts) (loopCounter parts') := by
  intro s
  refine .peek_bind h.follows ?_ fun _ eof t _ => ?_
  · split
    case h_1 found | h_2 found =>
      refine (variableDeclaration_extends h none (by rw [found]; decide)).bind fun counter => ?_
      exact Extends.ite (.pure _) (.invalid _ _)
    case h_3 => exact Extends.unexpected _ _ s
  · rw [eof]
    exact .fail ⟨_, rfl⟩

theorem loopIterator_extends (name : String) :
    Extends last rest (loopIterator parts name) (loopIterator parts' name) := by
  refine (Extends.expect h.follows _ (by decide)).bind fun t => ?_
  refine (assignmentTo_extends h (.identifier t.span t.value)).bind fun iterator => ?_
  exact .ite (.pure _) (.invalid _ _)

theorem forLoop_extends : Extends last rest (forLoop parts) (forLoop parts') := by
  have f := h.follows
  refine (Extends.expect f _ (by decide)).bind fun _ => (loopCounter_extends h).bind fun counter => ?_
  refine (Extends.expect f _ (by decide)).bind fun _ => h.expression.bind fun condition => ?_
  refine (Extends.expect f _ (by decide)).bind fun _ => (loopIterator_extends h _).bind fun iterator => ?_
  refine (Extends.expect f _ (by decide)).bind fun _ => ?_
  exact (block_extends h _).bind fun body => .pure _

theorem bareStatement_extends : Extends last rest (bareStatement parts) (bareStatement parts') := by
  have f := h.follows
  intro s
  refine .peek_bind f ?_ fun _ eof t semicolon => ?_
  · split
    case h_1 found | h_2 found => exact (variableDeclaration_extends h none (by rw [found]; decide)).map _
    case h_3 | h_4 => exact (functionDeclaration_extends h none).map _ s
    case h_5 found => exact (classDeclaration_extends h (by rw [found]; decide)).map _
    case h_6 | h_7 => exact Extends.invalid _ _ s
    case h_8 found =>
      exact .advance_bind f (by rw [found]; decide) fun t => (returnedValue_extends h _).map _ t
    case h_9 found => exact .advance_bind f (by rw [found]; decide) fun t => Extends.pure _ t
    case h_10 found | h_11 found =>
      refine .advance_bind f (by rw [found]; decide) fun t => ?_
      exact (conditional_extends h _).bind (fun parts => .pure _) t
    case h_12 found =>
      exact .advance_bind f (by rw [found]; decide) fun t => (forLoop_extends h).map _ t
    case h_13 => exact (expression_extends h).map _ s
  · rw [eof]
    exact .fail ((expression_atEnd eof).map _)

theorem statement_extends : ExtendsToEnd last rest (statement parts) (statement parts') := fun s =>
  (bareStatement_extends h s).bind_toEnd fun _ => .acceptSemicolon h.follows _

end

end Grammar

/-! ## Programs -/

section

variable {last : Token} {rest : TokenStream} (f : rest.Follows last)

include f

/-- The readers of bounded nesting, and those of a larger bound on the longer stream. -/
theorem readers_extend {n N : Nat} (le : n ≤ N) :
    Parse.Extends last rest (readExpression n) (readExpression N) ∧
      Parse.ExtendsToEnd last rest (readStatement n) (readStatement N) := by
  induction n generalizing N with
  | zero => exact ⟨.tooDeep, fun s => Parse.ExtendsAt.toEnd (.fail ⟨_, rfl⟩)⟩
  | succ n ih =>
    obtain ⟨N, rfl⟩ := Nat.exists_eq_succ_of_ne_zero (Nat.ne_zero_of_lt le)
    obtain ⟨expression, statement⟩ := ih (Nat.le_of_succ_le_succ le)
    have parts : Phrases.Extends last rest ⟨n + 1, readExpression n, readStatement n⟩
        ⟨N + 1, readExpression N, readStatement N⟩ := ⟨f, le, expression, statement⟩
    exact ⟨Grammar.expression_extends parts, Grammar.statement_extends parts⟩

end

namespace Grammar

variable {α : Type} {p q : Parse α} {last : Token} {rest u : TokenStream}

theorem phrasesToEnd_succ (p : Parse α) (ends : Kind → Bool) (n : Nat) (s : TokenStream) :
    phrasesToEnd p ends (n + 1) s =
      (if ends s.dropSemicolons.peek.kind then pure []
       else p >>= fun first => phrasesToEnd p ends n >>= fun tail => pure (first :: tail))
        s.dropSemicolons := by
  have bound := phrasesToEnd_bind p ends n pure s
  rwa [bind_pure] at bound

/-- A list is read alike from streams that differ in the semicolons at their front. -/
theorem phrasesToEnd_congr (ends : Kind → Bool) (n : Nat) {s t : TokenStream}
    (h : s.dropSemicolons = t.dropSemicolons) :
    phrasesToEnd p ends (n + 1) s = phrasesToEnd p ends (n + 1) t := by
  rw [phrasesToEnd_succ, phrasesToEnd_succ, h]

/-- From the end an empty list is read. -/
theorem phrasesToEnd_none (p : Parse α) (n : Nat) {eof : Token} (ended : eof.kind = .eof) :
    phrasesToEnd p (· = .eof) (n + 1) ⟨[], eof⟩ = .ok ([], ⟨[], eof⟩) := by
  rw [phrasesToEnd_succ]
  exact congrFun (if_pos (decide_eq_true ended)) _

/-- Where a list takes the whole of the first stream, the list on both streams is that list and then what
is read of the second, under a bound that is less by no more than the bound on the first. -/
theorem phrasesToEnd_append (f : rest.Follows last) (h : Parse.ExtendsToEnd last rest p q)
    {n N : Nat} (le : n ≤ N) {s : TokenStream} (hs : s.eof = last) {xs : List α}
    (read : phrasesToEnd p (· = .eof) n s = .ok (xs, ⟨[], last⟩)) :
    ∃ M, N < M + n ∧ phrasesToEnd q (· = .eof) N (s.append rest) =
      Prod.map (xs ++ ·) id <$> phrasesToEnd q (· = .eof) M rest := by
  induction n generalizing s xs N with
  | zero => cases read
  | succ n ih =>
    obtain ⟨N, rfl⟩ := Nat.exists_eq_succ_of_ne_zero (n := N) (by omega)
    rw [phrasesToEnd_succ] at read
    split at read
    · obtain ⟨rfl, none⟩ := Prod.mk.inj (Except.ok.inj read)
      refine ⟨N + 1, by omega, ?_⟩
      rw [phrasesToEnd_congr _ _ (TokenStream.append_dropSemicolons_nil (congrArg TokenStream.tokens none))]
      exact (id_map _).symm
    · next goesOn =>
      obtain ⟨first, v, begun, read⟩ := Parse.bind_eq_ok.1 read
      obtain ⟨tail, w, more, read⟩ := Parse.bind_eq_ok.1 read
      cases read
      have some : s.dropSemicolons.tokens ≠ [] :=
        TokenStream.ne_nil_of_peek (hs ▸ f.ended) (by simpa using goesOn)
      rw [phrasesToEnd_succ, TokenStream.append_dropSemicolons some, TokenStream.append_peek rest some,
        if_neg goesOn]
      -- after the first phrase the list goes on to what is read of the second stream
      have goOn {u : TokenStream} {M : Nat} (found : q (s.dropSemicolons.append rest) = .ok (first, u))
          (later : phrasesToEnd q (· = .eof) N u =
            Prod.map (tail ++ ·) id <$> phrasesToEnd q (· = .eof) M rest) :
          (q >>= fun first => phrasesToEnd q (· = .eof) N >>= fun tail => pure (first :: tail))
              (s.dropSemicolons.append rest) =
            Prod.map (first :: tail ++ ·) id <$> phrasesToEnd q (· = .eof) M rest := by
        rw [Parse.bind_run, found]
        dsimp only
        rw [Parse.bind_run, later]
        cases phrasesToEnd q (· = .eof) M rest <;> rfl
      obtain ⟨hv, found | ⟨none, found⟩⟩ := h s.dropSemicolons hs first v begun
      · obtain ⟨M, far, later⟩ := ih (Nat.le_of_succ_le_succ le) hv more
        exact ⟨M, by omega, goOn found later⟩
      · -- the first stream is used up, and the second may have given its semicolon
        obtain rfl : v = ⟨[], last⟩ := by rw [← none, ← hv]
        obtain ⟨m, rfl⟩ := Nat.exists_eq_succ_of_ne_zero (n := n) (by rintro rfl; cases more)
        rw [phrasesToEnd_none _ _ f.ended] at more
        cases more
        obtain ⟨M, rfl⟩ := Nat.exists_eq_succ_of_ne_zero (n := N) (by omega)
        refine ⟨M + 1, by omega, goOn found ?_⟩
        rw [phrasesToEnd_congr _ _ f.next_dropSemicolons]
        exact (id_map _).symm

end Grammar

namespace Program

/-- After the tokens of a program and semicolons, other tokens spell what they spell alone, behind the
statements of that program, or fail as they fail alone. -/
theorem ofTokens?_append {as semicolons bs : List Token} {eof eof' : Token} {p : Program}
    (inner : ∀ t ∈ as, t.kind ≠ .eof) (ended : eof.kind = .eof) (some : semicolons ≠ [])
    (separate : ∀ t ∈ semicolons, t.kind = .sign .semicolon) (inner' : ∀ t ∈ bs, t.kind ≠ .eof)
    (ended' : eof'.kind = .eof) (first : ofTokens? (as ++ [eof]) = .ok p) :
    ofTokens? (as ++ semicolons ++ (bs ++ [eof'])) = (p ++ ·) <$> ofTokens? (bs ++ [eof']) := by
  have read := reads_all first
  rw [TokenStream.ofList_ends inner ended] at read
  have follows : TokenStream.Follows eof ⟨semicolons ++ bs, eof'⟩ := by
    obtain ⟨t, semicolons, rfl⟩ := List.exists_cons_of_ne_nil some
    exact ⟨ended, .inr (separate t List.mem_cons_self)⟩
  have stream : TokenStream.ofList (as ++ semicolons ++ (bs ++ [eof'])) =
      TokenStream.append ⟨as, eof⟩ ⟨semicolons ++ bs, eof'⟩ := by
    rw [← List.append_assoc, TokenStream.ofList_ends _ ended', TokenStream.append, List.append_assoc]
    intro t ht
    rcases List.mem_append.1 ht with front | back
    · rcases List.mem_append.1 front with front | semicolon
      · exact inner t front
      · simp [separate t semicolon]
    · exact inner' t back
  -- the second program is read alike with the semicolons before it and under its own bound
  have alone {M N : Nat} (le : bs.length < M) (le' : bs.length < N) :
      Grammar.phrasesToEnd (readStatement N) (· = .eof) M ⟨semicolons ++ bs, eof'⟩ =
        Grammar.phrasesToEnd (readStatement (bs.length + 1)) (· = .eof) (bs.length + 1) ⟨bs, eof'⟩ := by
    have dropped : TokenStream.dropSemicolons ⟨semicolons ++ bs, eof'⟩ =
        TokenStream.dropSemicolons ⟨bs, eof'⟩ := by
      have all : ∀ t ∈ semicolons, decide (t.kind = .sign .semicolon) = true :=
        fun t ht => decide_eq_true (separate t ht)
      rw [TokenStream.dropSemicolons, List.dropWhile_append_of_pos all, TokenStream.dropSemicolons]
    obtain ⟨M, rfl⟩ := Nat.exists_eq_succ_of_ne_zero (Nat.ne_zero_of_lt le)
    rw [Grammar.phrasesToEnd_congr _ _ dropped]
    exact (Grammar.phrasesToEnd_settles (readers_settle le').2 _ (Nat.le_refl _) le _
      ⟨ended', Nat.lt_succ_self _⟩).same
  unfold ofTokens?
  rw [stream, TokenStream.ofList_ends inner' ended']
  dsimp only at read ⊢
  have length : (TokenStream.append ⟨as, eof⟩ ⟨semicolons ++ bs, eof'⟩).tokens.length =
      as.length + (semicolons.length + bs.length) := by
    rw [TokenStream.append, List.length_append, List.length_append]
  rw [length]
  have le : as.length + 1 ≤ as.length + (semicolons.length + bs.length) + 1 := by omega
  obtain ⟨M, far, both⟩ :=
    Grammar.phrasesToEnd_append follows (readers_extend follows le).2 le rfl read
  rw [both, alone (by omega) (by omega), Functor.map_map, Functor.map_map]
  rfl

end Program

end ScriptLang
