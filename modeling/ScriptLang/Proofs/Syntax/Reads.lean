/-
# ScriptLang.Proofs.Syntax.Reads — what a reader does with tokens in front of a stream.

A reader takes some tokens for a phrase if it reads that phrase from every stream that begins with them,
and leaves the rest.  It may have to look at the token after them, so the kind of that token is part of
the statement.  After an expression it depends on the level that is read: no rule of that level or of a
tighter one may go on there.

Lists of phrases are read by induction on the list.  A chain of operands is read by a loop and grouped to
the left: after the tokens of a chain the loop stands before the tokens that follow, with the whole chain
in its hand and enough of its own bound left.
-/
import ScriptLang.Proofs.Syntax.Spelling

namespace ScriptLang

/-! ## Streams with tokens in front -/

namespace TokenStream

/-- A stream with more tokens in front. -/
def prepend (s : TokenStream) (w : List Token) : TokenStream := { s with tokens := w ++ s.tokens }

@[simp] theorem prepend_nil (s : TokenStream) : s.prepend [] = s := rfl

@[simp] theorem prepend_append (s : TokenStream) (w v : List Token) :
    s.prepend (w ++ v) = (s.prepend v).prepend w := by
  simp only [prepend, List.append_assoc]

@[simp] theorem peek_prepend (s : TokenStream) (t : Token) (w : List Token) :
    (s.prepend (t :: w)).peek = t := rfl

@[simp] theorem next_prepend (s : TokenStream) (t : Token) (w : List Token) :
    (s.prepend (t :: w)).next = s.prepend w := rfl

/-- Semicolons are dropped up to the first other token. -/
theorem dropSemicolons_of_ne {s : TokenStream} (h : s.peek.kind ≠ .sign .semicolon) :
    s.dropSemicolons = s := by
  obtain ⟨_ | ⟨t, rest⟩, eof⟩ := s
  · rfl
  · have ht : decide (t.kind = .sign .semicolon) = false := decide_eq_false h
    simp only [dropSemicolons, List.dropWhile_cons, ht]
    rfl

end TokenStream

@[simp] theorem Token.ofSign_kind (s : Sign) : (Token.ofSign s).kind = .sign s := rfl

/-! ## Readers on streams with tokens in front -/

namespace Parse

variable {α β : Type}

@[simp] theorem pure_run (a : α) (s : TokenStream) : (pure a : Parse α) s = .ok (a, s) := rfl

@[simp] theorem peek_bind (c : Token → Parse β) (s : TokenStream) :
    (Parse.peek >>= c) s = c s.peek s := rfl

@[simp] theorem advance_bind (c : Token → Parse β) (s : TokenStream) :
    (Parse.advance >>= c) s = c s.peek s.next := rfl

theorem skip_bind {s : TokenStream} (h : s.peek.kind ≠ .sign .semicolon) (c : Unit → Parse β) :
    (Parse.skipSemicolons >>= c) s = c () s := by
  show c () s.dropSemicolons = c () s
  rw [TokenStream.dropSemicolons_of_ne h]

theorem bind_of_ok {p : Parse α} {s t : TokenStream} {a : α} (h : p s = .ok (a, t))
    (c : α → Parse β) : (p >>= c) s = c a t := by
  rw [bind_run, h]

/-- Three readers one after the other, with the first two taken together. -/
theorem bind_bind_run {γ : Type} (p : Parse α) (q : α → Parse β) (c : β → Parse γ) (s : TokenStream) :
    (p >>= fun a => q a >>= c) s = ((p >>= q) >>= c) s := by
  rw [bind_run, bind_run, bind_run]
  rcases p s with e | ⟨a, t⟩
  · rfl
  · exact bind_run _ _ _

theorem map_of_ok {p : Parse α} {s t : TokenStream} {a : α} (h : p s = .ok (a, t)) (c : α → β) :
    (c <$> p) s = .ok (c a, t) := by
  rw [map_run, h]

theorem map_eq_ok {c : α → β} {p : Parse α} {s t : TokenStream} {b : β} :
    (c <$> p) s = .ok (b, t) ↔ ∃ a, p s = .ok (a, t) ∧ c a = b := by
  rw [map_run]
  rcases p s with e | ⟨a, u⟩
  · exact ⟨nofun, fun ⟨_, h, _⟩ => nomatch h⟩
  · refine ⟨fun h => ?_, fun ⟨_, h, same⟩ => ?_⟩
    · cases h
      exact ⟨a, rfl, rfl⟩
    · cases h
      exact congrArg (fun b => Except.ok (b, _)) same

theorem expect_bind_eq_ok {kind : Kind} {place : Place} {c : Token → Parse β} {s u : TokenStream} {b : β} :
    (expect kind place >>= c) s = .ok (b, u) ↔ s.peek.kind = kind ∧ c s.peek s.next = .ok (b, u) := by
  rw [bind_run, expect]
  by_cases found : s.peek.kind = kind
  · rw [if_pos found]
    exact (and_iff_right found).symm
  · rw [if_neg found]
    refine iff_of_false (fun read => ?_) fun h => found h.1
    cases read

theorem accept_bind_of_ne {s : TokenStream} {kind : Kind} (h : s.peek.kind ≠ kind)
    (c : Bool → Parse β) : (Parse.accept kind >>= c) s = c false s :=
  bind_of_ok (if_neg h) c

section

variable (place : Place) (s : TokenStream) (w : List Token)

@[simp] theorem accept_sign (g : Sign) (c : Bool → Parse β) :
    (Parse.accept (.sign g) >>= c) (s.prepend (.ofSign g :: w)) = c true (s.prepend w) :=
  bind_of_ok (if_pos rfl) c

@[simp] theorem accept_keyword (word : Keyword) (c : Bool → Parse β) :
    (Parse.accept (.keyword word) >>= c) (s.prepend (.ofKeyword word :: w)) = c true (s.prepend w) :=
  bind_of_ok (if_pos rfl) c

@[simp] theorem expect_sign (g : Sign) (c : Token → Parse β) :
    (Parse.expect (.sign g) place >>= c) (s.prepend (.ofSign g :: w)) = c (.ofSign g) (s.prepend w) :=
  bind_of_ok (if_pos rfl) c

@[simp] theorem expect_keyword (word : Keyword) (c : Token → Parse β) :
    (Parse.expect (.keyword word) place >>= c) (s.prepend (.ofKeyword word :: w)) =
      c (.ofKeyword word) (s.prepend w) :=
  bind_of_ok (if_pos rfl) c

@[simp] theorem expect_name (name : String) (c : Token → Parse β) :
    (Parse.expect .identifier place >>= c) (s.prepend (.ofName name :: w)) =
      c (.ofName name) (s.prepend w) :=
  bind_of_ok (if_pos rfl) c

@[simp] theorem expectName_bind (name : String) (c : String → Parse β) :
    (Parse.expectName place >>= c) (s.prepend (.ofName name :: w)) = c name (s.prepend w) :=
  bind_of_ok (expect_name place s w name _) c

end

/-- A reader takes the tokens `w` for `a`, whatever stands after them that begins with a kind of `next`. -/
def Reads (p : Parse α) (w : List Token) (a : α) (next : Kind → Prop) : Prop :=
  ∀ s, next s.peek.kind → p (s.prepend w) = .ok (a, s)

/-- No condition on the kind of a token. -/
def anyKind : Kind → Prop := fun _ => True

theorem Reads.bind {p : Parse α} {w : List Token} {a : α} {next : Kind → Prop} (h : Reads p w a next)
    {s : TokenStream} (hs : next s.peek.kind) (c : α → Parse β) :
    (p >>= c) (s.prepend w) = c a s :=
  bind_of_ok (h s hs) c

theorem Reads.mono {p : Parse α} {w : List Token} {a : α} {next next' : Kind → Prop}
    (h : Reads p w a next) (le : ∀ kind, next' kind → next kind) : Reads p w a next' :=
  fun s hs => h s (le _ hs)

end Parse

/-! ## Lists of phrases -/

theorem length_le_length_flatMap {α : Type} {spell : α → List Token} {xs : List α}
    (h : ∀ x ∈ xs, spell x ≠ []) : xs.length ≤ (xs.flatMap spell).length := by
  induction xs with
  | nil => exact Nat.le_refl 0
  | cons x rest ih =>
    rw [List.forall_mem_cons] at h
    have first := List.length_pos_iff.mpr h.1
    have others := ih h.2
    rw [List.flatMap_cons, List.length_append, List.length_cons]
    omega

theorem spelling_le_flatMap {α : Type} (spell : α → List Token) {xs : List α} {x : α} (h : x ∈ xs) :
    (spell x).length ≤ (xs.flatMap spell).length :=
  (List.sublist_flatten_of_mem (List.mem_map_of_mem h)).length_le

theorem length_le_length_separated {α : Type} {spell : α → List Token} {xs : List α}
    (h : ∀ x ∈ xs, spell x ≠ []) : xs.length ≤ (separated (xs.map spell)).length := by
  induction xs with
  | nil => exact Nat.le_refl 0
  | cons x rest ih =>
    rw [List.forall_mem_cons] at h
    have first := List.length_pos_iff.mpr h.1
    have others := ih h.2
    cases rest with
    | nil => exact first
    | cons y rest =>
      simp only [List.map_cons, separated, List.length_append, List.length_cons] at others ⊢
      omega

theorem spelling_le_separated {α : Type} {spell : α → List Token} {xs : List α} {x : α}
    (h : x ∈ xs) : (spell x).length ≤ (separated (xs.map spell)).length := by
  induction xs with
  | nil => cases h
  | cons y rest ih =>
    cases rest with
    | nil =>
      obtain rfl := List.mem_singleton.mp h
      exact Nat.le_refl _
    | cons z rest =>
      simp only [List.map_cons, separated, List.length_append, List.length_cons] at ih ⊢
      rcases List.mem_cons.mp h with rfl | h
      · omega
      · have := ih h
        omega

namespace Grammar

open Parse (Reads anyKind)

variable {α β : Type} {p : Parse α} {spell : β → List Token} {value : β → α}

/-- Tokens that a statement or a member can begin with, as far as the list around it looks at them. -/
def BeginsItem (w : List Token) : Prop :=
  ∃ t rest, w = t :: rest ∧ t.kind ≠ .sign .semicolon ∧ endsBody t.kind = false

theorem phrasesToEnd_reads (ends : Kind → Bool) (hends : ∀ kind, ends kind = true → endsBody kind = true)
    (xs : List β) (n : Nat) (hn : xs.length < n)
    (each : ∀ x ∈ xs, BeginsItem (spell x) ∧ Reads p (spell x) (value x) anyKind) :
    Reads (phrasesToEnd p ends n) (xs.flatMap spell) (xs.map value) (ends · = true) := by
  induction xs generalizing n with
  | nil =>
    intro s hs
    cases n with
    | zero => cases hn
    | succ n =>
      -- what ends the list is no semicolon, so it is not skipped
      have notSkipped : s.peek.kind ≠ .sign .semicolon := by
        intro h
        have ended := hends _ hs
        rw [h] at ended
        cases ended
      rw [List.flatMap_nil, TokenStream.prepend_nil, phrasesToEnd, Parse.skip_bind notSkipped,
        Parse.peek_bind, if_pos hs]
      rfl
  | cons x rest ih =>
    intro s hs
    cases n with
    | zero => cases hn
    | succ n =>
      rw [List.forall_mem_cons] at each
      obtain ⟨⟨t, w, ht, notSkipped, goesOn⟩, reads⟩ := each.1
      have notEnd : ¬ends t.kind = true := by
        intro h
        rw [hends _ h] at goesOn
        cases goesOn
      have more := ih n (Nat.lt_of_succ_lt_succ hn) each.2
      have first : ((s.prepend (rest.flatMap spell)).prepend (spell x)).peek = t := by rw [ht]; rfl
      rw [List.flatMap_cons, TokenStream.prepend_append, phrasesToEnd,
        Parse.skip_bind (by rw [first]; exact notSkipped), Parse.peek_bind, first, if_neg notEnd,
        reads.bind trivial, more.bind hs]
      rfl

theorem phrasesByComma_reads (closing : Kind) (hclosing : closing ≠ .sign .comma) (x : β) (xs : List β)
    (n : Nat) (hn : xs.length < n)
    (each : ∀ y ∈ x :: xs, Reads p (spell y) (value y) fun k => k = .sign .comma ∨ k = closing) :
    Reads (phrasesByComma p n) (separated ((x :: xs).map spell)) ((x :: xs).map value) (· = closing) := by
  induction xs generalizing x n with
  | nil =>
    intro s hs
    cases n with
    | zero => cases hn
    | succ n =>
      have reads := each x (List.mem_singleton_self x)
      have noComma : s.peek.kind ≠ .sign .comma := by rw [hs]; exact hclosing
      rw [phrasesByComma]
      show (p >>= _) (s.prepend (spell x)) = _
      rw [reads.bind (.inr hs), Parse.accept_bind_of_ne noComma]
      rfl
  | cons y rest ih =>
    intro s hs
    cases n with
    | zero => cases hn
    | succ n =>
      rw [List.forall_mem_cons] at each
      have more := ih y n (Nat.lt_of_succ_lt_succ hn) each.2
      rw [phrasesByComma]
      show (p >>= _) (s.prepend (spell x ++ .ofSign .comma :: separated ((y :: rest).map spell))) = _
      rw [TokenStream.prepend_append, each.1.bind (.inl rfl), Parse.accept_sign, if_pos rfl,
        more.bind hs]
      rfl

theorem untilParenthesis_reads (parts : Phrases) (place : Place) (xs : List β)
    (hn : xs.length ≤ parts.bound)
    (each : ∀ x ∈ xs, Begins 0 (spell x) ∧ Reads p (spell x) (value x) fun k =>
      k = .sign .comma ∨ k = .sign .rightParen) :
    Reads (untilParenthesis parts p place) (separated (xs.map spell) ++ [.ofSign .rightParen])
      (xs.map value) anyKind := by
  intro s _
  unfold untilParenthesis
  cases xs with
  | nil => rfl
  | cons x rest =>
    have reads := phrasesByComma_reads (.sign .rightParen) (fun h => nomatch h) x rest
      parts.bound hn fun y hy => (each y hy).2
    obtain ⟨t, v, ht, hk, -⟩ := (each x List.mem_cons_self).1.separated (rest.map spell)
    have goesOn : t.kind ≠ .sign .rightParen := by
      intro h
      rw [h] at hk
      cases hk
    have first : ((s.prepend [.ofSign .rightParen]).prepend (separated ((x :: rest).map spell))).peek =
        t := by
      rw [List.map_cons, ht]
      rfl
    rw [TokenStream.prepend_append, Parse.peek_bind, first]
    simp only [if_neg goesOn]
    rw [reads.bind rfl, Parse.expect_sign]
    rfl

theorem phrasesInLiteral_reads (closing : Kind) (between : Place) (hclosing : closing ≠ .sign .comma)
    (hbegin : closing.begins 0 = false) (xs : List β) (n : Nat) (hn : xs.length < n)
    (each : ∀ x ∈ xs, Begins 0 (spell x) ∧ Reads p (spell x) (value x) fun k =>
      k = .sign .comma ∨ k = closing) :
    Reads (phrasesInLiteral p closing between n) (separated (xs.map spell)) (xs.map value)
      (· = closing) := by
  induction xs generalizing n with
  | nil =>
    intro s hs
    cases n with
    | zero => cases hn
    | succ n =>
      rw [phrasesInLiteral]
      show (Parse.peek >>= _) s = _
      rw [Parse.peek_bind, if_pos (.inl hs)]
      rfl
  | cons x rest ih =>
    intro s hs
    cases n with
    | zero => cases hn
    | succ n =>
      rw [List.forall_mem_cons] at each
      obtain ⟨⟨t, w, ht, hk, -⟩, reads⟩ := each.1
      have more := ih n (Nat.lt_of_succ_lt_succ hn) each.2
      have goesOn : ¬(t.kind = closing ∨ t.kind = .eof) := by
        rintro (h | h) <;> rw [h] at hk
        · rw [hbegin] at hk
          cases hk
        · cases hk
      rw [phrasesInLiteral]
      -- after the last phrase the literal closes, after any other a comma is due
      cases rest with
      | nil =>
        show (Parse.peek >>= _) (s.prepend (spell x)) = _
        have first : (s.prepend (spell x)).peek = t := by rw [ht]; rfl
        have noComma : ¬s.peek.kind ≠ closing := fun h => h hs
        rw [Parse.peek_bind, first, if_neg goesOn, reads.bind (.inr hs), Parse.peek_bind]
        have done : phrasesInLiteral p closing between n s = .ok ([], s) := more s hs
        simp only [if_neg noComma]
        rw [Parse.bind_of_ok done]
        rfl
      | cons y rest =>
        show (Parse.peek >>= _) (s.prepend (spell x ++ .ofSign .comma :: separated ((y :: rest).map spell)))
          = _
        rw [TokenStream.prepend_append, Parse.peek_bind]
        have first : ((s.prepend (.ofSign .comma :: separated ((y :: rest).map spell))).prepend
            (spell x)).peek = t := by rw [ht]; rfl
        have comma : (Token.ofSign .comma).kind ≠ closing := fun h => hclosing h.symm
        rw [first, if_neg goesOn, reads.bind (.inl rfl), Parse.peek_bind, TokenStream.peek_prepend]
        simp only [if_pos comma]
        rw [Parse.expect_sign, more.bind hs]
        rfl

end Grammar

/-! ## What may stand after an expression -/

/-- Kinds at which no rule of level `level` or of a tighter one goes on. -/
structure EndsAt (level : Nat) (kind : Kind) : Prop where
  update : level = 0 → Grammar.update? kind = none
  comparison : level ≤ 2 → Grammar.comparisonOperator? kind = none
  sum : level ≤ 3 → Grammar.additiveOperator? kind = none
  product : level ≤ 4 → Grammar.multiplicativeOperator? kind = none
  chain : level ≤ 5 → kind ≠ .sign .leftParen ∧ kind ≠ .sign .dot ∧ kind ≠ .sign .leftBracket

namespace EndsAt

theorem mono {level level' : Nat} {kind : Kind} (le : level ≤ level') (h : EndsAt level kind) :
    EndsAt level' kind where
  update h' := h.update (by omega)
  comparison h' := h.comparison (by omega)
  sum h' := h.sum (by omega)
  product h' := h.product (by omega)
  chain h' := h.chain (by omega)

theorem primary (kind : Kind) : EndsAt 6 kind where
  update h := by omega
  comparison h := by omega
  sum h := by omega
  product h := by omega
  chain h := by omega

/-- Signs that stand after a whole expression. -/
def closers : List Sign := [.comma, .semicolon, .rightParen, .rightBracket, .rightBrace]

theorem closer {g : Sign} (h : g ∈ closers) (level : Nat) : EndsAt level (.sign g) := by
  simp only [closers, List.mem_cons, List.not_mem_nil, or_false] at h
  rcases h with rfl | rfl | rfl | rfl | rfl <;>
    exact ⟨fun _ => rfl, fun _ => rfl, fun _ => rfl, fun _ => rfl, fun _ => by decide⟩

theorem eof (level : Nat) : EndsAt level .eof :=
  ⟨fun _ => rfl, fun _ => rfl, fun _ => rfl, fun _ => rfl, fun _ => by decide⟩

theorem assign : EndsAt 1 (.sign .assign) := by
  constructor <;> decide

/-- An operand ends before an operator of its own level or of a looser one. -/
theorem operator (operator : Operator) : EndsAt (operator.level + 1) (.sign operator.sign) := by
  cases operator <;> constructor <;> decide

end EndsAt

/-! ## Levels and the loops that read them -/

namespace Grammar

open Parse (Reads anyKind)

section

variable (parts : Phrases)

/-- The reader of a level. -/
def levelReader : Nat → Parse Expr
  | 0 => expression parts
  | 1 => instantiation parts
  | 2 => comparison parts
  | 3 => sum parts
  | 4 => product parts
  | 5 => callChain parts
  | _ => primary parts

/-- The loop that reads on at a level whose expressions are chains. -/
def levelLoop : Nat → Nat → Expr → Parse Expr
  | 2 => operandsAfter comparisonOperator? (sum parts)
  | 3 => operandsAfter additiveOperator? (product parts)
  | 4 => operandsAfter multiplicativeOperator? (callChain parts)
  | _ => callsAfter parts

theorem levelReader_eq {level : Nat} (low : 2 ≤ level) (high : level ≤ 5) :
    levelReader parts level =
      levelReader parts (level + 1) >>= levelLoop parts level parts.bound := by
  obtain rfl | rfl | rfl | rfl : level = 2 ∨ level = 3 ∨ level = 4 ∨ level = 5 := by omega
  all_goals rfl

theorem levelLoop_ends {level : Nat} (low : 2 ≤ level) (high : level ≤ 5) (k : Nat) (e : Expr)
    {s : TokenStream} (hs : EndsAt level s.peek.kind) :
    levelLoop parts level (k + 1) e s = .ok (e, s) := by
  obtain rfl | rfl | rfl | rfl : level = 2 ∨ level = 3 ∨ level = 4 ∨ level = 5 := by omega
  · simp only [levelLoop, operandsAfter, Parse.peek_bind, hs.comparison (by omega), Parse.pure_run]
  · simp only [levelLoop, operandsAfter, Parse.peek_bind, hs.sum (by omega), Parse.pure_run]
  · simp only [levelLoop, operandsAfter, Parse.peek_bind, hs.product (by omega), Parse.pure_run]
  · obtain ⟨notParen, notDot, notBracket⟩ := hs.chain (by omega)
    simp only [levelLoop, callsAfter, Parse.peek_bind]
    rfl

theorem levelLoop_operator (operator : Operator) (k : Nat) (left : Expr) (s : TokenStream)
    (w : List Token) :
    levelLoop parts operator.level (k + 1) left (s.prepend (.ofSign operator.sign :: w)) =
      (levelReader parts (operator.level + 1) >>= fun right =>
        levelLoop parts operator.level k (.binary left.span left operator right)) (s.prepend w) := by
  cases operator <;> rfl

theorem callsAfter_call (k : Nat) (e : Expr) (s : TokenStream) (w : List Token) :
    callsAfter parts (k + 1) e (s.prepend (.ofSign .leftParen :: w)) =
      (arguments parts .callStart >>= fun args => callsAfter parts k (.call e.span e args))
        (s.prepend (.ofSign .leftParen :: w)) := rfl

theorem callsAfter_member (k : Nat) (e : Expr) {s : TokenStream}
    (h : s.peek.kind = .sign .dot ∨ s.peek.kind = .sign .leftBracket) :
    callsAfter parts (k + 1) e s = (memberOf parts e >>= callsAfter parts k) s := by
  rcases h with h | h <;> simp only [callsAfter, Parse.peek_bind, h]

theorem membersAfter_member (k : Nat) (e : Expr) {s : TokenStream}
    (h : s.peek.kind = .sign .dot ∨ s.peek.kind = .sign .leftBracket) :
    membersAfter parts (k + 1) e s = (memberOf parts e >>= membersAfter parts k) s := by
  rcases h with h | h <;> simp only [membersAfter, Parse.peek_bind, h]

theorem membersAfter_call (k : Nat) (e : Expr) {s : TokenStream} (h : s.peek.kind = .sign .leftParen) :
    membersAfter parts (k + 1) e s = .ok (e, s) := by
  simp only [membersAfter, Parse.peek_bind, h, Parse.pure_run]

theorem expression_of_begins {s : TokenStream} (h : s.peek.kind.begins 1) :
    expression parts s = (instantiation parts >>= assignmentTo parts) s := by
  unfold expression
  rw [Parse.peek_bind]
  generalize s.peek.kind = kind at h
  -- of the words only `new` is left
  cases kind with
  | keyword word => cases word <;> first | rfl | cases h
  | _ => rfl

theorem instantiation_of_begins {s : TokenStream} (h : s.peek.kind.begins 2) :
    instantiation parts s = comparison parts s := by
  unfold instantiation
  rw [Parse.peek_bind, if_neg]
  intro word
  rw [word] at h
  cases h

theorem assignmentTo_ends (e : Expr) {s : TokenStream} (hs : EndsAt 0 s.peek.kind) :
    assignmentTo parts e s = .ok (e, s) := by
  unfold assignmentTo
  rw [Parse.peek_bind, hs.update rfl]
  rfl

variable {parts} {s t : TokenStream} {w : List Token} {e : Expr}

/-- What is read at one level is read at the next looser level, if nothing of that level goes on after it. -/
theorem levelReader_loosen {level : Nat} (bound : 0 < parts.bound) (high : level ≤ 5)
    (begin : s.peek.kind.begins (level + 1)) (ends : EndsAt level t.peek.kind)
    (read : levelReader parts (level + 1) s = .ok (e, t)) : levelReader parts level s = .ok (e, t) := by
  by_cases low : 2 ≤ level
  · obtain ⟨k, hk⟩ := Nat.exists_eq_add_of_lt bound
    rw [levelReader_eq parts low high, Parse.bind_of_ok read, hk, levelLoop_ends parts low high _ e ends]
  · -- the two loosest levels have no loop: they look at the first token and at the one after
    obtain rfl | rfl : level = 0 ∨ level = 1 := by omega
    · exact (expression_of_begins parts begin).trans
        ((Parse.bind_of_ok read _).trans (assignmentTo_ends parts e ends))
    · exact (instantiation_of_begins parts begin).trans read

theorem primary_parenthesized
    (read : parts.expression ((s.prepend [.ofSign .rightParen]).prepend w) =
      .ok (e, s.prepend [.ofSign .rightParen])) :
    primary parts (s.prepend (parenthesized w)) = .ok (e, s) := by
  unfold primary parenthesized
  rw [List.cons_append, Parse.peek_bind]
  show (Parse.advance >>= _) _ = _
  rw [Parse.advance_bind, TokenStream.next_prepend, TokenStream.prepend_append, Parse.bind_of_ok read,
    Parse.expect_sign]
  rfl

theorem assignmentTo_assign {target value : Expr} (targeted : isTarget target)
    (read : parts.expression (s.prepend w) = .ok (value, s)) :
    assignmentTo parts target (s.prepend (.ofSign .assign :: w)) = .ok (.assign target.span target value, s) := by
  show ((if isTarget target then Parse.advance >>= fun _ => _ else _) : Parse Expr) _ = _
  rw [if_pos targeted, Parse.advance_bind, TokenStream.next_prepend]
  exact Parse.bind_of_ok read _

end

section

variable {parts : Phrases} {w : List Token} {e : Expr}

/-- What is read at one level is read at the next looser level. -/
theorem Reads.loosen {level : Nat} (bound : 0 < parts.bound) (high : level ≤ 5)
    (begin : Begins (level + 1) w)
    (h : Reads (levelReader parts (level + 1)) w e (EndsAt (level + 1))) :
    Reads (levelReader parts level) w e (EndsAt level) := by
  intro s hs
  have reads := h s (hs.mono (Nat.le_succ level))
  obtain ⟨t, rest, rfl, ht, -⟩ := begin
  exact levelReader_loosen bound high ht hs reads

theorem Reads.loosen_to (level : Nat) {level' : Nat} (bound : 0 < parts.bound) (high : level' ≤ 6)
    (le : level ≤ level') (begin : Begins level' w)
    (h : Reads (levelReader parts level') w e (EndsAt level')) :
    Reads (levelReader parts level) w e (EndsAt level) := by
  induction level' with
  | zero =>
    obtain rfl : level = 0 := by omega
    exact h
  | succ level' ih =>
    rcases Nat.lt_or_eq_of_le le with lt | rfl
    · have looser := Reads.loosen bound (by omega) begin h
      exact ih (by omega) (by omega) (begin.of_le (Nat.le_succ level')) looser
    · exact h

end

/-! ## Chains -/

/-- After the tokens `w` the loop `loop` that follows `first` stands with `e` in its hand, with enough of
its bound left for as many rounds as there may be in the tokens that it started from. -/
def Chained (first : Parse Expr) (loop : Nat → Expr → Parse Expr) (bound : Nat) (w : List Token)
    (e : Expr) (next : Kind → Prop) : Prop :=
  ∀ s, next s.peek.kind →
    ∃ k, bound < k + w.length ∧ (first >>= loop bound) (s.prepend w) = loop k e s

namespace Chained

variable {first : Parse Expr} {loop : Nat → Expr → Parse Expr} {bound : Nat} {w w' : List Token}
  {e e' : Expr} {next next' : Kind → Prop}

theorem of_reads (h : Reads first w e next) (nonempty : w ≠ []) :
    Chained first loop bound w e next := by
  intro s hs
  have := List.length_pos_iff.mpr nonempty
  exact ⟨bound, by omega, h.bind hs _⟩

theorem mono (h : Chained first loop bound w e next) (le : ∀ kind, next' kind → next kind) :
    Chained first loop bound w e next' :=
  fun s hs => h s (le _ hs)

/-- One more round of the loop. -/
theorem step (h : Chained first loop bound w e next) (short : w.length ≤ bound) (nonempty : w' ≠ [])
    (round : ∀ k s, next' s.peek.kind →
      next (s.prepend w').peek.kind ∧ loop (k + 1) e (s.prepend w') = loop k e' s) :
    Chained first loop bound (w ++ w') e' next' := by
  intro s hs
  obtain ⟨k, enough, reads⟩ := h (s.prepend w') (round 0 s hs).1
  have := List.length_pos_iff.mpr nonempty
  -- a round is left, since no more rounds were made than there were tokens
  obtain ⟨k, rfl⟩ : ∃ j, k = j + 1 := ⟨k - 1, by omega⟩
  refine ⟨k, by rw [List.length_append]; omega, ?_⟩
  rw [TokenStream.prepend_append, reads, (round k s hs).2]

/-- A chain ends where its loop ends. -/
theorem reads (h : Chained first loop bound w e next) (short : w.length ≤ bound)
    (last : ∀ k s, next' s.peek.kind → next s.peek.kind ∧ loop (k + 1) e s = .ok (e, s)) :
    Reads (first >>= loop bound) w e next' := by
  intro s hs
  obtain ⟨k, enough, reads⟩ := h s (last 0 s hs).1
  obtain ⟨k, rfl⟩ : ∃ j, k = j + 1 := ⟨k - 1, by omega⟩
  rw [reads, (last k s hs).2]

end Chained

end Grammar

end ScriptLang
