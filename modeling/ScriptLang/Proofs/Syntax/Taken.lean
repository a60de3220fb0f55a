/-
# ScriptLang.Proofs.Syntax.Taken — tokens that a rule takes once it takes everywhere.

A rule that takes some tokens off the front of one stream takes them off the front of every other, under
every bound that is not below their number, if the token after them is of a kind that it stops at.  So the
tokens of an operand that is read in one place can be moved to another: into parentheses, between operators,
behind an assignment sign.

Expressions have their levels.  What is taken at one level is taken at every looser one; and at every tighter
one too, down to calls and members, if it is a name or a member, since only the outermost operation of an
expression is read at a looser level than its operands.
-/
import ScriptLang.Proofs.Syntax.Lookahead
import ScriptLang.Proofs.Syntax.ReadBack.Statement

namespace ScriptLang

namespace TokenStream

variable {s t : TokenStream} {w v : List Token}

theorem prepend_inj (same : s.prepend w = s.prepend v) : w = v :=
  List.append_cancel_right (congrArg tokens same)

/-- A stream of some tokens and nothing behind them. -/
def only (w : List Token) : TokenStream := ⟨w, ⟨.eof, "", .nowhere⟩⟩

theorem prepend_only (w : List Token) : (only []).prepend w = only w := by
  rw [prepend, only, List.append_nil]
  rfl

theorem only_nil_proper : (only []).Proper := ⟨rfl, nofun⟩

theorem Proper.prepend (h : s.Proper) (inner : ∀ t ∈ w, t.kind ≠ .eof) : (s.prepend w).Proper :=
  ⟨h.ended, List.forall_mem_append.2 ⟨inner, h.inner⟩⟩

theorem Proper.tail {first : Token} (h : (s.prepend (first :: w)).Proper) : (s.prepend w).Proper :=
  ⟨h.ended, fun t member => h.inner t (List.mem_cons_of_mem first member)⟩

theorem Proper.front (h : (s.prepend w).Proper) : ∀ t ∈ w, t.kind ≠ .eof :=
  fun t member => h.inner t (List.mem_append_left _ member)

end TokenStream

theorem Token.ofSign_ne_eof (g : Sign) : (Token.ofSign g).kind ≠ .eof := nofun

/-- What is read is read again wherever the same tokens stand in front. -/
theorem Parse.Local.elsewhere {α ι : Type} {k : Nat} {next : Kind → Prop} {p : Parse α} {q : ι → Parse α}
    (h : Local k next p q) {s : TokenStream} {w : List Token} (hs : (s.prepend w).Proper) {a : α}
    (read : p (s.prepend w) = .ok (a, s)) (i : ι) {u : TokenStream} (hu : u.Proper)
    (seen : u.peek = s.peek ∨ next u.peek.kind) : q i (u.prepend w) = .ok (a, u) := by
  obtain ⟨v, -, split, same⟩ := (h _ hs).reads a s read
  obtain rfl := TokenStream.prepend_inj split
  exact same i u hu seen

/-- Tokens that stand elsewhere are read as the same but for its places. -/
theorem Parse.Relocates.copy {α β : Type} {k : Nat} {next : Kind → Prop} {f : Span → Span} {g : α → β}
    {p : Parse α} {q : Parse β} (h : Parse.Relocates f g p q) (sees : Parse.Local k next p fun _ : Unit => p)
    {s : TokenStream} {w w' : List Token}
    (hs : (s.prepend w').Proper) (same : w'.map (Token.relocate f) = w.map (Token.relocate f)) {a : α}
    (read : p (s.prepend w) = .ok (a, s)) : ∃ a', p (s.prepend w') = .ok (a', s) ∧ g a' = g a := by
  have relocated := h (s.prepend w)
  have streams : (s.prepend w).relocate f = (s.prepend w').relocate f := by
    simp only [TokenStream.relocate, TokenStream.prepend, List.map_append, same]
  rw [streams, h, read] at relocated
  cases found : p (s.prepend w') with
  | error e =>
    rw [found] at relocated
    cases relocated
  | ok r =>
    obtain ⟨a', t⟩ := r
    rw [found] at relocated
    obtain ⟨trees, left⟩ := Prod.mk.inj (Except.ok.inj relocated)
    -- as many tokens are left as before, so they are the same ones
    obtain ⟨v, -, split, -⟩ := (sees _ hs).reads a' t found
    have long : s.tokens.length = t.tokens.length := by
      have lengths := congrArg (fun u : TokenStream => u.tokens.length) left
      simpa only [TokenStream.relocate, List.length_map] using lengths.symm
    obtain ⟨whole, ends⟩ := TokenStream.mk.inj split
    obtain ⟨-, rest⟩ := List.append_inj' whole long
    have same : s = t := by rw [TokenStream.mk.injEq]; exact ⟨rest, ends⟩
    exact ⟨a', by rw [same], trees⟩

namespace Grammar

open Parse (Local Settles)

variable {α : Type} {r : Phrases → Parse α} {next : Kind → Prop} {w : List Token} {a : α}

theorem within_local {ι : Type} {n : Nat} {N : ι → Nat} (le : ∀ i, n ≤ N i) :
    (Phrases.within n).Local fun i => .within (N i) :=
  ⟨fun i => Nat.succ_le_succ (le i), (readers_local le).1, (readers_local le).2⟩

/-- A rule that does not depend on its bound, and that sees of what follows at most whether its kind is one of
`next`, as the end is. -/
structure Steady (r : Phrases → Parse α) (next : Kind → Prop) : Prop where
  ends : next .eof
  settles : ∀ {n parts parts'}, parts.Settle n parts' → Settles 1 (n + 1) (r parts) (r parts')
  sees : ∀ {ι : Type} {parts} {parts' : ι → Phrases}, parts.Local parts' →
    Local 1 next (r parts) fun i => r (parts' i)

/-- Under every bound that is not below their number the rule takes the tokens `w`, none of which is the end, for
`a`, if a token of a kind of `next` comes after them. -/
structure Takes (r : Phrases → Parse α) (next : Kind → Prop) (w : List Token) (a : α) : Prop where
  inner : ∀ t ∈ w, t.kind ≠ .eof
  reads : ∀ n, w.length ≤ n → ∀ s : TokenStream, s.Proper → next s.peek.kind →
    r (.within n) (s.prepend w) = .ok (a, s)

/-- What a rule takes in one place it takes everywhere. -/
theorem Takes.of_read (h : Steady r next) {n : Nat} {s : TokenStream} (hs : (s.prepend w).Proper)
    (read : r (.within n) (s.prepend w) = .ok (a, s)) : Takes r next w a := by
  refine ⟨hs.front, fun N short u hu stops => ?_⟩
  have nothing := TokenStream.only_nil_proper
  -- under the larger of the bounds with nothing behind, then under the smaller, then with anything behind
  have larger := (h.sees (within_local fun _ : Unit => Nat.le_max_left n N)).elsewhere hs read () nothing
    (.inr h.ends)
  have within : ((TokenStream.only []).prepend w).Within (N + 1) := by
    rw [TokenStream.prepend_only]
    exact ⟨rfl, Nat.lt_succ_of_le short⟩
  rw [(h.settles (within_settle (Nat.le_max_right n N)) _ within).same] at larger
  exact (h.sees (within_local fun _ : Unit => Nat.le_refl N)).elsewhere (nothing.prepend hs.front) larger () hu
    (.inr stops)

/-! ## Levels -/

variable {level : Nat} {e : Expr}

theorem levelReader_steady (low : 1 ≤ level) (high : level ≤ 6) : Steady (levelReader · level) (EndsAt level) := by
  refine ⟨.eof level, ?_, ?_⟩
  all_goals
    intros
    obtain rfl | rfl | rfl | rfl | rfl | rfl : level = 1 ∨ level = 2 ∨ level = 3 ∨ level = 4 ∨ level = 5 ∨
      level = 6 := by omega
  · exact instantiation_settles ‹_›
  · exact comparison_settles ‹_›
  · exact sum_settles ‹_›
  · exact product_settles ‹_›
  · exact callChain_settles ‹_›
  · exact primary_settles ‹_›
  · exact instantiation_local ‹_›
  · exact comparison_local ‹_›
  · exact sum_local ‹_›
  · exact product_local ‹_›
  · exact callChain_local ‹_›
  · exact primary_local ‹_›

/-- The tokens `w` are taken for `e` at a level. -/
def TakenAt (level : Nat) (w : List Token) (e : Expr) : Prop := Takes (levelReader · level) (EndsAt level) w e

theorem TakenAt.of_read (low : 1 ≤ level) (high : level ≤ 6) {n : Nat} {s : TokenStream}
    (hs : (s.prepend w).Proper) (read : levelReader (.within n) level (s.prepend w) = .ok (e, s)) :
    TakenAt level w e :=
  Takes.of_read (levelReader_steady low high) hs read

/-! ### What an expression begins with -/

theorem primary_begins {parts : Phrases} {s t : TokenStream} (read : primary parts s = .ok (e, t)) :
    s.peek.kind.begins 6 := by
  unfold primary at read
  rw [Parse.peek_bind] at read
  -- what an expression does not begin with is invalid
  cases found : s.peek.kind with
  | identifier | number | string => rfl
  | sign g => cases g <;> first | rfl | (simp only [found] at read; cases read)
  | keyword word => cases word <;> (simp only [found] at read; cases read)
  | eof =>
    simp only [found] at read
    cases read

/-- An expression begins with a token that something of its level begins with. -/
theorem levelReader_begins {parts : Phrases} {s t : TokenStream} (low : 1 ≤ level) (high : level ≤ 6)
    (read : levelReader parts level s = .ok (e, t)) : s.peek.kind.begins level := by
  induction distance : 6 - level generalizing level e t with
  | zero =>
    obtain rfl : level = 6 := by omega
    exact primary_begins read
  | succ distance ih =>
    have tighter {e' : Expr} {t' : TokenStream} (read : levelReader parts (level + 1) s = .ok (e', t')) :
        s.peek.kind.begins level :=
      Kind.begins_of_le (Nat.le_succ level) (ih (by omega) (by omega) read (by omega))
    by_cases chain : 2 ≤ level
    · rw [levelReader_eq parts chain (by omega)] at read
      obtain ⟨e', t', first, -⟩ := Parse.bind_eq_ok.1 read
      exact tighter first
    · obtain rfl : level = 1 := by omega
      change instantiation parts s = _ at read
      unfold instantiation at read
      rw [Parse.peek_bind] at read
      split at read
      · next found => rw [found]; rfl
      · exact tighter read

/-! ### From one level to another -/

/-- A loop over operands that gives back something else than an operation has met none. -/
theorem operandsAfter_same {operator? : Kind → Option Operator} {operand : Parse Expr} {k : Nat} {left : Expr}
    {s t : TokenStream} (plain : ∀ span l operator r, e ≠ .binary span l operator r)
    (read : operandsAfter operator? operand k left s = .ok (e, t)) : e = left ∧ t = s := by
  induction k generalizing left s with
  | zero => cases read
  | succ k ih =>
    rw [operandsAfter, Parse.peek_bind] at read
    cases found : operator? s.peek.kind with
    | none =>
      simp only [found] at read
      cases read
      exact ⟨rfl, rfl⟩
    | some operator =>
      simp only [found] at read
      obtain ⟨_, _, -, read⟩ := Parse.bind_eq_ok.1 read
      obtain ⟨right, u, -, read⟩ := Parse.bind_eq_ok.1 read
      exact absurd (ih read).1 (plain _ _ _ _)

namespace TakenAt

theorem alone (h : TakenAt level w e) :
    levelReader (.within w.length) level (.only w) = .ok (e, .only []) := by
  have read := h.reads _ (Nat.le_refl _) (.only []) TokenStream.only_nil_proper (.eof level)
  rwa [TokenStream.prepend_only] at read

theorem of_alone (low : 1 ≤ level) (high : level ≤ 6) {n : Nat} (inner : ∀ t ∈ w, t.kind ≠ .eof)
    (read : levelReader (.within n) level (.only w) = .ok (e, .only [])) : TakenAt level w e := by
  rw [← TokenStream.prepend_only] at read
  exact of_read low high (TokenStream.only_nil_proper.prepend inner) read

theorem begins (h : TakenAt level w e) (low : 1 ≤ level) (high : level ≤ 6) (s : TokenStream) :
    (s.prepend w).peek.kind.begins level := by
  have begins := levelReader_begins low high h.alone
  cases w with
  | nil => cases begins
  | cons t rest => exact begins

/-- What is taken at one level is taken at the next looser one. -/
theorem loosen (h : TakenAt (level + 1) w e) (high : level ≤ 5) : TakenAt level w e := by
  refine ⟨h.inner, fun n short s hs ends => ?_⟩
  have read := h.reads n short s hs (ends.mono (Nat.le_succ level))
  exact levelReader_loosen (Nat.succ_pos n) high (h.begins (by omega) (by omega) s) ends read

theorem loosen_to (looser : Nat) (h : TakenAt level w e) (le : looser ≤ level) (high : level ≤ 6) :
    TakenAt looser w e := by
  induction level with
  | zero =>
    obtain rfl : looser = 0 := by omega
    exact h
  | succ level ih =>
    rcases Nat.lt_or_eq_of_le le with lt | rfl
    · exact ih (h.loosen (by omega)) (by omega) (by omega)
    · exact h

/-- An operand that is no operation itself is taken at the next tighter level. -/
theorem tighten (h : TakenAt level w e) (low : 2 ≤ level) (high : level ≤ 4)
    (plain : ∀ span l operator r, e ≠ .binary span l operator r) : TakenAt (level + 1) w e := by
  have read := h.alone
  rw [levelReader_eq _ low (by omega)] at read
  obtain ⟨e', t, first, rest⟩ := Parse.bind_eq_ok.1 read
  obtain ⟨rfl, rfl⟩ : e = e' ∧ TokenStream.only [] = t := by
    rcases (by omega : level = 2 ∨ level = 3 ∨ level = 4) with rfl | rfl | rfl
    all_goals exact operandsAfter_same plain rest
  exact of_alone (by omega) (by omega) h.inner first

/-- A name or a member is taken where calls and members are. -/
theorem of_isTarget (h : TakenAt 1 w e) (target : isTarget e) : TakenAt 5 w e := by
  have plain : ∀ span l operator r, e ≠ .binary span l operator r := by
    rintro _ _ _ _ rfl
    cases target
  have read : instantiation (.within w.length) (.only w) = .ok (e, .only []) := h.alone
  unfold instantiation at read
  rw [Parse.peek_bind] at read
  split at read
  · -- what `new` makes is no target
    obtain ⟨_, _, -, read⟩ := Parse.bind_eq_ok.1 read
    obtain ⟨_, _, -, read⟩ := Parse.bind_eq_ok.1 read
    obtain ⟨_, _, -, read⟩ := Parse.bind_eq_ok.1 read
    obtain ⟨_, _, -, read⟩ := Parse.bind_eq_ok.1 read
    cases read
    cases target
  · have comparison : TakenAt 2 w e := of_alone (by decide) (by decide) h.inner read
    have sum := comparison.tighten (by decide) (by decide) plain
    exact (sum.tighten (by decide) (by decide) plain).tighten (by decide) (by decide) plain

/-! ### New expressions from taken ones -/

theorem parenthesized (h : TakenAt 0 w e) : TakenAt 6 (parenthesized w) e := by
  refine ⟨?_, fun n short s hs _ => ?_⟩
  · rw [ScriptLang.parenthesized]
    simp only [List.cons_append, List.forall_mem_cons, List.forall_mem_append]
    exact ⟨Token.ofSign_ne_eof _, h.inner, Token.ofSign_ne_eof _, List.forall_mem_nil _⟩
  · rw [length_parenthesized] at short
    obtain ⟨m, rfl⟩ : ∃ m, n = m + 1 := ⟨n - 1, by omega⟩
    have closes : (s.prepend [.ofSign .rightParen]).Proper := hs.prepend (by simp)
    exact primary_parenthesized (h.reads m (by omega) _ closes (.closer (by decide) 0))

/-- An operation between two operands of the next tighter level. -/
theorem operation {operator : Operator} {w' : List Token} {e' : Expr} (h : TakenAt (operator.level + 1) w e)
    (h' : TakenAt (operator.level + 1) w' e') :
    TakenAt operator.level (w ++ .ofSign operator.sign :: w') (.binary e.span e operator e') := by
  have low := operator.le_level
  have high := operator.level_le
  refine ⟨?_, fun n short s hs ends => ?_⟩
  · simp only [List.forall_mem_append, List.forall_mem_cons]
    exact ⟨h.inner, Token.ofSign_ne_eof _, h'.inner⟩
  · rw [List.length_append, List.length_cons] at short
    obtain ⟨m, rfl⟩ : ∃ m, n = m + 1 := ⟨n - 1, by omega⟩
    have second : (s.prepend (.ofSign operator.sign :: w')).Proper :=
      hs.prepend (List.forall_mem_cons.2 ⟨Token.ofSign_ne_eof _, h'.inner⟩)
    show levelReader _ _ _ = _
    rw [levelReader_eq _ low (by omega), TokenStream.prepend_append,
      Parse.bind_of_ok (h.reads _ (by omega) _ second (.operator operator))]
    show levelLoop _ _ (m + 1 + 1) _ _ = _
    rw [levelLoop_operator, Parse.bind_of_ok (h'.reads _ (by omega) _ hs (ends.mono (Nat.le_succ _))),
      levelLoop_ends _ low (by omega) _ _ ends]

/-- The tokens of an assignment, from those of its target and of its value. -/
theorem assignment {w' : List Token} {value : Expr} (h : TakenAt 1 w e) (target : isTarget e)
    (h' : TakenAt 0 w' value) : TakenAt 0 (w ++ .ofSign .assign :: w') (.assign e.span e value) := by
  refine ⟨?_, fun n short s hs ends => ?_⟩
  · simp only [List.forall_mem_append, List.forall_mem_cons]
    exact ⟨h.inner, Token.ofSign_ne_eof _, h'.inner⟩
  · rw [List.length_append, List.length_cons] at short
    obtain ⟨m, rfl⟩ : ∃ m, n = m + 1 := ⟨n - 1, by omega⟩
    have sign : (s.prepend (.ofSign .assign :: w')).Proper :=
      hs.prepend (List.forall_mem_cons.2 ⟨Token.ofSign_ne_eof _, h'.inner⟩)
    have first : instantiation _ _ = _ := h.reads (m + 1) (by omega) _ sign .assign
    show expression _ _ = _
    rw [TokenStream.prepend_append, expression_of_begins _ (h.begins (by decide) (by decide) _),
      Parse.bind_of_ok first, assignmentTo_assign target (h'.reads m (by omega) s hs ends)]

end TakenAt

theorem identifier_takenAt {i : Token} (name : i.kind = .identifier) :
    TakenAt 6 [i] (.identifier i.span i.value) := by
  refine ⟨by simp [name], fun n _ s _ _ => ?_⟩
  show primary _ _ = _
  unfold primary
  rw [Parse.peek_bind, TokenStream.peek_prepend]
  simp only [name]
  rfl

theorem numeral_takenAt : TakenAt 6 [.ofNumeral "1"] (.number .nowhere 1.0) := by
  have one : Number.read? "1" = some 1.0 := by rfl
  refine ⟨by simp [Token.ofNumeral], fun n _ s _ _ => ?_⟩
  show primary _ _ = _
  unfold primary
  rw [Parse.peek_bind, TokenStream.peek_prepend]
  simp only [Token.ofNumeral, one]
  rfl

end Grammar

end ScriptLang
