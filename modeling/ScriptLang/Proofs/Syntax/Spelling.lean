/-
# ScriptLang.Proofs.Syntax.Spelling — programs as tokens.

A tree is written with as few parentheses as the grammar allows.  Every expression has a level, every
place of an operand admits the levels from some one on, and an expression of a lower level is put in
parentheses there.  The class that `new` instantiates is a chain of members, so a call in that chain needs
parentheses too; and a statement that begins with `function` would be a declaration, so a function that
is a statement stands in parentheses.

Only some trees have a spelling: the well-formed ones, which keep the rules that the reader enforces.
-/
import ScriptLang.Proofs.Syntax.Placement

namespace ScriptLang

/-! ## Trees and tokens without spans -/

/-- The span of what stands nowhere. -/
def Span.nowhere : Span := ⟨0, 0, 0⟩

/-- A token without its place. -/
def Token.bare (t : Token) : Token := t.relocate fun _ => .nowhere

/-- The shape of an expression: the tree without the places of its tokens. -/
def Expr.bare (e : Expr) : Expr := e.relocate fun _ => .nowhere

/-- The shape of a statement. -/
def Stmt.bare (s : Stmt) : Stmt := s.relocate fun _ => .nowhere

/-- The shape of a program. -/
def Program.bare (p : Program) : Program := p.map Stmt.bare

namespace Token

/-- A sign as a token. -/
def ofSign (s : Sign) : Token := ⟨.sign s, s.text, .nowhere⟩

/-- A reserved word as a token. -/
def ofKeyword (w : Keyword) : Token := ⟨.keyword w, w.text, .nowhere⟩

/-- A name as a token. -/
def ofName (name : String) : Token := ⟨.identifier, name, .nowhere⟩

/-- A string as a token. -/
def ofText (text : String) : Token := ⟨.string, text, .nowhere⟩

/-- A numeral as a token. -/
def ofNumeral (numeral : String) : Token := ⟨.number, numeral, .nowhere⟩

end Token

/-- A choice of a numeral for each number: a text that the reader of numbers takes for it. -/
structure Numerals where
  text : Float → String
  reads : ∀ x, Number.read? (text x) = some x

/-! ## Levels -/

namespace Operator

/-- The sign of an operator. -/
def sign : Operator → Sign
  | add => .plus | subtract => .minus | multiply => .star | divide => .slash | modulo => .percent
  | equal => .equal | notEqual => .notEqual | less => .less | lessEqual => .lessEqual
  | greater => .greater | greaterEqual => .greaterEqual | nullish => .nullish

/-- The level of an operator. -/
def level : Operator → Nat
  | equal | notEqual | less | lessEqual | greater | greaterEqual | nullish => 2
  | add | subtract => 3
  | multiply | divide | modulo => 4

end Operator

namespace Expr

/-- How tightly an expression is held together, from functions and assignments to what no operator is
part of. -/
def level : Expr → Nat
  | .function _ _ | .assign _ _ _ => 0
  | .instantiate _ _ _ => 1
  | .binary _ _ operator _ => operator.level
  | .call _ _ _ | .member _ _ _ _ => 5
  | _ => 6

/-- Does a chain of members begin with a call? -/
def beginsWithCall : Expr → Bool
  | .call _ _ _ => true
  | .member _ base _ _ => base.beginsWithCall
  | _ => false

/-- Can an expression be instantiated without parentheses around it? -/
def isChain (e : Expr) : Bool := 5 ≤ e.level && !e.beginsWithCall

/-- Is an expression a function? -/
def isFunction : Expr → Bool
  | .function _ _ => true
  | _ => false

/-- Is an expression a name? -/
def isName : Expr → Bool
  | .identifier _ _ => true
  | _ => false

/-- Is an expression the value of a `return` without one? -/
def isNull : Expr → Bool
  | .null _ => true
  | _ => false

end Expr

/-! ## Spellings -/

/-- Tokens in parentheses. -/
def parenthesized (w : List Token) : List Token := .ofSign .leftParen :: w ++ [.ofSign .rightParen]

/-- Tokens in braces. -/
def braced (w : List Token) : List Token := .ofSign .leftBrace :: w ++ [.ofSign .rightBrace]

/-- Tokens in brackets. -/
def bracketed (w : List Token) : List Token := .ofSign .leftBracket :: w ++ [.ofSign .rightBracket]

/-- Tokens in parentheses where these are needed. -/
def parenthesizedIf (needed : Bool) (w : List Token) : List Token :=
  if needed then parenthesized w else w

/-- Spellings with commas between them. -/
def separated : List (List Token) → List Token
  | [] => []
  | [w] => w
  | w :: v :: rest => w ++ .ofSign .comma :: separated (v :: rest)

/-- How a member of a class is marked. -/
def markSpelling : Option Visibility → List Token
  | none => []
  | some .visible => [.ofKeyword .publicWord]
  | some .hidden => [.ofKeyword .privateWord]

/-- How the class that is extended is named. -/
def superclassSpelling : Option String → List Token
  | none => []
  | some name => [.ofKeyword .extendsWord, .ofName name]

/-- The parameters of a function in parentheses. -/
def parametersSpelling (names : List String) : List Token :=
  parenthesized (separated (names.map fun name => [.ofName name]))

section

variable (numerals : Numerals)

mutual

/-- The tokens of an expression. -/
def Expr.spelling : Expr → List Token
  | .identifier _ name => [.ofName name]
  | .number _ x => [.ofNumeral (numerals.text x)]
  | .string _ text => [.ofText text]
  | .null _ => []
  | .object _ ps => braced (separated (propertySpellings ps))
  | .array _ es => bracketed (separated (exprSpellings es))
  | .binary _ left operator right =>
    parenthesizedIf (left.level < operator.level) left.spelling ++ .ofSign operator.sign ::
      parenthesizedIf (right.level < operator.level + 1) right.spelling
  | .assign _ target value => target.spelling ++ .ofSign .assign :: value.spelling
  | .member _ object property computed =>
    parenthesizedIf (object.level < 5) object.spelling ++
      if computed then bracketed property.spelling else .ofSign .dot :: property.spelling
  | .call _ callee arguments =>
    parenthesizedIf (callee.level < 5) callee.spelling ++
      parenthesized (separated (exprSpellings arguments))
  | .function _ d => d.spelling
  | .instantiate _ target arguments =>
    .ofKeyword .newWord :: parenthesizedIf (!target.isChain) target.spelling ++
      parenthesized (separated (exprSpellings arguments))

/-- The tokens of each of some expressions. -/
def exprSpellings : List Expr → List (List Token)
  | [] => []
  | e :: rest => e.spelling :: exprSpellings rest

/-- The tokens of a value after the sign before it; none of a value that is left out. -/
def valueSpelling (before : Sign) : Option Expr → List Token
  | none => []
  | some e => .ofSign before :: e.spelling

/-- The tokens of an entry of an object literal. -/
def Property.spelling : Property → List Token
  | ⟨key, value, _⟩ => .ofName key :: valueSpelling .colon value

/-- The tokens of each of some entries. -/
def propertySpellings : List Property → List (List Token)
  | [] => []
  | p :: rest => p.spelling :: propertySpellings rest

/-- The tokens of a declaration of a variable. -/
def VariableDeclaration.spelling : VariableDeclaration → List Token
  | ⟨name, constant, value, _⟩ =>
    .ofKeyword (if constant then .constWord else .letWord) :: .ofName name ::
      valueSpelling .assign value

/-- The tokens of a declaration of a function. -/
def FunctionDeclaration.spelling : FunctionDeclaration → List Token
  | ⟨name, parameters, body, isAsync, _⟩ =>
    (if isAsync then [.ofKeyword .asyncWord] else []) ++
      .ofKeyword .functionWord :: (name.map Token.ofName).toList ++ parametersSpelling parameters ++
      braced (stmtsSpelling body)

/-- The tokens of a statement, with the semicolon after it. -/
def Stmt.spelling : Stmt → List Token
  | .variableDeclaration _ d => d.spelling ++ [.ofSign .semicolon]
  | .functionDeclaration _ d => d.spelling ++ [.ofSign .semicolon]
  | .classDeclaration _ d => d.spelling ++ [.ofSign .semicolon]
  | .ifBlock _ condition body =>
    .ofKeyword .ifWord :: parenthesized condition.spelling ++ braced (stmtsSpelling body) ++ [.ofSign .semicolon]
  | .whileLoop _ condition body =>
    .ofKeyword .whileWord :: parenthesized condition.spelling ++ braced (stmtsSpelling body) ++
      [.ofSign .semicolon]
  | .forLoop _ loop => loop.spelling ++ [.ofSign .semicolon]
  | .breakLoop _ => [.ofKeyword .breakWord, .ofSign .semicolon]
  | .returnValue _ value => .ofKeyword .returnWord :: value.spelling ++ [.ofSign .semicolon]
  | .expression _ value => parenthesizedIf value.isFunction value.spelling ++ [.ofSign .semicolon]

/-- The tokens of statements, one after the other. -/
def stmtsSpelling : List Stmt → List Token
  | [] => []
  | s :: rest => s.spelling ++ stmtsSpelling rest

/-- The tokens of a loop over a counter. -/
def ForLoop.spelling : ForLoop → List Token
  | ⟨counter, condition, iterator, body⟩ =>
    .ofKeyword .forWord :: parenthesized (counter.spelling ++ .ofSign .semicolon ::
      condition.spelling ++ .ofSign .semicolon :: iterator.spelling) ++ braced (stmtsSpelling body)

/-- The tokens of a class. -/
def ClassDeclaration.spelling : ClassDeclaration → List Token
  | ⟨name, superclass, members⟩ =>
    .ofKeyword .classWord :: .ofName name ::
      superclassSpelling superclass ++ braced (membersSpelling members)

/-- The tokens of a member of a class, with the semicolon after a property. -/
def Member.spelling : Member → List Token
  | .property visibility d => markSpelling (some visibility) ++ d.spelling ++ [.ofSign .semicolon]
  | .method _ d => markSpelling d.visibility ++ d.spelling

/-- The tokens of members, one after the other. -/
def membersSpelling : List Member → List Token
  | [] => []
  | m :: rest => m.spelling ++ membersSpelling rest

end

/-- The tokens of a program. -/
def Program.spelling (p : Program) : List Token := stmtsSpelling numerals p

theorem exprSpellings_eq_map (es : List Expr) :
    exprSpellings numerals es = es.map (Expr.spelling numerals) := by
  induction es with
  | nil => rfl
  | cons e rest ih => rw [exprSpellings, ih, List.map_cons]

theorem propertySpellings_eq_map (ps : List Property) :
    propertySpellings numerals ps = ps.map (Property.spelling numerals) := by
  induction ps with
  | nil => rfl
  | cons p rest ih => rw [propertySpellings, ih, List.map_cons]

theorem stmtsSpelling_eq_flatMap (ss : List Stmt) :
    stmtsSpelling numerals ss = ss.flatMap (Stmt.spelling numerals) := by
  induction ss with
  | nil => rfl
  | cons s rest ih => rw [stmtsSpelling, ih, List.flatMap_cons]

theorem membersSpelling_eq_flatMap (ms : List Member) :
    membersSpelling numerals ms = ms.flatMap (Member.spelling numerals) := by
  induction ms with
  | nil => rfl
  | cons m rest ih => rw [membersSpelling, ih, List.flatMap_cons]

end

/-! ## Well-formed trees -/

mutual

/-- Does an expression keep the rules of the reader?  What is assigned to is a name or a member, what a
dot names is a name, `null` is not written, and a function that is a value has no visibility. -/
def Expr.isWellFormed : Expr → Bool
  | .identifier _ _ | .number _ _ | .string _ _ => true
  | .null _ => false
  | .object _ ps => propertiesAreWellFormed ps
  | .array _ es => exprsAreWellFormed es
  | .binary _ left _ right => left.isWellFormed && right.isWellFormed
  | .assign _ target value =>
    Grammar.isTarget target && target.isWellFormed && value.isWellFormed
  | .member _ object property computed =>
    object.isWellFormed && property.isWellFormed && (computed || property.isName)
  | .call _ callee arguments => callee.isWellFormed && exprsAreWellFormed arguments
  | .function _ d => d.visibility.isNone && d.isWellFormed
  | .instantiate _ target arguments => target.isWellFormed && exprsAreWellFormed arguments

/-- Do all expressions keep the rules? -/
def exprsAreWellFormed : List Expr → Bool
  | [] => true
  | e :: rest => e.isWellFormed && exprsAreWellFormed rest

/-- Does a value keep the rules, if there is one? -/
def valueIsWellFormed : Option Expr → Bool
  | none => true
  | some e => e.isWellFormed

/-- Does an entry of an object literal keep the rules? -/
def Property.isWellFormed : Property → Bool
  | ⟨_, value, _⟩ => valueIsWellFormed value

/-- Do all entries keep the rules? -/
def propertiesAreWellFormed : List Property → Bool
  | [] => true
  | p :: rest => p.isWellFormed && propertiesAreWellFormed rest

/-- Does a declaration of a variable keep the rules?  A constant has a value. -/
def VariableDeclaration.isWellFormed : VariableDeclaration → Bool
  | ⟨_, constant, value, _⟩ => (!constant || value.isSome) && valueIsWellFormed value

/-- Does a declaration of a function keep the rules? -/
def FunctionDeclaration.isWellFormed : FunctionDeclaration → Bool
  | ⟨_, _, body, _, _⟩ => stmtsAreWellFormed body

/-- Does a statement keep the rules?  Outside a class nothing has a visibility. -/
def Stmt.isWellFormed : Stmt → Bool
  | .variableDeclaration _ d => d.visibility.isNone && d.isWellFormed
  | .functionDeclaration _ d => d.visibility.isNone && d.isWellFormed
  | .classDeclaration _ d => d.isWellFormed
  | .ifBlock _ condition body => condition.isWellFormed && stmtsAreWellFormed body
  | .whileLoop _ condition body => condition.isWellFormed && stmtsAreWellFormed body
  | .forLoop _ loop => loop.isWellFormed
  | .breakLoop _ => true
  | .returnValue _ value => value.isNull || value.isWellFormed
  | .expression _ value => value.isWellFormed

/-- Do all statements keep the rules? -/
def stmtsAreWellFormed : List Stmt → Bool
  | [] => true
  | s :: rest => s.isWellFormed && stmtsAreWellFormed rest

/-- Does a loop keep the rules?  Its counter starts at a numeral, and its iterator assigns to it. -/
def ForLoop.isWellFormed : ForLoop → Bool
  | ⟨counter, condition, iterator, body⟩ =>
    counter.visibility.isNone && counter.isWellFormed && Grammar.startsAtNumber counter &&
      condition.isWellFormed && iterator.isWellFormed && Grammar.steps counter.name iterator &&
      stmtsAreWellFormed body

/-- Does a class keep the rules? -/
def ClassDeclaration.isWellFormed : ClassDeclaration → Bool
  | ⟨_, _, members⟩ => membersAreWellFormed members

/-- Does a member keep the rules?  It is marked with its visibility, but a constructor that is not marked
can be seen; a method has a name, and a constructor does not return. -/
def Member.isWellFormed : Member → Bool
  | .property visibility d => d.visibility = some visibility && d.isWellFormed
  | .method visibility d =>
    d.name.isSome && d.isWellFormed && !(d.name = some constructorName && returnsIn d.body) &&
      (d.visibility = some visibility ||
        d.visibility.isNone && visibility = .visible && d.name = some constructorName)

/-- Do all members keep the rules? -/
def membersAreWellFormed : List Member → Bool
  | [] => true
  | m :: rest => m.isWellFormed && membersAreWellFormed rest

end

/-- Does a program keep the rules of the reader? -/
def Program.isWellFormed (p : Program) : Bool := stmtsAreWellFormed p

@[simp] theorem exprsAreWellFormed_eq_all (es : List Expr) :
    exprsAreWellFormed es = es.all Expr.isWellFormed := by
  induction es with
  | nil => rfl
  | cons e rest ih => rw [exprsAreWellFormed, ih, List.all_cons]

@[simp] theorem propertiesAreWellFormed_eq_all (ps : List Property) :
    propertiesAreWellFormed ps = ps.all Property.isWellFormed := by
  induction ps with
  | nil => rfl
  | cons p rest ih => rw [propertiesAreWellFormed, ih, List.all_cons]

@[simp] theorem stmtsAreWellFormed_eq_all (ss : List Stmt) :
    stmtsAreWellFormed ss = ss.all Stmt.isWellFormed := by
  induction ss with
  | nil => rfl
  | cons s rest ih => rw [stmtsAreWellFormed, ih, List.all_cons]

@[simp] theorem membersAreWellFormed_eq_all (ms : List Member) :
    membersAreWellFormed ms = ms.all Member.isWellFormed := by
  induction ms with
  | nil => rfl
  | cons m rest ih => rw [membersAreWellFormed, ih, List.all_cons]

/-! ## How spellings begin -/

/-- Can an expression of level `level` or a tighter one begin with a token of a given kind? -/
def Kind.begins (level : Nat) : Kind → Bool
  | .identifier | .string | .number => true
  | .sign s => s = .leftParen || s = .leftBracket || s = .leftBrace
  | .keyword w => w = .newWord && level ≤ 1 || (w = .functionWord || w = .asyncWord) && level = 0
  | .eof => false

theorem Kind.begins_of_le {level level' : Nat} {kind : Kind} (le : level ≤ level')
    (h : kind.begins level') : kind.begins level := by
  cases kind with
  | keyword w =>
    simp only [begins, Bool.or_eq_true, Bool.and_eq_true, decide_eq_true_eq] at h ⊢
    rcases h with ⟨hw, hl⟩ | ⟨hw, hl⟩
    · exact .inl ⟨hw, Nat.le_trans le hl⟩
    · exact .inr ⟨hw, by omega⟩
  | _ => exact h

/-- Tokens that an expression of level `level` or a tighter one can begin with. -/
def Begins (level : Nat) (w : List Token) : Prop :=
  ∃ t rest, w = t :: rest ∧ t.kind.begins level ∧ t.span = .nowhere

theorem Begins.ne_nil {level : Nat} {w : List Token} (h : Begins level w) : w ≠ [] := by
  obtain ⟨t, rest, rfl, -⟩ := h
  exact List.cons_ne_nil t rest

theorem Begins.append {level : Nat} {w : List Token} (h : Begins level w) (v : List Token) :
    Begins level (w ++ v) := by
  obtain ⟨t, rest, rfl, ht⟩ := h
  exact ⟨t, rest ++ v, rfl, ht⟩

theorem Begins.of_le {level level' : Nat} {w : List Token} (le : level ≤ level')
    (h : Begins level' w) : Begins level w := by
  obtain ⟨t, rest, rfl, hk, hs⟩ := h
  exact ⟨t, rest, rfl, Kind.begins_of_le le hk, hs⟩

theorem Begins.separated {level : Nat} {w : List Token} (h : Begins level w) (ws : List (List Token)) :
    Begins level (separated (w :: ws)) := by
  cases ws with
  | nil => exact h
  | cons v rest => exact h.append _

theorem begins_parenthesized (level : Nat) (w : List Token) : Begins level (parenthesized w) :=
  ⟨_, _, rfl, rfl, rfl⟩

/-- What is put in parentheses below some level begins like something of that level. -/
theorem Begins.parenthesizedIf {own level : Nat} {w : List Token} (h : Begins own w) :
    Begins level (parenthesizedIf (own < level) w) := by
  by_cases lower : own < level
  · simp only [ScriptLang.parenthesizedIf, lower, decide_true, if_true]
    exact begins_parenthesized level w
  · simp only [ScriptLang.parenthesizedIf, lower, decide_false]
    exact h.of_le (Nat.le_of_not_lt lower)

theorem Operator.level_le (operator : Operator) : operator.level ≤ 4 := by
  cases operator <;> decide

theorem Operator.le_level (operator : Operator) : 2 ≤ operator.level := by
  cases operator <;> decide

theorem Expr.level_le (e : Expr) : e.level ≤ 6 := by
  cases e with
  | binary _ _ operator _ => exact Nat.le_trans operator.level_le (by decide)
  | _ => simp only [level, Nat.le_refl, Nat.zero_le, Nat.reduceLeDiff]

theorem Grammar.level_of_isTarget {e : Expr} (h : isTarget e) : 5 ≤ e.level := by
  cases e with
  | identifier => exact Nat.le_succ 5
  | member => exact Nat.le_refl 5
  | _ => cases h

/-- The spelling of an expression begins like an expression of its level. -/
theorem Expr.begins_spelling (numerals : Numerals) :
    ∀ e : Expr, e.isWellFormed → Begins e.level (e.spelling numerals)
  | .identifier _ _, _ | .number _ _, _ | .string _ _, _ => ⟨_, _, rfl, rfl, rfl⟩
  | .object _ _, _ | .array _ _, _ => ⟨_, _, rfl, rfl, rfl⟩
  | .binary _ left operator right, h => by
    rw [isWellFormed, Bool.and_eq_true] at h
    exact (begins_spelling numerals left h.1).parenthesizedIf.append _
  | .assign _ target value, h => by
    simp only [isWellFormed, Bool.and_eq_true] at h
    exact ((begins_spelling numerals target h.1.2).of_le (Nat.zero_le _)).append _
  | .member _ base property computed, h => by
    simp only [isWellFormed, Bool.and_eq_true] at h
    exact (begins_spelling numerals base h.1.1).parenthesizedIf.append _
  | .call _ callee args, h => by
    rw [isWellFormed, Bool.and_eq_true] at h
    exact (begins_spelling numerals callee h.1).parenthesizedIf.append _
  | .function _ ⟨_, _, _, true, _⟩, _ | .function _ ⟨_, _, _, false, _⟩, _ => ⟨_, _, rfl, rfl, rfl⟩
  | .instantiate _ _ _, _ => ⟨_, _, rfl, rfl, rfl⟩

/-! ## No spelling holds an end token -/

/-- Tokens among which there is no end token. -/
def EndFree (w : List Token) : Prop := ∀ t ∈ w, t.kind ≠ .eof

@[simp] theorem endFree_nil : EndFree [] := fun _ h => nomatch h

@[simp] theorem endFree_cons (t : Token) (w : List Token) :
    EndFree (t :: w) ↔ t.kind ≠ .eof ∧ EndFree w :=
  List.forall_mem_cons

@[simp] theorem endFree_append (w v : List Token) : EndFree (w ++ v) ↔ EndFree w ∧ EndFree v :=
  List.forall_mem_append

@[simp] theorem endFree_parenthesized (w : List Token) : EndFree (parenthesized w) ↔ EndFree w := by
  simp [parenthesized, Token.ofSign]

@[simp] theorem endFree_braced (w : List Token) : EndFree (braced w) ↔ EndFree w := by
  simp [braced, Token.ofSign]

@[simp] theorem endFree_bracketed (w : List Token) : EndFree (bracketed w) ↔ EndFree w := by
  simp [bracketed, Token.ofSign]

@[simp] theorem endFree_parenthesizedIf (needed : Bool) (w : List Token) :
    EndFree (parenthesizedIf needed w) ↔ EndFree w := by
  cases needed <;> simp [parenthesizedIf]

theorem endFree_separated {ws : List (List Token)} (h : ∀ w ∈ ws, EndFree w) :
    EndFree (separated ws) := by
  induction ws with
  | nil => exact endFree_nil
  | cons w rest ih =>
    rw [List.forall_mem_cons] at h
    cases rest with
    | nil => exact h.1
    | cons v rest => simpa [separated, Token.ofSign] using ⟨h.1, ih h.2⟩

theorem endFree_parametersSpelling (names : List String) : EndFree (parametersSpelling names) := by
  rw [parametersSpelling, endFree_parenthesized]
  refine endFree_separated fun w hw => ?_
  obtain ⟨name, -, rfl⟩ := List.mem_map.mp hw
  simp [Token.ofName]

theorem endFree_markSpelling (visibility : Option Visibility) : EndFree (markSpelling visibility) := by
  rcases visibility with _ | _ | _ <;> simp [markSpelling, Token.ofKeyword]

section

variable (numerals : Numerals)

mutual

theorem Expr.endFree_spelling (e : Expr) : EndFree (e.spelling numerals) := by
  cases e with
  | identifier | number | string | null =>
    simp [Expr.spelling, Token.ofName, Token.ofNumeral, Token.ofText]
  | object _ ps => simpa [Expr.spelling] using endFree_separated (endFree_propertySpellings ps)
  | array _ es => simpa [Expr.spelling] using endFree_separated (endFree_exprSpellings es)
  | binary _ left operator right =>
    simpa [Expr.spelling, Token.ofSign] using ⟨left.endFree_spelling, right.endFree_spelling⟩
  | assign _ target value =>
    simpa [Expr.spelling, Token.ofSign] using ⟨target.endFree_spelling, value.endFree_spelling⟩
  | member _ base property computed =>
    cases computed <;>
      simpa [Expr.spelling, Token.ofSign] using ⟨base.endFree_spelling, property.endFree_spelling⟩
  | call _ callee args =>
    simpa [Expr.spelling] using ⟨callee.endFree_spelling, endFree_separated (endFree_exprSpellings args)⟩
  | function _ d => exact d.endFree_spelling
  | instantiate _ target args =>
    simpa [Expr.spelling, Token.ofKeyword] using
      ⟨target.endFree_spelling, endFree_separated (endFree_exprSpellings args)⟩

theorem endFree_exprSpellings (es : List Expr) : ∀ w ∈ exprSpellings numerals es, EndFree w := by
  cases es with
  | nil => exact fun _ h => nomatch h
  | cons e rest => exact List.forall_mem_cons.mpr ⟨e.endFree_spelling, endFree_exprSpellings rest⟩

theorem endFree_valueSpelling (before : Sign) (value : Option Expr) :
    EndFree (valueSpelling numerals before value) := by
  cases value with
  | none => exact endFree_nil
  | some e => simpa [valueSpelling, Token.ofSign] using e.endFree_spelling

theorem Property.endFree_spelling (p : Property) : EndFree (p.spelling numerals) := by
  obtain ⟨key, value, _⟩ := p
  simpa [Property.spelling, Token.ofName] using endFree_valueSpelling .colon value

theorem endFree_propertySpellings (ps : List Property) :
    ∀ w ∈ propertySpellings numerals ps, EndFree w := by
  cases ps with
  | nil => exact fun _ h => nomatch h
  | cons p rest => exact List.forall_mem_cons.mpr ⟨p.endFree_spelling, endFree_propertySpellings rest⟩

theorem VariableDeclaration.endFree_spelling (d : VariableDeclaration) :
    EndFree (d.spelling numerals) := by
  obtain ⟨name, constant, value, _⟩ := d
  simpa [VariableDeclaration.spelling, Token.ofName, Token.ofKeyword] using endFree_valueSpelling .assign value

theorem FunctionDeclaration.endFree_spelling (d : FunctionDeclaration) :
    EndFree (d.spelling numerals) := by
  obtain ⟨name, parameters, body, isAsync, _⟩ := d
  have rest := And.intro (endFree_parametersSpelling parameters) (endFree_stmtsSpelling body)
  cases name <;> cases isAsync <;>
    simpa [FunctionDeclaration.spelling, Token.ofName, Token.ofKeyword] using rest

theorem Stmt.endFree_spelling (s : Stmt) : EndFree (s.spelling numerals) := by
  cases s with
  | variableDeclaration _ d => simpa [Stmt.spelling, Token.ofSign] using d.endFree_spelling
  | functionDeclaration _ d => simpa [Stmt.spelling, Token.ofSign] using d.endFree_spelling
  | classDeclaration _ d => simpa [Stmt.spelling, Token.ofSign] using d.endFree_spelling
  | ifBlock _ condition body | whileLoop _ condition body =>
    simpa [Stmt.spelling, Token.ofSign, Token.ofKeyword] using
      ⟨condition.endFree_spelling, endFree_stmtsSpelling body⟩
  | forLoop _ loop => simpa [Stmt.spelling, Token.ofSign] using loop.endFree_spelling
  | breakLoop => simp [Stmt.spelling, Token.ofSign, Token.ofKeyword]
  | returnValue _ value =>
    simpa [Stmt.spelling, Token.ofSign, Token.ofKeyword] using value.endFree_spelling
  | expression _ value => simpa [Stmt.spelling, Token.ofSign] using value.endFree_spelling

theorem endFree_stmtsSpelling (ss : List Stmt) : EndFree (stmtsSpelling numerals ss) := by
  cases ss with
  | nil => exact endFree_nil
  | cons s rest => exact (endFree_append _ _).mpr ⟨s.endFree_spelling, endFree_stmtsSpelling rest⟩

theorem ForLoop.endFree_spelling (loop : ForLoop) : EndFree (loop.spelling numerals) := by
  obtain ⟨counter, condition, iterator, body⟩ := loop
  simpa [ForLoop.spelling, Token.ofSign, Token.ofKeyword] using
    ⟨⟨counter.endFree_spelling, condition.endFree_spelling, iterator.endFree_spelling⟩,
      endFree_stmtsSpelling body⟩

theorem ClassDeclaration.endFree_spelling (d : ClassDeclaration) : EndFree (d.spelling numerals) := by
  obtain ⟨name, superclass, members⟩ := d
  cases superclass <;>
    simpa [ClassDeclaration.spelling, superclassSpelling, Token.ofName, Token.ofKeyword] using
      endFree_membersSpelling members

theorem Member.endFree_spelling (m : Member) : EndFree (m.spelling numerals) := by
  cases m with
  | property visibility d =>
    simpa [Member.spelling, Token.ofSign] using ⟨endFree_markSpelling _, d.endFree_spelling⟩
  | method visibility d => simpa [Member.spelling] using ⟨endFree_markSpelling _, d.endFree_spelling⟩

theorem endFree_membersSpelling (ms : List Member) : EndFree (membersSpelling numerals ms) := by
  cases ms with
  | nil => exact endFree_nil
  | cons m rest => exact (endFree_append _ _).mpr ⟨m.endFree_spelling, endFree_membersSpelling rest⟩

end

end

end ScriptLang
