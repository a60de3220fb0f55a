/-
# ScriptLang.Proofs.Point — the points that an evaluation comes to in a text.

The evaluation of a text, an expression or the body of a function, comes to one part of it after another, each
with a machine.  A call, an instantiation and a native function lead to another text.
-/
import ScriptLang.Proofs.Counter
import ScriptLang.Proofs.Declaration

namespace ScriptLang

/-! ## The names that a text binds -/

mutual

/-- The names that a statement binds, in its scope or in one inside it.  The bodies of functions and classes are
texts of their own. -/
def Stmt.bound : Stmt → List String
  | .ifBlock _ condition body | .whileLoop _ condition body => condition.declared ++ boundInBlock body
  | .forLoop _ loop => loop.bound
  | s => s.declared

/-- The names that a counter loop binds. -/
def ForLoop.bound : ForLoop → List String
  | ⟨counter, condition, iterator, body⟩ =>
    counter.name ::
      (declaredInValue counter.value ++ condition.declared ++ iterator.declared ++ boundInBlock body)

/-- The names that statements bind. -/
def boundInBlock : List Stmt → List String
  | [] => []
  | s :: rest => s.bound ++ boundInBlock rest

end

theorem Stmt.declared_subset_bound (s : Stmt) : s.declared ⊆ s.bound := by
  cases s with
  | ifBlock span condition body | whileLoop span condition body =>
    rw [Stmt.bound]
    exact List.subset_append_left _ _
  | forLoop span loop =>
    obtain ⟨counter, condition, iterator, body⟩ := loop
    rw [Stmt.bound, ForLoop.bound]
    intro y hy
    simp only [List.mem_cons, List.mem_append]
    exact .inr (.inl (.inl (.inl hy)))
  | _ => exact List.Subset.refl _

theorem declaredInBlock_subset_bound (body : List Stmt) : declaredInBlock body ⊆ boundInBlock body := by
  induction body with
  | nil => exact List.Subset.refl _
  | cons s rest ih =>
    rw [declaredInBlock, List.flatMap_cons, boundInBlock]
    exact List.append_subset.2 ⟨List.subset_append_of_subset_left _ s.declared_subset_bound,
      List.subset_append_of_subset_right _ ih⟩

/-! ## The parts of a text -/

/-- The expression that is evaluated for the key or the index of a member.  A key after a dot is not. -/
def keyParts : Expr → Bool → List Expr
  | .identifier _ _, false => []
  | property, _ => [property]

/-- The expressions that are evaluated for an expression, in their order. -/
def Expr.parts : Expr → List Expr
  | .identifier _ _ | .number _ _ | .string _ _ | .null _ | .function _ _ => []
  | .object _ ps => ps.filterMap Property.value
  | .array _ es => es
  | .binary _ left _ right => [left, right]
  | .assign _ (.identifier _ _) value => [value]
  | .assign _ (.member _ (.identifier _ _) property computed) value => value :: keyParts property computed
  | .assign _ _ _ => []
  | .member _ container property computed => container :: keyParts property computed
  | .call _ callee arguments => arguments ++ [callee]
  | .instantiate _ target arguments => arguments ++ [target]

/-- The expressions that are evaluated for a statement before anything else. -/
def Stmt.parts : Stmt → List Expr
  | .variableDeclaration _ d => d.value.toList
  | .ifBlock _ condition _ | .whileLoop _ condition _ => [condition]
  | .forLoop _ loop => loop.counter.value.toList
  | .returnValue _ e | .expression _ e => [e]
  | _ => []

theorem keyParts_eq_of_mem {property e : Expr} {computed : Bool} (h : e ∈ keyParts property computed) :
    keyParts property computed = [e] := by
  unfold keyParts at h ⊢
  split at h
  · cases h
  · rw [List.mem_singleton.1 h]

theorem mem_declaredInExprs {y : String} {es : List Expr} :
    y ∈ declaredInExprs es ↔ ∃ e ∈ es, y ∈ e.declared := by
  induction es with
  | nil => simp [declaredInExprs]
  | cons e rest ih => simp [declaredInExprs, ih]

theorem declaredInProperties_eq (ps : List Property) :
    declaredInProperties ps = declaredInExprs (ps.filterMap Property.value) := by
  induction ps with
  | nil => rfl
  | cons p rest ih =>
    obtain ⟨key, value, span⟩ := p
    cases value with
    | none => simpa [declaredInProperties, Property.declared] using ih
    | some e => simp [declaredInProperties, Property.declared, declaredInExprs, ih]

theorem keyParts_declared (property : Expr) (computed : Bool) :
    declaredInExprs (keyParts property computed) ⊆ property.declared := by
  unfold keyParts
  split <;> simp [declaredInExprs]

/-- What the parts of an expression declare, the expression declares. -/
theorem Expr.parts_declared (e : Expr) : declaredInExprs e.parts ⊆ e.declared := by
  intro y hy
  cases e with
  | object span ps => rwa [Expr.declared, declaredInProperties_eq]
  | array span es => rwa [Expr.declared]
  | binary span left operator right => simpa [Expr.parts, Expr.declared, declaredInExprs] using hy
  | member span container property computed =>
    rw [Expr.parts, declaredInExprs, List.mem_append] at hy
    rw [Expr.declared, List.mem_append]
    exact hy.imp_right fun hy => keyParts_declared property computed hy
  | call span callee arguments =>
    simp only [Expr.parts, mem_declaredInExprs, List.mem_append, List.mem_singleton] at hy
    rw [Expr.declared, List.mem_append, mem_declaredInExprs]
    obtain ⟨e, he | rfl, hy⟩ := hy
    · exact .inr ⟨e, he, hy⟩
    · exact .inl hy
  | instantiate span target arguments =>
    simp only [Expr.parts, mem_declaredInExprs, List.mem_append, List.mem_singleton] at hy
    rw [Expr.declared, List.mem_append, mem_declaredInExprs]
    obtain ⟨e, he | rfl, hy⟩ := hy
    · exact .inr ⟨e, he, hy⟩
    · exact .inl hy
  | assign span target value =>
    rw [Expr.declared, List.mem_append]
    unfold Expr.parts at hy
    split at hy <;> try cases ‹Expr.assign _ _ _ = _›
    · exact .inr (by simpa [declaredInExprs] using hy)
    · next property computed =>
      rw [declaredInExprs, List.mem_append] at hy
      rcases hy with hy | hy
      · exact .inr hy
      · refine .inl ?_
        rw [Expr.declared, List.mem_append]
        exact .inr (keyParts_declared property computed hy)
    · cases hy
  | _ => cases hy

theorem Stmt.parts_declared (s : Stmt) : declaredInExprs s.parts ⊆ s.declared := by
  cases s with
  | variableDeclaration span d =>
    obtain ⟨name, constant, value, visibility⟩ := d
    cases value <;> simp [Stmt.parts, Stmt.declared, declaredInExprs, declaredInValue]
  | forLoop span loop =>
    obtain ⟨⟨name, constant, value, visibility⟩, condition, iterator, body⟩ := loop
    cases value <;> simp [Stmt.parts, Stmt.declared, declaredInExprs, declaredInValue]
  | _ => simp [Stmt.parts, Stmt.declared, declaredInExprs]

/-! ## The points that an evaluation comes to -/

/-- What is evaluated at a point of a text, or done there: a name is looked up or given a value, or a function or a
class is made, which has the present scope.  Another text that is run is a run like any other. -/
inductive Code where
  | expression (e : Expr)
  | statement (s : Stmt)
  | block (statements : List Stmt)
  | body (d : FunctionDeclaration)
  | name (x : String)
  | closure
  | away (run : Run Value)

/-- The names that a piece of code binds.  Those of the body of a function are its parameters too. -/
def Code.bound : Code → List String
  | .expression e => e.declared
  | .statement s => s.bound
  | .block statements => boundInBlock statements
  | .body d => d.parameters ++ boundInBlock d.body
  | .name _ | .closure | .away _ => []

/-- A point of an evaluation: the code, the strict mode, and the machine. -/
structure Point where
  code : Code
  strict : Bool
  machine : Machine

open Eval in
/-- From one point an evaluation comes to another one in the same text.  What lies between them has ended with
values, in steps bounded by some number. -/
inductive Point.Next : Point → Point → Prop
  -- expressions
  | part {n : Nat} {strict : Bool} {m k : Machine} {e part : Expr} {before rest : List Expr} {vs : List Value} :
    e.parts = before ++ part :: rest → expressions (.bounded n) before strict m = .ok vs k →
    Next ⟨.expression e, strict, m⟩ ⟨.expression part, strict, k⟩
  | identifier {strict : Bool} {m : Machine} {span : Span} {x : String} :
    Next ⟨.expression (.identifier span x), strict, m⟩ ⟨.name x, strict, m⟩
  | shorthand {n : Nat} {strict : Bool} {m k : Machine} {span s : Span} {x : String}
    {before rest : List Property} {vs : List Value} :
    expressions (.bounded n) (before.filterMap Property.value) strict m = .ok vs k →
    Next ⟨.expression (.object span (before ++ ⟨x, none, s⟩ :: rest)), strict, m⟩ ⟨.name x, strict, k⟩
  | assigned {n : Nat} {strict : Bool} {m k : Machine} {span s : Span} {x : String} {value : Expr} {v : Value} :
    evalExpression n value strict m = .ok v k →
    Next ⟨.expression (.assign span (.identifier s x) value), strict, m⟩ ⟨.name x, strict, k⟩
  | container {strict : Bool} {m : Machine} {span s t : Span} {x : String} {property value : Expr}
    {computed : Bool} :
    Next ⟨.expression (.assign span (.member s (.identifier t x) property computed) value), strict, m⟩
      ⟨.name x, strict, m⟩
  | rebound {n : Nat} {strict : Bool} {m k l : Machine} {span s t : Span} {x : String} {property value : Expr}
    {computed : Bool} {read v updated : Value} :
    evalExpression n value strict m = .ok v k →
    withMember (.bounded n) read property computed v strict span k = .ok updated l →
    Next ⟨.expression (.assign span (.member s (.identifier t x) property computed) value), strict, m⟩
      ⟨.name x, strict, l⟩
  | function {strict : Bool} {m : Machine} {span : Span} {d : FunctionDeclaration} :
    Next ⟨.expression (.function span d), strict, m⟩ ⟨.closure, strict, m⟩
  | call {n : Nat} {strict : Bool} {m k : Machine} {span : Span} {callee : Expr} {arguments : List Expr}
    {f : Value} {args : List Value} :
    expressions (.bounded n) (arguments ++ [callee]) strict m = .ok (args ++ [f]) k →
    Next ⟨.expression (.call span callee arguments), strict, m⟩
      ⟨.away (Eval.call (.bounded n) f args strict span), strict, k⟩
  | instantiation {n : Nat} {strict : Bool} {m k : Machine} {span : Span} {target : Expr}
    {arguments : List Expr} {c : Class} {args : List Value} :
    expressions (.bounded n) (arguments ++ [target]) strict m = .ok (args ++ [.classValue c]) k →
    Next ⟨.expression (.instantiate span target arguments), strict, m⟩
      ⟨.away (Eval.instantiate (.bounded n) c args strict span), strict, k⟩
  -- statements
  | begin {strict : Bool} {m : Machine} {s : Stmt} {e : Expr} : e ∈ s.parts →
    Next ⟨.statement s, strict, m⟩ ⟨.expression e, strict, m⟩
  | functionDeclaration {strict : Bool} {m : Machine} {span : Span} {d : FunctionDeclaration} :
    Next ⟨.statement (.functionDeclaration span d), strict, m⟩ ⟨.closure, strict, m⟩
  | superclass {strict : Bool} {m : Machine} {span : Span} {d : ClassDeclaration} {x : String} :
    d.superclass = some x → Next ⟨.statement (.classDeclaration span d), strict, m⟩ ⟨.name x, strict, m⟩
  | classDeclaration {strict : Bool} {m : Machine} {span : Span} {d : ClassDeclaration} :
    Next ⟨.statement (.classDeclaration span d), strict, m⟩ ⟨.closure, strict, m⟩
  | ifBody {n : Nat} {strict : Bool} {m k : Machine} {span : Span} {condition : Expr} {body : List Stmt} :
    holds (.bounded n) condition strict m = .ok true k →
    Next ⟨.statement (.ifBlock span condition body), strict, m⟩ ⟨.block body, strict, k.entered⟩
  | whileBody {n : Nat} {strict : Bool} {m k : Machine} {span : Span} {condition : Expr} {body : List Stmt}
    {names : List String} :
    Pass n condition body strict m names k →
    Next ⟨.statement (.whileLoop span condition body), strict, m⟩ ⟨.block body, strict, k⟩
  | whileCondition {n : Nat} {strict : Bool} {m k l : Machine} {span : Span} {condition : Expr}
    {body : List Stmt} {names : List String} {v : Value} :
    Pass n condition body strict m names k → evalBlock n body strict k = .ok (.value v) l →
    Next ⟨.statement (.whileLoop span condition body), strict, m⟩
      ⟨.expression condition, strict, l.mapScopes (·.beginPass k.frame.scope)⟩
  | forCondition {n k : Nat} {strict : Bool} {m mk : Machine} {span : Span} {loop : ForLoop} {c : Float} :
    Counts n loop strict m k c mk →
    Next ⟨.statement (.forLoop span loop), strict, m⟩ ⟨.expression loop.condition, strict, mk.inPass loop c⟩
  | forBody {n k : Nat} {strict : Bool} {m mk checked : Machine} {span : Span} {loop : ForLoop} {c : Float} :
    Counts n loop strict m k c mk →
    holds (.bounded n) loop.condition strict (mk.inPass loop c) = .ok true checked →
    Next ⟨.statement (.forLoop span loop), strict, m⟩ ⟨.block loop.body, strict, checked⟩
  | forStep {n k : Nat} {strict : Bool} {m mk done : Machine} {span : Span} {loop : ForLoop} {c : Float}
    {v : Value} :
    Counts n loop strict m k c mk → forPass (.bounded n) loop strict (mk.inPass loop c) = .ok (.value v) done →
    Next ⟨.statement (.forLoop span loop), strict, m⟩
      ⟨.expression (stepExpression loop.iterator), strict, done.pinned loop mk.scopes.size c⟩
  -- blocks
  | body {strict : Bool} {m : Machine} {d : FunctionDeclaration} :
    Next ⟨.body d, strict, m⟩ ⟨.block d.body, strict, m⟩
  | first {strict : Bool} {m : Machine} {s : Stmt} {rest : List Stmt} : strictDirective? s = none →
    Next ⟨.block (s :: rest), strict, m⟩ ⟨.statement s, strict, m⟩
  | directive {strict mode : Bool} {m : Machine} {s : Stmt} {rest : List Stmt} : strictDirective? s = some mode →
    Next ⟨.block (s :: rest), strict, m⟩ ⟨.block rest, mode, m⟩
  | later {n : Nat} {strict : Bool} {m k : Machine} {s : Stmt} {rest : List Stmt} {v : Value} :
    strictDirective? s = none → statement (.bounded n) s strict m = .ok (.value v) k →
    Next ⟨.block (s :: rest), strict, m⟩ ⟨.block rest, strict, k⟩

/-- From one point an evaluation comes to another one in the same text, by any number of steps. -/
abbrev Point.Comes : Point → Point → Prop := Relation.ReflTransGen Point.Next

namespace Point.Comes

variable {p : Point} {strict : Bool} {m : Machine} {e part : Expr} {rest : List Expr}

theorem first (comes : p.Comes ⟨.expression e, strict, m⟩) (split : e.parts = part :: rest) :
    p.Comes ⟨.expression part, strict, m⟩ :=
  comes.tail (@Next.part 0 strict m m e part [] rest [] split rfl)

theorem second {n : Nat} {k : Machine} {before : Expr} {v : Value} (comes : p.Comes ⟨.expression e, strict, m⟩)
    (split : e.parts = before :: part :: rest) (ran : evalExpression n before strict m = .ok v k) :
    p.Comes ⟨.expression part, strict, k⟩ :=
  comes.tail (@Next.part n strict m k e part [before] rest [v] split (Run.bind_of_ok ran))

end Point.Comes

end ScriptLang
