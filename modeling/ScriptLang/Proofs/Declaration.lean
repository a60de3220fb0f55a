/-
# ScriptLang.Proofs.Declaration — what a scope tells follows from what happened in it, and loops.

A scope refuses, protects and shows its names as its history says, whatever else is done around it.

One scope serves all passes of a `while` loop, and each pass may declare its names in it again.  So a loop
whose condition and body declare each name at most once in a pass is never refused a declaration by its own
scope, however many passes it makes.  What is declared in a pass is read off the statements that its body
comes to: a `break` ends the pass, and what follows it is not declared.
-/
import ScriptLang.Proofs.Declaration.Rules
import ScriptLang.Proofs.Flow.Returns
import ScriptLang.Proofs.Scope.History

namespace ScriptLang

/-! ## Loops under watch -/

namespace Eval

open Run

/-- A `while` loop whose scope is watched. -/
def watchedLoop (n : Nat) (condition : Expr) (body : List Stmt) (strict : Bool) (span : Span) : Run Flow := do
  if ← holds (.bounded n) condition strict then
    let scope ← newScope (← here)
    match ← within scope (whilePasses (.watching scope n) scope condition body strict n) with
    | .give v => leaveLoop v span
    | other => return other
  else return .value .null

/-- The names that the statements of a block declare where they stand when it is run from a machine: those of
all statements that it comes to. -/
def declaredRunning (self : Evaluator) : List Stmt → Bool → Machine → List String
  | [], _, _ => []
  | s :: rest, strict, m =>
    s.declared ++
      match strictDirective? s with
      | some mode => declaredRunning self rest mode m
      | none =>
        match statement self s strict m with
        | .ok (.value _) n => declaredRunning self rest strict n
        | _ => []

end Eval

/-- The names that a block declares where it stands when it is run from a machine, in steps bounded by `n`. -/
def declaredFrom : Nat → List Stmt → Bool → Machine → List String
  | 0, _, _, _ => []
  | n + 1, body, strict, m => Eval.declaredRunning (.bounded n) body strict m

/-- The passes of a `while` loop that is run from the machine `m`: the names that the condition has declared
in the pass, and the machine with which the body begins.  Before the first pass the condition is evaluated
outside the scope of the loop. -/
inductive Pass (n : Nat) (condition : Expr) (body : List Stmt) (strict : Bool) (m : Machine) :
    List String → Machine → Prop
  | first {k : Machine} : Eval.holds (.bounded n) condition strict m = .ok true k →
    Pass n condition body strict m [] k.entered
  | next {names : List String} {k l j : Machine} {v : Value} : Pass n condition body strict m names k →
    evalBlock n body strict k = .ok (.value v) l →
    Eval.holds (.bounded n) condition strict (l.mapScopes (·.beginPass k.frame.scope)) = .ok true j →
    Pass n condition body strict m condition.declared j

/-- In each pass of the loop its condition and its body together declare each name at most once. -/
structure DeclaresOnce (n : Nat) (condition : Expr) (body : List Stmt) (strict : Bool) (m : Machine) : Prop where
  check : condition.declared.Nodup
  pass : ∀ names k, Pass n condition body strict m names k → (names ++ declaredFrom n body strict k).Nodup

/-! ## Blocks -/

namespace Eval

open Run

variable {watched here : ScopeId} {self other : Evaluator}

/-- A block comes to the same under watch if each name that it declares on its way is admitted. -/
theorem watchedBlock_same (h : self.Unhindered watched other) (body : List Stmt) (strict : Bool) (m : Machine)
    (stands : m.frame.scope = here)
    (admits : m.scopes.Admits watched here (declaredRunning other body strict m)) :
    watchedBlock watched self body strict m = block other body strict m := by
  induction body generalizing strict m with
  | nil => rfl
  | cons s rest ih =>
    unfold watchedBlock block
    unfold declaredRunning at admits
    cases directive : strictDirective? s with
    | some mode =>
      simp only [directive, declared_of_strictDirective? directive, List.nil_append] at admits
      exact ih mode m stands admits
    | none =>
      have same : Unhindered watched here s.declared _ _ := watchedStatement_unhindered h s strict
      rw [directive] at admits
      refine bind_congr_at (same.same m stands admits.left) fun flow n ran => ?_
      obtain ⟨frame, path⟩ := same.stays.of_ok ran stands admits.1
      rw [ran] at admits
      cases flow with
      | value v => exact ih strict n (by rw [frame, stands]) (admits.next path)
      | leave | give v => rfl

theorem declaredRunning_sublist (self : Evaluator) (body : List Stmt) (strict : Bool) (m : Machine) :
    (declaredRunning self body strict m).Sublist (declaredInBlock body) := by
  induction body generalizing strict m with
  | nil => exact .slnil
  | cons s rest ih =>
    unfold declaredRunning
    refine (List.Sublist.refl s.declared).append ?_
    split
    · exact ih _ m
    · split
      · exact ih strict _
      · exact List.nil_sublist _

end Eval

theorem watchBlock_same {watched here : ScopeId} {n : Nat} {body : List Stmt} {strict : Bool} {m : Machine}
    (stands : m.frame.scope = here) (admits : m.scopes.Admits watched here (declaredFrom n body strict m)) :
    watchBlock watched n body strict m = evalBlock n body strict m := by
  cases n with
  | zero => rfl
  | succ n => exact Eval.watchedBlock_same (Evaluator.watching_unhindered watched n) body strict m stands admits

/-! ## Passes -/

namespace Eval

open Run

variable {n : Nat} {condition : Expr} {body : List Stmt} {strict : Bool} {m : Machine}

/-- The passes of a loop come to the same under watch, since each begins with a scope that admits what its body
declares, and leaves one that admits what the next condition and body declare. -/
theorem watchedPasses_same (once : DeclaresOnce n condition body strict m) {scope : ScopeId} (passes : Nat)
    {names : List String} {k : Machine} (pass : Pass n condition body strict m names k)
    (stands : k.frame.scope = scope) (admits : k.scopes.Admits scope scope (declaredFrom n body strict k)) :
    whilePasses (.watching scope n) scope condition body strict passes k =
      whilePasses (.bounded n) scope condition body strict passes k := by
  have parts := Evaluator.watching_unhindered scope n
  induction passes generalizing names k with
  | zero => rfl
  | succ passes ih =>
    unfold whilePasses
    refine bind_congr_at (watchBlock_same stands admits) fun flow l ran => ?_
    obtain ⟨frame, path⟩ := (parts.block body strict).stays.of_ok ran stands admits.1
    cases flow with
    | leave | give v => rfl
    | value v =>
      have there : scope < l.scopes.size := Nat.lt_of_lt_of_le admits.1 path.size_le
      let begun := l.mapScopes (·.beginPass scope)
      have begunStands : begun.frame.scope = scope := by
        rw [← stands, ← frame]
        rfl
      have begunAdmits {names : List String} (h : names.Nodup) : begun.scopes.Admits scope scope names :=
        .beginPass there h
      have check : Unhindered scope scope condition.declared _ _ := holds_unhindered parts condition strict
      show (holds _ condition strict >>= _) begun = (holds _ condition strict >>= _) begun
      refine bind_congr_at (check.same begun begunStands (begunAdmits once.check)) fun b j held => ?_
      cases b with
      | false => rfl
      | true =>
        obtain ⟨frame, path⟩ := check.stays.of_ok held begunStands (begunAdmits once.check).1
        have next : Pass n condition body strict m condition.declared j :=
          .next pass ran (by rw [stands]; exact held)
        exact ih next (by rw [frame, begunStands]) ((begunAdmits (once.pass _ j next)).next path)

/-- A loop that declares each name at most once in a pass comes to the same while its scope is watched: this
scope refuses it nothing. -/
theorem watchedLoop_same (once : DeclaresOnce n condition body strict m) (span : Span) :
    watchedLoop n condition body strict span m = whileLoop (.bounded n) condition body strict span m := by
  unfold watchedLoop whileLoop
  refine bind_congr_at rfl fun b k held => ?_
  cases b with
  | false => rw [if_neg Bool.false_ne_true, if_neg Bool.false_ne_true]
  | true =>
    have entered : whilePasses (.watching k.scopes.size n) k.scopes.size condition body strict n k.entered =
        whilePasses (.bounded n) k.scopes.size condition body strict n k.entered :=
      watchedPasses_same once n (.first held) rfl (.new k.scopes _ (once.pass [] k.entered (.first held)))
    -- inside the new scope the passes are made, and what follows them is the same
    refine bind_congr_at
      (x := within k.scopes.size (whilePasses (.watching k.scopes.size n) _ condition body strict n))
      (y := within k.scopes.size (whilePasses (.bounded n) _ condition body strict n))
      (m := k.mapScopes (·.push (some k.frame.scope))) ?_ fun _ _ _ => rfl
    rw [within_run, within_run]
    exact congrArg _ entered

/-- Where a loop declares a name twice in a pass its scope refuses the second time, and the watched loop stops
there. -/
example (host : Host) (span : Span) :
    let twice : List Stmt :=
      [.variableDeclaration span ⟨"a", false, none, none⟩, .variableDeclaration span ⟨"a", true, none, none⟩]
    (∃ k, watchedLoop 1 (.string span "on") twice true span (Machine.blank host) = .error .outOfFuel k) ∧
      ∃ k, whileLoop (.bounded 1) (.string span "on") twice true span (Machine.blank host) =
        .error (.raised ⟨span, .duplicateName "a"⟩) k :=
  ⟨⟨_, rfl⟩, ⟨_, rfl⟩⟩

end Eval

/-- That a loop declares each name at most once in a pass can be read off its text, where its condition and its
body have no name twice. -/
theorem DeclaresOnce.of_nodup {n : Nat} {condition : Expr} {body : List Stmt} {strict : Bool} {m : Machine}
    (h : (condition.declared ++ declaredInBlock body).Nodup) : DeclaresOnce n condition body strict m := by
  have bodyNames (k : Machine) : (declaredFrom n body strict k).Sublist (declaredInBlock body) := by
    cases n with
    | zero => exact List.nil_sublist _
    | succ n => exact Eval.declaredRunning_sublist _ body strict k
  refine ⟨(List.nodup_append.1 h).1, fun names k pass => ?_⟩
  cases pass with
  | first _ => exact (List.nodup_append.1 h).2.1.sublist (bodyNames _)
  | next _ _ _ => exact h.sublist ((List.Sublist.refl _).append (bodyNames _))

/-- From its creation on, what a scope refuses, protects and shows is settled by what happened in it, after any
operations on it and around it, if names are defined in it only before its first pass.  So a `while` loop that
declares each name at most once in a pass is refused nothing by its own scope: with this scope watched it
comes to the same.  All loops do so whose text has no such name twice. -/
theorem declarations_follow_history :
    (∀ (s : Scopes) (parent : Option ScopeId) (ops : List Scopes.Operation), Scopes.DefinesFirst s.size ops →
      Scopes.Tells (Scopes.history s.size (s.push parent) ops) ((s.push parent).afterAll ops) s.size) ∧
    (∀ (n : Nat) (m : Machine) (condition : Expr) (body : List Stmt) (strict : Bool) (span : Span),
      DeclaresOnce n condition body strict m →
      Eval.watchedLoop n condition body strict span m =
        Eval.whileLoop (.bounded n) condition body strict span m) ∧
    (∀ (n : Nat) (m : Machine) (condition : Expr) (body : List Stmt) (strict : Bool),
      (condition.declared ++ declaredInBlock body).Nodup → DeclaresOnce n condition body strict m) :=
  ⟨fun s parent _ first => (Scopes.follows_history s parent first).tells,
    fun _ _ _ _ _ span once => Eval.watchedLoop_same once span,
    fun _ _ _ _ _ names => .of_nodup names⟩

/-- A constant that is declared once in each of two passes. -/
def twoPasses : List Scopes.Operation :=
  [.declare 0 "y" .null true true, .beginPass 0, .declare 0 "y" (.bool true) true true]

/-- The body of a loop that declares that constant. -/
def constantBody : List Stmt := [.variableDeclaration ⟨2, 1, 5⟩ ⟨"y", true, none, none⟩]

theorem twoPasses_follow_history :
    Scopes.DefinesFirst 0 twoPasses ∧
    ((Scopes.empty.push none).afterAll twoPasses).declare 0 "y" .null true true = .error (.duplicateName "y") ∧
    ((Scopes.empty.push none).afterAll twoPasses).ownValue? 0 "y" = some (.bool true) ∧
    DeclaresOnce 3 (.string ⟨1, 8, 4⟩ "on") constantBody true (Machine.blank .live) ∧
    Eval.watchedLoop 3 (.string ⟨1, 8, 4⟩ "on") constantBody true ⟨1, 1, 5⟩ (Machine.blank .live) =
      Eval.whileLoop (.bounded 3) (.string ⟨1, 8, 4⟩ "on") constantBody true ⟨1, 1, 5⟩ (Machine.blank .live) := by
  have first : Scopes.DefinesFirst 0 twoPasses := by
    intro earlier later name value constant split
    have inside : Scopes.Operation.define 0 name value constant ∈ twoPasses := by simp [split]
    simp [twoPasses] at inside
  obtain ⟨tells, unrefused, readOff⟩ := declarations_follow_history
  have told := tells Scopes.empty none twoPasses first
  have once := readOff 3 (Machine.blank .live) (.string ⟨1, 8, 4⟩ "on") constantBody true (by decide)
  refine ⟨first, (told.refuses "y" .null true).2 ?_, told.own "y", once, unrefused _ _ _ _ _ _ once⟩
  exact ⟨[.bound "y" .null true, .passed], .bool true, true, [], rfl, List.not_mem_nil⟩

end ScriptLang
