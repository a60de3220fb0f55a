/-
# ScriptLang.Proofs.Display — displayed data reads back.

The text of data is a program: the literal for that data.  In a scope that sees the constants of the language
a literal comes to a value that a host takes for the data, and changes nothing but the next stamp.  So where
a new session runs the text of data, the data comes out again, unless the text is a directive.
-/
import ScriptLang.Proofs.Display.Data
import ScriptLang.Proofs.Program
import ScriptLang.Proofs.Scope.Lookup

namespace ScriptLang

/-! ## Trees with other places -/

namespace Expr

variable {e : Expr}

theorem of_bare_identifier {name : String} (h : e.bare = .identifier .nowhere name) :
    ∃ span, e = .identifier span name := by
  cases e with
  | identifier span x =>
    cases h
    exact ⟨span, rfl⟩
  | _ => cases h

theorem of_bare_number {x : Float} (h : e.bare = .number .nowhere x) : ∃ span, e = .number span x := by
  cases e with
  | number span y =>
    cases h
    exact ⟨span, rfl⟩
  | _ => cases h

theorem of_bare_string {text : String} (h : e.bare = .string .nowhere text) :
    ∃ span, e = .string span text := by
  cases e with
  | string span s =>
    cases h
    exact ⟨span, rfl⟩
  | _ => cases h

theorem of_bare_array {es : List Expr} (h : e.bare = .array .nowhere es) :
    ∃ span ds, e = .array span ds ∧ ds.map bare = es := by
  cases e with
  | array span ds =>
    simp only [bare, relocate, relocateExprs_eq_map, array.injEq, true_and] at h
    exact ⟨span, ds, rfl, h⟩
  | _ => cases h

theorem of_bare_object {ps : List Property} (h : e.bare = .object .nowhere ps) :
    ∃ span qs, e = .object span qs ∧ qs.map (Property.relocate fun _ => .nowhere) = ps := by
  cases e with
  | object span qs =>
    simp only [bare, relocate, relocateProperties_eq_map, object.injEq, true_and] at h
    exact ⟨span, qs, rfl, h⟩
  | _ => cases h

end Expr

/-! ## Runs that make a value -/

/-- The run comes to what `good` says, and changes nothing but the next stamp. -/
def Run.Makes {α : Type} (m : Machine) (good : α → Prop) (x : Run α) : Prop :=
  ∀ k, ∃ a k', x { m with stamps := k } = .ok a { m with stamps := k' } ∧ good a

namespace Run.Makes

variable {α β : Type} {m : Machine} {P : α → Prop} {Q : β → Prop}

theorem pure {a : α} (h : P a) : Makes m P (Pure.pure a) := fun k => ⟨a, k, rfl, h⟩

theorem bind {x : Run α} {f : α → Run β} (h : Makes m P x) (next : ∀ a, P a → Makes m Q (f a)) :
    Makes m Q (x >>= f) := by
  intro k
  obtain ⟨a, k', made, ha⟩ := h k
  obtain ⟨b, k'', made', hb⟩ := next a ha k'
  exact ⟨b, k'', by rw [bind_run, made]; exact made', hb⟩

theorem mono {P' : α → Prop} {x : Run α} (h : Makes m P x) (le : ∀ a, P a → P' a) : Makes m P' x := by
  intro k
  obtain ⟨a, k', made, ha⟩ := h k
  exact ⟨a, k', made, le a ha⟩

theorem newStamp : Makes m (fun _ => True) Run.newStamp := fun k => ⟨k, k + 1, rfl, trivial⟩

theorem lookup {name : String} {v : Value} (h : m.scopes.value m.frame.scope name = .ok v) (span : Span) :
    Makes m (· = v) (Run.lookup name span) := by
  intro k
  refine ⟨v, k, ?_, rfl⟩
  show settle span (m.scopes.value m.frame.scope name) _ = _
  rw [h]
  rfl

end Run.Makes

/-! ## Evaluation of literals -/

/-- The frame sees the constants of the language. -/
structure Machine.SeesConstants (m : Machine) : Prop where
  null : m.scopes.value m.frame.scope "null" = .ok .null
  bool : ∀ b, m.scopes.value m.frame.scope (if b then "true" else "false") = .ok (.bool b)

/-- A key behind all keys that are there is added at the end. -/
theorem Properties.insert_last {ps : Properties} {key : String} (h : ∀ p ∈ ps, p.1 < key) (v : Value) :
    Properties.insert key v ps = ps ++ [(key, v)] := by
  induction ps with
  | nil => rfl
  | cons p rest ih =>
    obtain ⟨k, w⟩ := p
    obtain ⟨first, others⟩ := List.forall_mem_cons.1 h
    have before : k < key := first
    rw [insert, if_neg (String.ne_of_lt before), if_neg (String.lt_asymm before), ih others,
      List.cons_append]

namespace Value

variable {m : Machine}

/-- With any bound from some point on, a literal makes a value that a host takes for the data. -/
def Evaluates (m : Machine) (v : Value) : Prop :=
  ∃ N, ∀ n, N ≤ n → ∀ e strict, e.bare = v.literal →
    Run.Makes m (fun w => w.hostEqual v) (evalExpression n e strict)

/-- One more step is enough for what a rule makes of its parts. -/
theorem Evaluates.of_rule {v : Value} {N : Nat}
    (h : ∀ n, N ≤ n → ∀ e strict, e.bare = v.literal →
      Run.Makes m (fun w => w.hostEqual v) (Eval.expression (.bounded n) e strict)) : v.Evaluates m := by
  refine ⟨N + 1, fun n enough e strict same => ?_⟩
  obtain ⟨n, rfl⟩ := Nat.exists_eq_succ_of_ne_zero (Nat.ne_zero_of_lt enough)
  exact h n (Nat.le_of_succ_le_succ enough) e strict same

theorem expressions_make {vs : List Value} (h : ∀ v ∈ vs, v.Evaluates m) :
    ∃ N, ∀ n, N ≤ n → ∀ es strict, es.map Expr.bare = vs.map literal →
      Run.Makes m (fun ws => hostEqualElements ws vs) (Eval.expressions (.bounded n) es strict) := by
  induction vs with
  | nil =>
    refine ⟨0, fun n _ es strict same => ?_⟩
    obtain rfl := List.map_eq_nil_iff.1 same
    exact .pure rfl
  | cons v rest ih =>
    obtain ⟨first, others⟩ := List.forall_mem_cons.1 h
    obtain ⟨N, one⟩ := first
    obtain ⟨M, more⟩ := ih others
    refine ⟨max N M, fun n enough es strict same => ?_⟩
    obtain ⟨e, es, rfl, this, those⟩ := List.map_eq_cons_iff.1 same
    refine (one n (le_of_max_le_left enough) e strict this).bind fun w hw => ?_
    refine (more n (le_of_max_le_right enough) es strict those).bind fun ws hws => ?_
    exact .pure (by simp [hostEqualElements, hw, hws])

theorem properties_make {ps : List (String × Value)} (ordered : (ps.map Prod.fst).Pairwise (· < ·))
    (h : ∀ p ∈ ps, p.2.Evaluates m) :
    ∃ N, ∀ n, N ≤ n → ∀ qs strict (done : Properties), qs.map (Property.relocate fun _ => .nowhere) = ps.map entry →
      (∀ d ∈ done, ∀ p ∈ ps, d.1 < p.1) →
      Run.Makes m (fun made => ∃ ws, made = done ++ ws ∧ hostEqualProperties ws ps)
        (Eval.properties (.bounded n) qs strict done) := by
  induction ps with
  | nil =>
    refine ⟨0, fun n _ qs strict done same _ => ?_⟩
    obtain rfl := List.map_eq_nil_iff.1 same
    exact .pure ⟨[], (List.append_nil _).symm, rfl⟩
  | cons p rest ih =>
    obtain ⟨key, v⟩ := p
    obtain ⟨first, others⟩ := List.forall_mem_cons.1 h
    rw [List.map_cons, List.pairwise_cons] at ordered
    obtain ⟨N, one⟩ := first
    obtain ⟨M, more⟩ := ih ordered.2 others
    refine ⟨max N M, fun n enough qs strict done same behind => ?_⟩
    obtain ⟨q, qs, rfl, this, those⟩ := List.map_eq_cons_iff.1 same
    obtain ⟨qkey, qvalue, qspan⟩ := q
    cases qvalue with
    | none => cases this
    | some e =>
      obtain ⟨rfl, value⟩ : qkey = key ∧ e.bare = v.literal := by
        simpa [Property.relocate, relocateValue, entry, Expr.bare] using this
      refine (one n (le_of_max_le_left enough) e strict value).bind fun w hw => ?_
      have last : Properties.insert qkey w done = done ++ [(qkey, w)] :=
        Properties.insert_last (fun d hd => behind d hd (qkey, v) List.mem_cons_self) w
      show Run.Makes m _ (Eval.properties (.bounded n) qs strict (Properties.insert qkey w done))
      rw [last]
      -- the keys that follow stand behind this one as well
      have behind' : ∀ d ∈ done ++ [(qkey, w)], ∀ p ∈ rest, d.1 < p.1 := by
        intro d hd p hp
        rcases List.mem_append.1 hd with before | this
        · exact behind d before p (List.mem_cons_of_mem _ hp)
        · obtain rfl := List.mem_singleton.1 this
          exact ordered.1 p.1 (List.mem_map_of_mem hp)
      refine (more n (le_of_max_le_right enough) qs strict _ those behind').mono ?_
      rintro made ⟨ws, rfl, hws⟩
      exact ⟨(qkey, w) :: ws, by simp, by simp [hostEqualProperties, hw, hws]⟩

theorem IsData.evaluates (sees : m.SeesConstants) {v : Value} (h : v.IsData) : v.Evaluates m := by
  induction h with
  | null =>
    refine .of_rule (N := 0) fun n _ e strict same => ?_
    obtain ⟨span, rfl⟩ := Expr.of_bare_identifier same
    refine (Run.Makes.lookup sees.null span).mono ?_
    rintro w rfl
    rfl
  | bool b =>
    refine .of_rule (N := 0) fun n _ e strict same => ?_
    obtain ⟨span, rfl⟩ := Expr.of_bare_identifier same
    refine (Run.Makes.lookup (sees.bool b) span).mono ?_
    rintro w rfl
    exact beq_self_eq_true b
  | @number x finite notBelow =>
    refine .of_rule (N := 0) fun n _ e strict same => ?_
    obtain ⟨span, rfl⟩ := Expr.of_bare_number same
    exact .pure (Number.unsigned_beq finite (Number.clear_or_zero finite notBelow))
  | @string s noQuote =>
    refine .of_rule (N := 0) fun n _ e strict same => ?_
    obtain ⟨span, rfl⟩ := Expr.of_bare_string same
    exact .pure (beq_self_eq_true s)
  | @array stamp vs elements ih =>
    obtain ⟨N, made⟩ := expressions_make ih
    refine .of_rule (N := N) fun n enough e strict same => ?_
    obtain ⟨span, es, rfl, parts⟩ := Expr.of_bare_array same
    rw [literals_eq_map] at parts
    refine (made n enough es strict parts).bind fun ws hws => ?_
    exact Run.Makes.newStamp.bind fun k _ => .pure hws
  | @object stamp ps ordered keys values ih =>
    obtain ⟨N, made⟩ := properties_make ordered ih
    refine .of_rule (N := N) fun n enough e strict same => ?_
    obtain ⟨span, qs, rfl, parts⟩ := Expr.of_bare_object same
    rw [entries_eq_map] at parts
    refine (made n enough qs strict [] parts nofun).bind fun ws hws => ?_
    obtain ⟨ws, rfl, hws⟩ := hws
    exact Run.Makes.newStamp.bind fun k _ => .pure hws

end Value

/-! ## New sessions -/

theorem Scopes.ownValue?_define (s : Scopes) {id : ScopeId} (h : id < s.size) (name x : String) (v : Value)
    (constant : Bool) :
    (s.define id name v constant).ownValue? id x = if x = name then some v else s.ownValue? id x := by
  unfold ownValue? own? define
  rw [bindings_update _ _ _ _ h, if_pos rfl, Bindings.get?_set]
  split <;> rfl

theorem Scopes.size_define (s : Scopes) (id : ScopeId) (name : String) (v : Value) (constant : Bool) :
    (s.define id name v constant).size = s.size :=
  size_update _ _ _

/-- The global scope of a new session binds the constants, and a result object without a result. -/
theorem Machine.initial_binds (host : Host) :
    (Machine.initial host).frame = ⟨0, 0⟩ ∧
      (Machine.initial host).scopes.ownValue? 0 "null" = some .null ∧
      (∀ b : Bool, (Machine.initial host).scopes.ownValue? 0 (if b then "true" else "false") = some (.bool b)) ∧
      ∃ stamp, (Machine.initial host).scopes.ownValue? 0 Builtin.resultObject = some (.object stamp []) := by
  have define (name : String) (v : Value) (constant : Bool) (m : Machine) :
      Builtin.defineGlobal name v constant m = .ok () (m.mapScopes (·.define 0 name v constant)) := rfl
  have stamp (m : Machine) : Run.newStamp m = .ok m.stamps { m with stamps := m.stamps + 1 } := rfl
  have pure_run {α : Type} (a : α) (m : Machine) : (pure a : Run α) m = .ok a m := rfl
  -- the definitions are carried out one after another
  unfold Machine.initial Builtin.defineGlobals
  simp only [Run.bind_run, define, stamp, pure_run, Builtin.globalFunctions, Builtin.objectFunctions,
    List.forM, List.mapM_cons, List.mapM_nil, Run.newObject, Machine.mapScopes, Machine.blank]
  simp [Scopes.ownValue?_define, Scopes.size_define, Native.name, Builtin.resultObject]

theorem Machine.initial_seesConstants (host : Host) : (Machine.initial host).SeesConstants := by
  obtain ⟨frame, null, bool, -⟩ := initial_binds host
  constructor
  · rw [frame]
    exact Scopes.value_of_own null
  · intro b
    rw [frame]
    exact Scopes.value_of_own (bool b)

theorem Machine.initial_result (host : Host) : (Machine.initial host).scopes.result? 0 = none := by
  obtain ⟨-, -, -, stamp, object⟩ := initial_binds host
  rw [Scopes.result?, Scopes.value_of_own object]
  rfl

/-- The statement that the text of data is read as is a directive for two strings only. -/
theorem Value.not_isDirective {v : Value} (noDirective : v ≠ .string "strict on" ∧ v ≠ .string "strict off")
    {span : Span} {e : Expr} (same : e.bare = v.literal) : (Stmt.expression span e).isDirective = false := by
  cases e with
  | string place text =>
    cases v with
    | string s =>
      obtain rfl : text = s := by
        simpa [Expr.bare, Expr.relocate, literal] using same
      simp only [ne_eq, string.injEq] at noDirective
      simp [Stmt.isDirective, Eval.strictDirective?, noDirective.1, noDirective.2]
    | _ => cases same
  | _ => rfl

/-- The text of data, run in a new session, comes to a value that equals the data, unless it is the text of a
directive. -/
theorem displayed_data_reads_back {v : Value} (data : v.IsData)
    (noDirective : v ≠ .string "strict on" ∧ v ≠ .string "strict off") (host : Host) :
    ∃ N, ∀ n, N ≤ n → ∃ w m, (Machine.initial host).run n v.text = (.value w, m) ∧ w.hostEqual v := by
  obtain ⟨q, read, shape⟩ := data.text_read
  obtain ⟨s, rfl, same⟩ := List.map_eq_singleton_iff.1 shape
  obtain ⟨span, e, rfl, value⟩ : ∃ span e, s = .expression span e ∧ e.bare = v.literal := by
    cases s with
    | expression span e => exact ⟨span, e, rfl, (Stmt.expression.inj same).2⟩
    | _ => cases same
  obtain ⟨N, made⟩ := data.evaluates (Machine.initial_seesConstants host)
  have noResult := Machine.initial_result host
  obtain ⟨frame, -⟩ := Machine.initial_binds host
  refine ⟨N, fun n enough => ?_⟩
  generalize Machine.initial host = m at *
  obtain ⟨w, k, ran, equal⟩ := made n enough e false value m.stamps
  refine ⟨w, { m with stamps := k }, ?_, equal⟩
  have valued : (Stmt.expression span e).isDirective = false := Value.not_isDirective noDirective value
  have whole : Eval.program (.bounded n) [.expression span e] m = .ok w { m with stamps := k } := by
    have nothingMore : ∀ s ∈ ([] : Program), s.isDirective := nofun
    have statements := Eval.programFrom_endsWith (.bounded n) false .null [] valued nothingMore
    have last : Eval.programFrom (.bounded n) [.expression span e] false .null m =
        .ok w { m with stamps := k } :=
      (congrFun statements m).trans ran
    rw [Eval.program_run, last]
    show EStateM.Result.ok ((m.scopes.result? m.frame.scope).getD w) _ = _
    rw [frame, noResult, Option.getD_none]
  have outside : { m with frame := ⟨m.frame.scope, 0⟩ } = m := by
    rw [frame, ← frame]
  unfold Machine.run
  rw [read]
  dsimp only
  unfold Run.inProgram Run.withFrame
  dsimp only
  rw [outside, whole]

/-- An object with a number, an empty object, and an array with a text of two lines. -/
def receipt : Value :=
  .object 3 [("cost", .number 1.5), ("note", .object 1 []),
    ("paid", .array 2 [.bool true, .null, .string "in\nfull"])]

theorem receipt_reads_back :
    receipt.text = "\x7b cost: 1.5, note: \x7b\x7d, paid: [true, null, \"in\nfull\"] \x7d" ∧
      ∃ N, ∀ n, N ≤ n → ∃ w m,
        (Machine.initial (.closed [] [] 0.0)).run n receipt.text = (.value w, m) ∧ w.hostEqual receipt := by
  have cost : Kind.identifier.Spells "cost".toList :=
    Kind.identifier_spells (by decide) (by decide) (by decide +kernel)
  have note : Kind.identifier.Spells "note".toList :=
    Kind.identifier_spells (by decide) (by decide) (by decide +kernel)
  have paid : Kind.identifier.Spells "paid".toList :=
    Kind.identifier_spells (by decide) (by decide) (by decide +kernel)
  have data : receipt.IsData := by
    refine .object 3 (by decide) ?_ ?_
    · simpa [receipt] using And.intro cost ⟨note, paid⟩
    · simp only [List.mem_cons, List.not_mem_nil, or_false, forall_eq_or_imp, forall_eq]
      refine ⟨.number (by decide) (by decide +kernel), .object 1 .nil nofun nofun, .array 2 ?_⟩
      simp only [List.mem_cons, List.not_mem_nil, or_false, forall_eq_or_imp, forall_eq]
      exact ⟨.bool true, .null, .string (by decide)⟩
  exact ⟨by decide +kernel, displayed_data_reads_back data ⟨nofun, nofun⟩ _⟩

end ScriptLang
