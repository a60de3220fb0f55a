/-
# ScriptLang.Proofs.Alike.Expression — expressions that differ only in places run alike.

One lemma for each rule of expressions.  The sources that a program runs are read anew on both sides, so
they are alike if they speak only of what the likeness admits.
-/
import ScriptLang.Eval.Expression
import ScriptLang.Proofs.Alike.Operation
import ScriptLang.Proofs.Alike.Statement

namespace ScriptLang

/-- What a likeness needs so that runs are alike: it speaks about the variable of results, and the
sources that may be run are alike to themselves, all sources being such if `evaluate` may occur. -/
structure Likeness.Lawful (L : Likeness) : Prop where
  result : L.names Builtin.resultObject
  evaluates : L.natives .evaluate → ∀ text, L.sources text
  nested : ∀ text p, L.sources text → Program.ofSource? text = .ok p → p.Alike L p

variable {L : Likeness}

/-- Assemblies of an instance that differ only in places. -/
structure Eval.Assembly.Alike (L : Likeness) (a a' : Eval.Assembly) : Prop where
  visible : a'.visible = a.visible
  named : ∀ x ∈ a.visible, L.names x
  constructor : Option.Rel (Function.Alike L) a.constructor a'.constructor

/-- Members laid into an instance: those of all classes of a lineage. -/
theorem Class.Alike.members {c c' : Class} (h : c.Alike L c') :
    List.Forall₂ (Member.Alike L) (c.lineage.flatMap (·.declaration.members))
      (c'.lineage.flatMap (·.declaration.members)) := by
  have layers : List.Forall₂ (ClassLayer.Alike L) c.lineage c'.lineage :=
    List.rel_reverse (.cons h.layer h.ancestors)
  refine List.rel_flatMap layers fun d d' hd => ?_
  cases d with
  | mk stamp declaration closure =>
    cases d' with
    | mk stamp' declaration' closure' =>
      cases hd.declaration with
      | mk hn hp hm => exact hm

namespace Eval

open Run

namespace Assembly

theorem Alike.mark {a a' : Assembly} (h : a.Alike L a') {name : String} (hn : L.names name)
    (visibility : Visibility) : (a.mark name visibility).Alike L (a'.mark name visibility) := by
  cases visibility with
  | visible =>
    refine ⟨?_, ?_, h.constructor⟩
    · simp only [Assembly.mark, h.visible]
    · intro x hx
      simp only [Assembly.mark] at hx
      split at hx
      · exact h.named x hx
      · rcases List.mem_append.1 hx with hx | hx
        · exact h.named x hx
        · rw [List.mem_singleton.1 hx]
          exact hn
  | hidden =>
    refine ⟨?_, ?_, h.constructor⟩
    · simp only [Assembly.mark, h.visible]
    · intro x hx
      exact h.named x (List.mem_filter.1 hx).1

end Assembly

/-! ## Native functions -/

theorem print_alike {args args' : List Value} (h : List.Forall₂ (Value.Alike L) args args') :
    Run.Alike L Eq (Builtin.print args) (Builtin.print args') := by
  induction h with
  | nil => exact .pure rfl
  | cons first rest ih =>
    unfold Builtin.print
    rw [Builtin.printedText_alike first]
    exact (Alike.emit _).bind_eq fun _ => ih

/-- The text of a file may be run. -/
theorem readFile_alike (n : Native) {args args' : List Value}
    (h : List.Forall₂ (Value.Alike L) args args') {s s' : Span} (hs : L.spans s s') :
    Run.Alike L (fun a b => a = b ∧ L.sources a) (Builtin.readFile n args s)
      (Builtin.readFile n args' s') := by
  unfold Builtin.readFile
  rw [Builtin.path_alike n h]
  refine (Alike.settle hs (.refl _)).bind_eq fun p => (Alike.file p).bind fun found found' hf => ?_
  obtain ⟨rfl, admitted⟩ := hf
  cases found with
  | error reason => exact .raise hs _
  | ok text => exact .pure ⟨rfl, admitted text rfl⟩

theorem prompt_alike {args args' : List Value} (h : List.Forall₂ (Value.Alike L) args args')
    {s s' : Span} (hs : L.spans s s') :
    Run.Alike L (Value.Alike L) (Builtin.prompt args s) (Builtin.prompt args' s') := by
  unfold Builtin.prompt
  rw [Builtin.joined_alike .prompt h]
  refine (Alike.settle hs (.refl _)).bind_eq fun text => (Alike.emit _).bind_eq fun _ => ?_
  refine Alike.answer.bind_eq fun line => ?_
  cases line with
  | some line => exact .pure (.string line)
  | none => exact .pure .null

theorem bindParameters_alike (scope : ScopeId) (strict : Bool) {s s' : Span} (hs : L.spans s s')
    {parameters : List String} (hp : ∀ x ∈ parameters, L.names x) {args args' : List Value}
    (h : List.Forall₂ (Value.Alike L) args args') :
    Run.Alike L Eq (bindParameters scope strict s (parameters.zip args))
      (bindParameters scope strict s' (parameters.zip args')) := by
  induction h generalizing parameters with
  | nil =>
    rw [List.zip_nil_right]
    exact .pure rfl
  | cons first rest ih =>
    cases parameters with
    | nil => exact .pure rfl
    | cons x xs =>
      obtain ⟨hx, hxs⟩ := List.forall_mem_cons.1 hp
      exact (Alike.declareIn scope hx first false strict hs).bind fun _ _ _ => ih hxs

theorem readNames_alike (scope : ScopeId) {s s' : Span} (hs : L.spans s s') {names : List String}
    (hn : ∀ x ∈ names, L.names x) {done done' : Properties} (hd : done.Alike L done') :
    Run.Alike L (Properties.Alike L) (readNames scope s names done) (readNames scope s' names done') := by
  induction names generalizing done done' with
  | nil => exact .pure hd
  | cons x rest ih =>
    obtain ⟨hx, hr⟩ := List.forall_mem_cons.1 hn
    exact (Alike.lookupFrom scope hx hs).bind fun v v' hv => ih hr (hd.insert x hv)

variable {self : Evaluator} (h : self.Alike L)

include h

theorem expressions_alike {es es' : List Expr} (he : List.Forall₂ (Expr.Alike L) es es')
    (strict : Bool) :
    Run.Alike L (List.Forall₂ (Value.Alike L)) (expressions self es strict)
      (expressions self es' strict) := by
  induction he with
  | nil => exact .pure .nil
  | cons first rest ih =>
    refine (h.expression first strict).bind fun v v' hv => ih.bind fun vs vs' hvs => ?_
    exact .pure (.cons hv hvs)

theorem properties_alike {ps ps' : List Property} (hp : List.Forall₂ (Property.Alike L) ps ps')
    (strict : Bool) {done done' : Properties} (hd : done.Alike L done') :
    Run.Alike L (Properties.Alike L) (properties self ps strict done)
      (properties self ps' strict done') := by
  induction hp generalizing done done' with
  | nil => exact .pure hd
  | cons first rest ih =>
    cases first with
    | named hs hn => exact (Alike.lookup hn hs).bind fun v v' hv => ih (hd.insert _ hv)
    | valued hs he => exact (h.expression he strict).bind fun v v' hv => ih (hd.insert _ hv)

/-! ## Members -/

theorem propertyKey_alike {property property' : Expr} (hp : property.Alike L property')
    (computed strict : Bool) :
    Run.Alike L Eq (propertyKey self property computed strict)
      (propertyKey self property' computed strict) := by
  have evaluated {f f' : Value → Run String}
      (k : ∀ v v', v.Alike L v' → Run.Alike L Eq (f v) (f' v')) :
      Run.Alike L Eq (self.expression property strict >>= f) (self.expression property' strict >>= f') :=
    (h.expression hp strict).bind k
  have hs := hp.span
  rcases Bool.eq_false_or_eq_true computed with rfl | rfl
  · refine evaluated fun v v' hv => ?_
    cases hv with
    | string key => exact .pure rfl
    | _ => exact .raise hs _
  · cases hp with
    | identifier hs hn => exact .pure rfl
    | _ =>
      refine evaluated fun v v' hv => ?_
      cases hv with
      | string key => exact .pure rfl
      | _ => exact .raise hs _

theorem elementPlace_alike {index index' : Expr} (hi : index.Alike L index') (length : Nat)
    (strict : Bool) {s s' : Span} (hs : L.spans s s') :
    Run.Alike L Eq (elementPlace self index length strict s)
      (elementPlace self index' length strict s') := by
  refine (h.expression hi strict).bind fun v v' hv => ?_
  rw [elementPosition_alike hv]
  exact .settle hs (.refl _)

theorem memberValue_alike {container container' : Value} (hc : container.Alike L container')
    {property property' : Expr} (hp : property.Alike L property') (computed strict : Bool)
    {s s' : Span} (hs : L.spans s s') :
    Run.Alike L (Value.Alike L) (memberValue self container property computed strict s)
      (memberValue self container' property' computed strict s') := by
  cases hc with
  | @object stamp ps ps' hps =>
    refine (propertyKey_alike h hp computed strict).bind_eq fun key => ?_
    have found := Properties.Alike.get? hps key
    generalize Properties.get? key ps = before, Properties.get? key ps' = after at found
    cases found with
    | none => exact .raise hs _
    | some hv => exact .pure hv
  | @array stamp vs vs' hvs =>
    cases computed with
    | false => exact .raise hs _
    | true =>
      have place := elementPlace_alike h hp vs.length strict hs
      nth_rewrite 2 [hvs.length_eq] at place
      refine place.bind_eq fun place => .pure ?_
      cases place with
      | none => exact .null
      | some i => exact Value.Alike.element hvs i
  | _ => exact .raise hs _

theorem withMember_alike {container container' : Value} (hc : container.Alike L container')
    {property property' : Expr} (hp : property.Alike L property') (computed : Bool) {v v' : Value}
    (hv : v.Alike L v') (strict : Bool) {s s' : Span} (hs : L.spans s s') :
    Run.Alike L (Value.Alike L) (withMember self container property computed v strict s)
      (withMember self container' property' computed v' strict s') := by
  cases hc with
  | @object stamp ps ps' hps =>
    refine (propertyKey_alike h hp computed strict).bind_eq fun key => ?_
    rw [Properties.Alike.has hps key]
    split
    · exact .raise hs _
    · exact .newObject (Properties.Alike.insert hps key hv)
  | @array stamp vs vs' hvs =>
    cases computed with
    | false => exact .raise hs _
    | true =>
      have place := elementPlace_alike h hp vs.length strict hs
      nth_rewrite 2 [hvs.length_eq] at place
      refine place.bind_eq fun place => ?_
      cases place with
      | none => exact .raise hs _
      | some i => exact .newArray (Value.Alike.set hvs i hv)
  | _ => exact .raise hs _

theorem assign_alike {target target' value value' : Expr} (ht : target.Alike L target')
    (hv : value.Alike L value') (strict : Bool) {s s' : Span} (hs : L.spans s s') :
    Run.Alike L (Value.Alike L) (assign self target value strict s)
      (assign self target' value' strict s') := by
  cases ht with
  | identifier _ hn => exact (h.expression hv strict).bind fun v v' hv => .reassign hn hv hs
  | member _ ho hp =>
    cases ho with
    | identifier hi hn =>
      refine (Alike.lookup hn hi).bind fun container container' hc => ?_
      refine (h.expression hv strict).bind fun v v' hv => ?_
      refine (withMember_alike h hc hp _ hv strict hs).bind fun updated updated' hu => ?_
      exact (Alike.reassign hn hu hs).bind fun _ _ _ => .pure .null
    | _ => exact .raise hs _
  | _ => exact .raise hs _

/-! ## Calls -/

theorem callFunction_alike {f f' : Function} (hf : f.Alike L f') {args args' : List Value}
    (ha : List.Forall₂ (Value.Alike L) args args') (strict : Bool) {s s' : Span} (hs : L.spans s s') :
    Run.Alike L (Value.Alike L) (callFunction self f args strict s)
      (callFunction self f' args' strict s') := by
  obtain ⟨stamp, d, closure⟩ := f
  obtain ⟨stamp', d', closure'⟩ := f'
  obtain ⟨rfl, hd, rfl⟩ := hf
  cases hd with
  | @mk name parameters body body' isAsync visibility hn hp hb =>
    unfold callFunction
    dsimp only [FunctionDeclaration.shownName]
    rw [ha.length_eq]
    split
    · exact .raise hs _
    · refine (Alike.newScope _).bind_eq fun scope => ?_
      refine (bindParameters_alike scope strict hs hp ha).bind_eq fun _ => ?_
      refine ((h.block hb strict).inCall scope).bind fun flow flow' hf => ?_
      cases hf with
      | give hv => exact .pure hv
      | value | leave => exact .pure .null

theorem runSource_alike (lawful : L.Lawful) {source : String} (admitted : L.sources source)
    {s s' : Span} (hs : L.spans s s') :
    Run.Alike L (Value.Alike L) (runSource self source s) (runSource self source s') := by
  unfold runSource
  cases read : Program.ofSource? source with
  | error e => exact .raise hs _
  | ok p =>
    refine Alike.here.bind_eq fun here => (Alike.newScope here).bind_eq fun scope => ?_
    have program := program_alike h lawful.result (lawful.nested source p admitted read)
    exact .fromSource hs (.withFrame ⟨scope, 0⟩ program)

theorem callNative_alike (lawful : L.Lawful) {n : Native} (hn : L.natives n) {args args' : List Value}
    (ha : List.Forall₂ (Value.Alike L) args args') {s s' : Span} (hs : L.spans s s') :
    Run.Alike L (Value.Alike L) (callNative self n args s) (callNative self n args' s') := by
  have truth (x : Except RuntimeFault Bool) :
      Run.Alike L (Value.Alike L) (.bool <$> settle s x) (.bool <$> settle s' x) := by
    refine (Alike.settle hs (.refl x)).map ?_
    rintro b _ rfl
    exact .bool b
  cases n with
  | print => exact (print_alike ha).bind_eq fun _ => .pure .null
  | time =>
    refine Alike.clock.map ?_
    rintro x _ rfl
    exact .number x
  | readFile =>
    refine (readFile_alike .readFile ha hs).map ?_
    rintro text _ ⟨rfl, -⟩
    exact .string text
  | evalFile =>
    refine (readFile_alike .evalFile ha hs).bind ?_
    rintro text _ ⟨rfl, admitted⟩
    exact runSource_alike h lawful admitted hs
  | evaluate =>
    unfold callNative
    dsimp only
    rw [Builtin.joined_alike .evaluate ha]
    refine (Alike.settle hs (.refl _)).bind_eq fun text => ?_
    exact runSource_alike h lawful (lawful.evaluates hn text) hs
  | prompt => exact prompt_alike ha hs
  | objectHas =>
    unfold callNative
    dsimp only
    rw [Builtin.objectHas_alike ha]
    exact truth _
  | objectAllHas =>
    unfold callNative
    dsimp only
    rw [Builtin.objectAllHas_alike ha]
    exact truth _
  | objectKeys =>
    refine (Alike.settle hs (Builtin.oneObject_alike .objectKeys ha)).bind fun ps ps' hp => ?_
    exact .newArray (Properties.Alike.keys hp)
  | objectValues =>
    refine (Alike.settle hs (Builtin.oneObject_alike .objectValues ha)).bind fun ps ps' hp => ?_
    exact .newArray (Properties.Alike.values hp)
  | hosted name => exact .pure .null

theorem call_alike (lawful : L.Lawful) {callee callee' : Value} (hc : callee.Alike L callee')
    {args args' : List Value} (ha : List.Forall₂ (Value.Alike L) args args') (strict : Bool)
    {s s' : Span} (hs : L.spans s s') :
    Run.Alike L (Value.Alike L) (call self callee args strict s) (call self callee' args' strict s') := by
  cases hc with
  | native hn => exact callNative_alike h lawful hn ha hs
  | function hf => exact callFunction_alike h hf ha strict hs
  | classValue hc =>
    unfold call
    dsimp only
    rw [hc.layer.declaration.name]
    exact .raise hs _
  | _ => exact .raise hs _

/-! ## Instances -/

theorem layMember_alike (scope : ScopeId) (strict : Bool) {s s' : Span} (hs : L.spans s s')
    {a a' : Assembly} (ha : a.Alike L a') {m m' : Member} (hm : m.Alike L m') :
    Run.Alike L (Assembly.Alike L) (layMember self scope strict s a m)
      (layMember self scope strict s' a' m') := by
  cases hm with
  | @property mark d d' hd =>
    cases hd with
    | @mk name constant value value' visibility hn he =>
      -- the declaration, once the property has its value
      have declared {v v' : Value} (hv : v.Alike L v') : Run.Alike L (Assembly.Alike L)
          (declareIn scope name v constant false s >>= fun _ => Pure.pure (a.mark name mark))
          (declareIn scope name v' constant false s' >>= fun _ => Pure.pure (a'.mark name mark)) :=
        (Alike.declareIn scope hn hv constant false hs).bind fun _ _ _ => .pure (ha.mark hn mark)
      cases he with
      | none => exact declared .null
      | some he => exact ((h.expression he strict).within scope).bind fun v v' hv => declared hv
  | @method visibility d d' hn hd =>
    refine Alike.newStamp.bind_eq fun stamp => ?_
    have made : Function.Alike L ⟨stamp, d, scope⟩ ⟨stamp, d', scope⟩ := ⟨rfl, hd, rfl⟩
    dsimp only
    rw [hd.shownName]
    split
    · exact .pure ⟨ha.visible, ha.named, .some made⟩
    · refine (Alike.declareIn scope hn (.function made) false false hs).bind fun _ _ _ => ?_
      exact .pure (ha.mark hn visibility)

theorem layMembers_alike (scope : ScopeId) (strict : Bool) {s s' : Span} (hs : L.spans s s')
    {ms ms' : List Member} (hm : List.Forall₂ (Member.Alike L) ms ms') {a a' : Assembly}
    (ha : a.Alike L a') :
    Run.Alike L (Assembly.Alike L) (layMembers self scope strict s ms a)
      (layMembers self scope strict s' ms' a') := by
  induction hm generalizing a a' with
  | nil => exact .pure ha
  | cons first rest ih => exact (layMember_alike h scope strict hs ha first).bind fun a a' ha => ih ha

theorem construct_alike {f f' : Option Function} (hf : Option.Rel (Function.Alike L) f f')
    {args args' : List Value} (ha : List.Forall₂ (Value.Alike L) args args') (strict : Bool)
    {s s' : Span} (hs : L.spans s s') :
    Run.Alike L Eq (construct self f args strict s) (construct self f' args' strict s') := by
  cases hf with
  | none => exact .pure rfl
  | some hf => exact (callFunction_alike h hf ha strict hs).bind fun _ _ _ => .pure rfl

theorem instantiate_alike {c c' : Class} (hc : c.Alike L c') {args args' : List Value}
    (ha : List.Forall₂ (Value.Alike L) args args') (strict : Bool) {s s' : Span} (hs : L.spans s s') :
    Run.Alike L (Value.Alike L) (instantiate self c args strict s)
      (instantiate self c' args' strict s') := by
  unfold instantiate
  rw [hc.layer.closure]
  refine (Alike.newScope c.closure).bind_eq fun scope => ?_
  have empty : Assembly.Alike L ⟨[], none⟩ ⟨[], none⟩ := ⟨rfl, nofun, .none⟩
  refine (layMembers_alike h scope strict hs hc.members empty).bind fun a a' hab => ?_
  refine (construct_alike h hab.constructor ha strict hs).bind_eq fun _ => ?_
  rw [hab.visible]
  exact (readNames_alike scope hs hab.named .nil).bind fun ps ps' hp => .newObject hp

/-! ## Expressions -/

theorem expression_alike (lawful : L.Lawful) {e e' : Expr} (he : e.Alike L e') (strict : Bool) :
    Run.Alike L (Value.Alike L) (expression self e strict) (expression self e' strict) := by
  cases he with
  | identifier hs hn => exact .lookup hn hs
  | number hs => exact .pure (.number _)
  | string hs => exact .pure (.string _)
  | null hs => exact .pure .null
  | object hs hp => exact (properties_alike h hp strict .nil).bind fun ps ps' hps => .newObject hps
  | array hs hes => exact (expressions_alike h hes strict).bind fun vs vs' hvs => .newArray hvs
  | binary hs hl hr =>
    refine (h.expression hl strict).bind fun v v' hv => ?_
    refine (h.expression hr strict).bind fun w w' hw => ?_
    exact .settle hs (Operator.apply_alike _ strict hv hw)
  | assign hs ht hv => exact assign_alike h ht hv strict hs
  | member hs ho hp =>
    refine (h.expression ho strict).bind fun container container' hc => ?_
    exact memberValue_alike h hc hp _ strict hs
  | call hs hc ha =>
    refine (expressions_alike h ha strict).bind fun args args' hargs => ?_
    exact (h.expression hc strict).bind fun f f' hf => call_alike h lawful hf hargs strict hs
  | function hs hd => exact declareFunction_alike hd strict hs
  | instantiate hs ht ha =>
    refine (expressions_alike h ha strict).bind fun args args' hargs => ?_
    refine (h.expression ht strict).bind fun v v' hv => ?_
    cases hv with
    | classValue hc => exact instantiate_alike h hc hargs strict hs
    | _ => exact .raise hs _

end Eval

/-- Under the evaluators with a bound, trees that are alike run alike, by induction on the bound. -/
theorem Evaluator.bounded_alike (lawful : L.Lawful) (n : Nat) : (Evaluator.bounded n).Alike L := by
  induction n with
  | zero => exact ⟨fun _ _ => .outOfFuel, fun _ _ => .outOfFuel⟩
  | succ n ih =>
    exact ⟨fun he strict => Eval.expression_alike ih lawful he strict,
      fun hb strict => Eval.block_alike ih hb strict⟩

end ScriptLang
