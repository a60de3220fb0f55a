/-
# ScriptLang.Proofs.Scope.History — a scope as the outcome of what happened in it.

A scope starts without names.  Operations follow, on it and on the scopes around it, and some of them change
it: a definition or a successful declaration binds a name in it, a successful reassignment gives one of its
names another value, and the loop that uses it begins another pass.  These changes, in their order, are its
history.

The history settles all that the scope tells about a name.  Whether a strict declaration of it is refused
depends on whether it was bound in this pass, whether it is constant on what bound it last, its value on what
bound it or gave it a value last.
-/
import ScriptLang.Machine
import ScriptLang.Proofs.Scope.Lookup
import Mathlib.Data.List.Induction

namespace ScriptLang.Scopes

/-! ## Operations -/

/-- Something that is done to the scopes.  The scope `viewer` is the one from which a name is looked up. -/
inductive Operation where
  | enter (parent : Option ScopeId)
  | define (id : ScopeId) (name : String) (value : Value) (constant : Bool)
  | declare (id : ScopeId) (name : String) (value : Value) (constant strict : Bool)
  | reassign (viewer : ScopeId) (name : String) (value : Value)
  | beginPass (id : ScopeId)

/-- What an operation comes to. -/
def perform (s : Scopes) : Operation → Except RuntimeFault Scopes
  | .enter parent => .ok (s.push parent)
  | .define id name value constant => .ok (s.define id name value constant)
  | .declare id name value constant strict => s.declare id name value constant strict
  | .reassign viewer name value => s.reassign viewer name value
  | .beginPass id => .ok (s.beginPass id)

/-- The scopes after an operation.  One that fails leaves them as they are. -/
def after (s : Scopes) (op : Operation) : Scopes :=
  match s.perform op with
  | .ok t => t
  | .error _ => s

/-- The scopes after operations, one after another. -/
def afterAll (s : Scopes) (ops : List Operation) : Scopes := ops.foldl after s

/-- A program declares a name by the operation for it. -/
theorem declareIn_perform (id : ScopeId) (name : String) (v : Value) (constant strict : Bool) (span : Span)
    (m : Machine) : Run.declareIn id name v constant strict span m =
      match m.scopes.perform (.declare id name v constant strict) with
      | .ok t => .ok v (m.mapScopes fun _ => t)
      | .error fault => .error (.raised ⟨span, fault⟩) m := by
  rw [Run.declareIn, perform, declare]
  split <;> rfl

/-! ## Histories -/

/-- A change of one scope: a name is bound, a name that it binds is given a value, or another pass of the
loop that uses it begins. -/
inductive Change where
  | bound (name : String) (value : Value) (constant : Bool)
  | assigned (name : String) (value : Value)
  | passed

/-- The change that an operation makes in a scope, if it succeeds and makes one there. -/
def changeIn (s : Scopes) (id : ScopeId) (op : Operation) : Option Change :=
  match s.perform op with
  | .error _ => none
  | .ok _ =>
    match op with
    | .enter _ => none
    | .define other name value constant => if other = id then some (.bound name value constant) else none
    | .declare other name value constant _ => if other = id then some (.bound name value constant) else none
    | .reassign viewer name value => if s.owner? viewer name = some id then some (.assigned name value) else none
    | .beginPass other => if other = id then some .passed else none

/-- The changes that operations make in a scope, in their order. -/
def history (id : ScopeId) : Scopes → List Operation → List Change
  | _, [] => []
  | s, op :: rest => (s.changeIn id op).toList ++ history id (s.after op) rest

namespace Change

/-- Is the name constant, if the change binds it? -/
def constant? (name : String) : Change → Option Bool
  | bound n _ constant => if n = name then some constant else none
  | _ => none

/-- The value that the change gives the name. -/
def value? (name : String) : Change → Option Value
  | bound n value _ | assigned n value => if n = name then some value else none
  | passed => none

end Change

/-- Was the name constant when it was bound last?  There is no answer for a name that was never bound. -/
def lastConstant (name : String) (changes : List Change) : Option Bool :=
  (changes.filterMap (Change.constant? name)).getLast?

/-- The value that the name was given last. -/
def lastValue (name : String) (changes : List Change) : Option Value :=
  (changes.filterMap (Change.value? name)).getLast?

/-- The name was bound, and no other pass has begun since. -/
def BoundInPass (name : String) (changes : List Change) : Prop :=
  ∃ earlier value constant later,
    changes = earlier ++ .bound name value constant :: later ∧ .passed ∉ later

/-! ### One more change -/

theorem lastConstant_concat (name : String) (changes : List Change) (c : Change) :
    lastConstant name (changes ++ [c]) = (c.constant? name).or (lastConstant name changes) := by
  unfold lastConstant
  rw [List.filterMap_append, List.getLast?_append]
  cases h : c.constant? name <;> simp [h]

theorem lastValue_concat (name : String) (changes : List Change) (c : Change) :
    lastValue name (changes ++ [c]) = (c.value? name).or (lastValue name changes) := by
  unfold lastValue
  rw [List.filterMap_append, List.getLast?_append]
  cases h : c.value? name <;> simp [h]

theorem not_boundInPass_nil (name : String) : ¬BoundInPass name [] := by
  rintro ⟨earlier, value, constant, later, split, -⟩
  simp at split

theorem boundInPass_concat (name : String) (changes : List Change) (c : Change) :
    BoundInPass name (changes ++ [c]) ↔
      (∃ value constant, c = .bound name value constant) ∨ (c ≠ .passed ∧ BoundInPass name changes) := by
  constructor
  · rintro ⟨earlier, value, constant, later, split, still⟩
    rcases List.eq_nil_or_concat later with rfl | ⟨later, last, rfl⟩
    · obtain ⟨-, this⟩ := List.append_inj' split rfl
      exact .inl ⟨value, constant, List.singleton_inj.1 this⟩
    · have shifted : changes ++ [c] = (earlier ++ .bound name value constant :: later) ++ [last] := by
        simpa using split
      obtain ⟨rfl, this⟩ := List.append_inj' shifted rfl
      obtain rfl := List.singleton_inj.1 this
      rw [List.concat_eq_append, List.mem_append, List.mem_singleton, not_or] at still
      exact .inr ⟨Ne.symm still.2, earlier, value, constant, later, rfl, still.1⟩
  · rintro (⟨value, constant, rfl⟩ | ⟨other, earlier, value, constant, later, rfl, still⟩)
    · exact ⟨changes, value, constant, [], rfl, List.not_mem_nil⟩
    · refine ⟨earlier, value, constant, later ++ [c], by simp, ?_⟩
      simp [still, Ne.symm other]

/-- In the first pass a name that was bound was bound in this pass. -/
theorem boundInPass_of_lastConstant {name : String} {changes : List Change} (first : .passed ∉ changes)
    {constant : Bool} (h : lastConstant name changes = some constant) : BoundInPass name changes := by
  induction changes using List.reverseRecOn with
  | nil => cases h
  | append_singleton changes c ih =>
    rw [List.mem_append, List.mem_singleton, not_or] at first
    rw [boundInPass_concat]
    rw [lastConstant_concat] at h
    cases c with
    | bound n value k =>
      by_cases he : n = name
      · exact .inl ⟨value, k, by rw [he]⟩
      · simp only [Change.constant?, if_neg he, Option.none_or] at h
        exact .inr ⟨nofun, ih first.1 h⟩
    | assigned n value => exact .inr ⟨nofun, ih first.1 h⟩
    | passed => exact absurd rfl first.2

/-! ## A scope follows its history -/

/-- A scope is as its history says. -/
structure Follows (changes : List Change) (s : Scopes) (id : ScopeId) : Prop where
  there : id < s.size
  constant : ∀ name, (s.own? id name).map Binding.constant = lastConstant name changes
  value : ∀ name, s.ownValue? id name = lastValue name changes
  fresh : ∀ name, (∃ b, s.own? id name = some b ∧ b.carried = false) ↔ BoundInPass name changes

variable {s t : Scopes} {id : ScopeId} {changes : List Change}

theorem own?_update_of_ne (s : Scopes) {id other : ScopeId} (h : other ≠ id) (f : Bindings → Bindings)
    (x : String) : (s.update id f).own? other x = s.own? other x := by
  unfold own?
  rw [bindings_update_of_ne s h]

/-- A new scope has no names. -/
theorem Follows.start (s : Scopes) (parent : Option ScopeId) : Follows [] (s.push parent) s.size := by
  have none (name : String) : (s.push parent).own? s.size name = none := own?_push_size s parent name
  refine ⟨by simp, fun name => ?_, fun name => ?_, fun name => ?_⟩
  · rw [none name]
    rfl
  · rw [ownValue?, none name]
    rfl
  · simp [none name, not_boundInPass_nil]

/-- What changes other scopes only leaves the scope as it is. -/
theorem Follows.keep (h : Follows changes s id) (there : id < t.size)
    (same : ∀ name, t.own? id name = s.own? id name) : Follows changes t id where
  there := there
  constant name := by rw [same, h.constant]
  value name := by rw [ownValue?, same, ← ownValue?, h.value]
  fresh name := by rw [same, h.fresh]

/-- A name is bound in the scope. -/
theorem Follows.bind (h : Follows changes s id) {name : String} {v : Value} {constant : Bool}
    (there : id < t.size) (new : t.own? id name = some ⟨v, constant, false⟩)
    (same : ∀ x, x ≠ name → t.own? id x = s.own? id x) :
    Follows (changes ++ [.bound name v constant]) t id := by
  refine ⟨there, fun x => ?_, fun x => ?_, fun x => ?_⟩
  all_goals by_cases he : x = name
  · subst he
    simp [new, lastConstant_concat, Change.constant?]
  · simp [same x he, h.constant, lastConstant_concat, Change.constant?, Ne.symm he]
  · subst he
    simp [ownValue?, new, lastValue_concat, Change.value?]
  · rw [ownValue?, same x he, ← ownValue?, h.value]
    simp [lastValue_concat, Change.value?, Ne.symm he]
  · subst he
    simp [new, boundInPass_concat]
  · rw [same x he, h.fresh]
    simp [boundInPass_concat, Ne.symm he]

/-- A name of the scope is given a value. -/
theorem Follows.assign (h : Follows changes s id) {name : String} (own : s.hasOwn id name) (v : Value) :
    Follows (changes ++ [.assigned name v]) (s.setValue id name v) id := by
  have own?_set (x : String) : (s.setValue id name v).own? id x =
      if x = name then (s.own? id x).map (fun b => { b with value := v }) else s.own? id x := by
    unfold own? setValue
    rw [bindings_update s id id _ h.there, if_pos rfl, Bindings.get?_setValue]
  refine ⟨by simpa using h.there, fun x => ?_, fun x => ?_, fun x => ?_⟩
  · rw [lastConstant_concat, own?_set, ← h.constant]
    split <;> simp [Change.constant?, Function.comp_def]
  · rw [lastValue_concat, ← h.value]
    by_cases he : x = name
    · subst he
      simp [ownValue?_setValue_self own, Change.value?]
    · simp [ownValue?, own?_set, he, Ne.symm he, Change.value?]
  · rw [boundInPass_concat, own?_set, ← h.fresh]
    split <;> cases s.own? id x <;> simp

/-- Another pass of the loop begins. -/
theorem Follows.pass (h : Follows changes s id) : Follows (changes ++ [.passed]) (s.beginPass id) id := by
  have own?_pass (x : String) :
      (s.beginPass id).own? id x = (s.own? id x).map (fun b => { b with carried := true }) := by
    unfold own? beginPass
    rw [bindings_update s id id _ h.there, if_pos rfl, Bindings.get?_carry]
  refine ⟨by simpa using h.there, fun x => ?_, fun x => ?_, fun x => ?_⟩
  · rw [lastConstant_concat, own?_pass, ← h.constant]
    simp [Change.constant?, Function.comp_def]
  · rw [lastValue_concat, ownValue?, own?_pass, ← h.value]
    simp [ownValue?, Change.value?, Function.comp_def]
  · rw [boundInPass_concat, own?_pass]
    cases s.own? id x <;> simp

/-! ## One operation, and any number -/

theorem own?_define_self (s : Scopes) {id : ScopeId} (h : id < s.size) (name : String) (v : Value)
    (constant : Bool) : (s.define id name v constant).own? id name =
      some ⟨v, constant, ((s.own? id name).map Binding.carried).getD false⟩ := by
  unfold own? define
  rw [bindings_update s id id _ h, if_pos rfl, Bindings.get?_set, if_pos rfl]

theorem own?_define_of_name_ne (s : Scopes) {id : ScopeId} (h : id < s.size) {name x : String} (hx : x ≠ name)
    (v : Value) (constant : Bool) : (s.define id name v constant).own? id x = s.own? id x := by
  unfold own? define
  rw [bindings_update s id id _ h, if_pos rfl, Bindings.get?_set, if_neg hx]

/-- A definition binds a name like a declaration, as long as no pass has begun. -/
theorem Follows.define (h : Follows changes s id) (first : .passed ∉ changes) (name : String) (v : Value)
    (constant : Bool) : Follows (changes ++ [.bound name v constant]) (s.define id name v constant) id := by
  refine h.bind (by simpa [Scopes.define] using h.there) ?_ fun x hx => own?_define_of_name_ne s h.there hx _ _
  rw [own?_define_self s h.there]
  cases ho : s.own? id name with
  | none => rfl
  | some b =>
    have bound : BoundInPass name changes :=
      boundInPass_of_lastConstant first (by rw [← h.constant, ho]; rfl)
    obtain ⟨_, same, fresh⟩ := (h.fresh name).2 bound
    obtain rfl : b = _ := Option.some.inj (ho.symm.trans same)
    rw [Option.map_some, fresh]
    rfl

/-- A scope follows its history through one operation.  A definition in it comes before its first pass. -/
theorem Follows.step (h : Follows changes s id) (op : Operation)
    (early : ∀ name v constant, op = .define id name v constant → .passed ∉ changes) :
    Follows (changes ++ (s.changeIn id op).toList) (s.after op) id := by
  have kept : Follows (changes ++ []) s id := by rwa [List.append_nil]
  cases op with
  | enter parent =>
    exact kept.keep (by simpa [after, perform] using Nat.lt_succ_of_lt h.there) fun x => own?_push s parent id x
  | define other name v constant =>
    by_cases he : other = id
    · subst he
      simpa [changeIn, perform, after] using h.define (early name v constant rfl) name v constant
    · rw [changeIn, perform, if_neg he]
      exact kept.keep (by simpa [after, perform, Scopes.define] using h.there)
        fun x => own?_update_of_ne s (Ne.symm he) _ x
  | declare other name v constant strict =>
    cases hr : s.refuses other name strict with
    | true => simpa [changeIn, after, perform, declare, hr] using h
    | false =>
      by_cases he : other = id
      · subst he
        simpa [changeIn, after, perform, declare, hr] using h.bind (by simpa using h.there)
          (own?_bind_self s h.there name v constant) fun x hx => own?_bind_of_name_ne s _ _ hx v constant
      · simpa [changeIn, after, perform, declare, hr, he] using
          h.keep (by simpa using h.there) fun x => own?_bind_of_ne s (Ne.symm he) name x v constant
  | reassign viewer name v =>
    cases hw : s.writable viewer name with
    | error fault => simpa [changeIn, after, perform, reassign, hw, Except.map] using h
    | ok owner =>
      have ho := owner?_of_writable hw
      by_cases he : owner = id
      · subst he
        simpa [changeIn, after, perform, reassign, hw, ho, Except.map] using h.assign (own?_of_owner? s ho) v
      · simpa [changeIn, after, perform, reassign, hw, ho, he, Except.map] using
          h.keep (t := s.setValue owner name v) (by simpa using h.there)
            fun x => own?_update_of_ne s (Ne.symm he) _ x
  | beginPass other =>
    by_cases he : other = id
    · subst he
      simpa [changeIn, after, perform] using h.pass
    · simpa [changeIn, after, perform, he] using
        h.keep (by simpa using h.there) fun x => own?_beginPass_of_ne s (Ne.symm he) x

theorem history_concat (id : ScopeId) (s : Scopes) (ops : List Operation) (op : Operation) :
    history id s (ops ++ [op]) = history id s ops ++ ((s.afterAll ops).changeIn id op).toList := by
  induction ops generalizing s with
  | nil => simp [history, afterAll]
  | cons first rest ih => simp [history, ih, afterAll]

theorem afterAll_concat (s : Scopes) (ops : List Operation) (op : Operation) :
    s.afterAll (ops ++ [op]) = (s.afterAll ops).after op := by
  simp [afterAll]

/-- Passes are begun by the operation for it only. -/
theorem beginPass_mem_of_passed {ops : List Operation} (h : .passed ∈ history id s ops) :
    .beginPass id ∈ ops := by
  induction ops generalizing s with
  | nil => cases h
  | cons op rest ih =>
    rcases List.mem_append.1 h with now | later
    · refine List.mem_cons.2 (.inl ?_)
      rw [Option.mem_toList] at now
      unfold changeIn at now
      split at now
      · cases now
      · cases op <;> simp at now
        rw [now]
    · exact List.mem_cons_of_mem _ (ih later)

/-- The operations define names in a scope only before its first pass. -/
def DefinesFirst (id : ScopeId) (ops : List Operation) : Prop :=
  ∀ earlier later name value constant,
    ops = earlier ++ .define id name value constant :: later → .beginPass id ∉ earlier

/-- From its beginning on a scope follows its history, whatever is done to it and around it. -/
theorem follows_history (s : Scopes) (parent : Option ScopeId) {ops : List Operation}
    (first : DefinesFirst s.size ops) :
    Follows (history s.size (s.push parent) ops) ((s.push parent).afterAll ops) s.size := by
  induction ops using List.reverseRecOn with
  | nil => exact .start s parent
  | append_singleton ops op ih =>
    have before : DefinesFirst s.size ops := fun earlier later name value constant split =>
      first earlier (later ++ [op]) name value constant (by simp [split])
    rw [history_concat, afterAll_concat]
    refine (ih before).step op fun name value constant is passed => ?_
    exact first ops [] name value constant (by rw [is]) (beginPass_mem_of_passed passed)

/-! ## What the history settles -/

/-- What a scope tells about its names, in terms of its history.  From a scope `viewer` a name resolves to this
scope if `owner?` gives it, and a declaration of a program is made on a machine with these scopes. -/
structure Tells (changes : List Change) (s : Scopes) (id : ScopeId) : Prop where
  refuses : ∀ name v constant,
    s.declare id name v constant true = .error (.duplicateName name) ↔ BoundInPass name changes
  untouched : ∀ name v constant span m, m.scopes = s → BoundInPass name changes →
    Run.declareIn id name v constant true span m = .error (.raised ⟨span, .duplicateName name⟩) m
  accepts : ∀ name v constant, ¬BoundInPass name changes →
    s.declare id name v constant true = .ok (s.bind id name v constant)
  lenient : ∀ name v constant, s.declare id name v constant false = .ok (s.bind id name v constant)
  constant : ∀ name, s.isConstant id name ↔ lastConstant name changes = some true
  protects : ∀ viewer name v, s.owner? viewer name = some id →
    (s.reassign viewer name v = .error (.constantReassign name) ↔ lastConstant name changes = some true)
  reassigns : ∀ viewer name v, s.owner? viewer name = some id → lastConstant name changes ≠ some true →
    s.reassign viewer name v = .ok (s.setValue id name v)
  own : ∀ name, s.ownValue? id name = lastValue name changes
  value : ∀ viewer name, s.owner? viewer name = some id → ∀ v,
    s.value viewer name = .ok v ↔ lastValue name changes = some v

theorem refuses_iff (s : Scopes) (id : ScopeId) (name : String) :
    s.refuses id name true ↔ ∃ b, s.own? id name = some b ∧ b.carried = false := by
  unfold refuses
  cases s.own? id name <;> simp

theorem Follows.tells (h : Follows changes s id) : Tells changes s id := by
  have refused (name : String) : s.refuses id name true ↔ BoundInPass name changes :=
    (refuses_iff s id name).trans (h.fresh name)
  have constant (name : String) : s.isConstant id name ↔ lastConstant name changes = some true := by
    rw [isConstant, ← h.constant]
    cases s.own? id name <;> simp
  have writable (viewer : ScopeId) (name : String) (owned : s.owner? viewer name = some id) :
      s.writable viewer name = if s.isConstant id name then .error (.constantReassign name) else .ok id := by
    rw [Scopes.writable, owned]
    rfl
  refine ⟨fun name v k => ?_, fun name v k span m here bound => ?_, fun name v k unbound => ?_,
    fun name v k => ?_, constant, fun viewer name v owned => ?_, fun viewer name v owned free => ?_, h.value,
    fun viewer name owned v => ?_⟩
  · rw [← refused, declare]
    split <;> simp_all
  · rw [declareIn_perform, here, perform, declare, if_pos ((refused name).2 bound)]
  · rw [← refused] at unbound
    rw [declare, if_neg unbound]
  · rw [declare, refuses_lenient, if_neg Bool.false_ne_true]
  · rw [← constant, reassign, writable viewer name owned]
    split <;> simp_all [Except.map]
  · rw [reassign, writable viewer name owned, if_neg (mt (constant name).1 free)]
    rfl
  · rw [value_eq_ok_iff, ← h.value]
    simp [owned]

/-- In the second pass a constant can be declared once more, and only once. -/
example :
    let s := (empty.push none).afterAll
      [.declare 0 "y" .null true true, .beginPass 0, .declare 0 "y" (.bool true) true true]
    s.ownValue? 0 "y" = some (.bool true) ∧ s.refuses 0 "y" true :=
  ⟨rfl, rfl⟩

end ScriptLang.Scopes
