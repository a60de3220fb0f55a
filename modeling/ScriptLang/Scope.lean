/-
# ScriptLang.Scope — the tree of scopes.

A scope binds names and may have a parent, which is older.  A name belongs to the nearest scope that
binds it, going outward; reading and reassigning find that owner in the same way.  A binding may be
constant, and it is carried when it is left from an earlier pass of a loop that uses its scope again:
strict mode lets a carried name be declared once more.
-/
import ScriptLang.Value
import ScriptLang.Error

namespace ScriptLang

/-- What a name is bound to. -/
structure Binding where
  value : Value
  constant : Bool
  carried : Bool

/-- The bindings of one scope, each name once. -/
abbrev Bindings := List (String × Binding)

namespace Bindings

/-- The binding of a name. -/
def get? (name : String) : Bindings → Option Binding
  | [] => none
  | (n, b) :: rest => if n = name then some b else get? name rest

/-- The bindings with a name bound anew. -/
def set (name : String) (b : Binding) : Bindings → Bindings
  | [] => [(name, b)]
  | (n, old) :: rest => if n = name then (name, b) :: rest else (n, old) :: set name b rest

/-- The bindings with another value for a name that they bind. -/
def setValue (name : String) (value : Value) : Bindings → Bindings
  | [] => []
  | (n, b) :: rest =>
    if n = name then (n, { b with value := value }) :: rest else (n, b) :: setValue name value rest

/-- The bindings, all of them carried. -/
def carry (bs : Bindings) : Bindings := bs.map (fun (n, b) => (n, { b with carried := true }))

@[simp] theorem get?_nil (name : String) : get? name [] = none := rfl

theorem get?_set (name other : String) (b : Binding) (bs : Bindings) :
    get? other (set name b bs) = if other = name then some b else get? other bs := by
  induction bs with
  | nil => simp only [set, get?, eq_comm]
  | cons p rest ih =>
    obtain ⟨n, old⟩ := p
    unfold set
    split
    · next h => subst h; simp only [get?, eq_comm]; split <;> simp_all
    · next h =>
      simp only [get?, ih]
      split
      · next hk => rw [if_neg]; exact fun he => h (hk.trans he)
      · rfl

theorem get?_setValue (name other : String) (value : Value) (bs : Bindings) :
    get? other (setValue name value bs) =
      if other = name then (get? other bs).map (fun b => { b with value := value })
      else get? other bs := by
  induction bs with
  | nil => simp [setValue]
  | cons p rest ih =>
    obtain ⟨n, b⟩ := p
    unfold setValue
    split
    · next h => subst h; simp only [get?, eq_comm]; split <;> simp_all
    · next h =>
      simp only [get?, ih]
      split
      · next hk => rw [if_neg]; exact fun he => h (hk.trans he)
      · rfl

theorem get?_carry (name : String) (bs : Bindings) :
    get? name (carry bs) = (get? name bs).map (fun b => { b with carried := true }) := by
  induction bs with
  | nil => rfl
  | cons p rest ih =>
    obtain ⟨n, b⟩ := p
    simp only [carry, List.map_cons, get?]
    split
    · rfl
    · exact ih

end Bindings

/-- A scope. -/
structure Scope where
  parent : Option ScopeId
  bindings : Bindings

/-- Scopes by their numbers.  A parent is older than its children. -/
structure Scopes where
  entries : Array Scope
  parent_lt : ∀ (i : Nat) (h : i < entries.size) (p : ScopeId), entries[i].parent = some p → p < i

namespace Scopes

/-- No scopes. -/
def empty : Scopes := ⟨#[], fun _ h => absurd h (Nat.not_lt_zero _)⟩

/-- How many scopes there are. -/
def size (s : Scopes) : Nat := s.entries.size

/-- The parent of a scope. -/
def parent? (s : Scopes) (id : ScopeId) : Option ScopeId := s.entries[id]? >>= Scope.parent

/-- The bindings of a scope. -/
def bindings (s : Scopes) (id : ScopeId) : Bindings := (s.entries[id]?.map Scope.bindings).getD []

/-- The binding of a name in the scope itself. -/
def own? (s : Scopes) (id : ScopeId) (name : String) : Option Binding := (s.bindings id).get? name

/-- Does a scope itself bind a name? -/
def hasOwn (s : Scopes) (id : ScopeId) (name : String) : Bool := (s.own? id name).isSome

/-- A new scope, whose number is the old size.  A parent has to be there. -/
def push (s : Scopes) (parent : Option ScopeId) : Scopes where
  entries := s.entries.push ⟨parent.filter (· < s.size), []⟩
  parent_lt := by
    intro i h p hp
    rw [Array.getElem_push] at hp
    split at hp
    · next hi => exact s.parent_lt i hi p hp
    · next hi =>
      have hlt : p < s.entries.size := of_decide_eq_true (Option.filter_eq_some_iff.1 hp).2
      exact Nat.lt_of_lt_of_le hlt (Nat.not_lt.1 hi)

/-- The scopes with the bindings of one of them changed. -/
def update (s : Scopes) (id : ScopeId) (f : Bindings → Bindings) : Scopes where
  entries := s.entries.modify id (fun scope => { scope with bindings := f scope.bindings })
  parent_lt := by
    intro i h p hp
    rw [Array.size_modify] at h
    refine s.parent_lt i h p ?_
    rw [Array.getElem_modify] at hp
    split at hp <;> exact hp

/-- The scope that a name belongs to, seen from a given scope. -/
def owner? (s : Scopes) (id : ScopeId) (name : String) : Option ScopeId :=
  if h : id < s.entries.size then
    if (s.entries[id].bindings.get? name).isSome then some id
    else
      match hp : s.entries[id].parent with
      | none => none
      | some p =>
        have := s.parent_lt id h p hp
        owner? s p name
  else none
termination_by id

/-- Binds a name in a scope without any check.  A binding that is there stays carried. -/
def define (s : Scopes) (id : ScopeId) (name : String) (value : Value) (constant : Bool) : Scopes :=
  s.update id (fun bs =>
    bs.set name ⟨value, constant, ((bs.get? name).map Binding.carried).getD false⟩)

/-- Binds a name in a scope anew, in this pass. -/
def bind (s : Scopes) (id : ScopeId) (name : String) (value : Value) (constant : Bool) : Scopes :=
  s.update id (·.set name ⟨value, constant, false⟩)

/-- Does a scope refuse the declaration of a name?  Strict mode refuses a name that the scope binds
already, unless that binding is carried. -/
def refuses (s : Scopes) (id : ScopeId) (name : String) (strict : Bool) : Bool :=
  match s.own? id name with
  | some b => strict && !b.carried
  | none => false

/-- Declares a name in a scope, replacing a binding that is there. -/
def declare (s : Scopes) (id : ScopeId) (name : String) (value : Value) (constant strict : Bool) :
    Except RuntimeFault Scopes :=
  if s.refuses id name strict then .error (.duplicateName name) else .ok (s.bind id name value constant)

/-- The scope that a name belongs to, with a fault where there is none.  It goes outward by itself. -/
def find (s : Scopes) (id : ScopeId) (name : String) : Except RuntimeFault ScopeId :=
  if h : id < s.entries.size then
    if (s.entries[id].bindings.get? name).isSome then .ok id
    else
      match hp : s.entries[id].parent with
      | some p =>
        have := s.parent_lt id h p hp
        find s p name
      | none => .error (.unboundName name)
  else .error (.unboundName name)
termination_by id

/-- The value of a name. -/
def value (s : Scopes) (id : ScopeId) (name : String) : Except RuntimeFault Value :=
  match s.owner? id name >>= (s.own? · name) with
  | some b => .ok b.value
  | none => .error (.unboundName name)

/-- The scope in which a name can be given a new value: its owner, unless the name is constant. -/
def writable (s : Scopes) (id : ScopeId) (name : String) : Except RuntimeFault ScopeId :=
  match s.owner? id name with
  | none => .error (.unboundName name)
  | some o =>
    if ((s.own? o name).map Binding.constant).getD false then .error (.constantReassign name) else .ok o

/-- Gives a name that a scope binds a new value. -/
def setValue (s : Scopes) (id : ScopeId) (name : String) (value : Value) : Scopes :=
  s.update id (·.setValue name value)

/-- Gives a name a new value in the scope it belongs to. -/
def reassign (s : Scopes) (id : ScopeId) (name : String) (value : Value) : Except RuntimeFault Scopes :=
  (s.writable id name).map (s.setValue · name value)

/-- Begins another pass of the loop that uses a scope: all its bindings become carried. -/
def beginPass (s : Scopes) (id : ScopeId) : Scopes := s.update id Bindings.carry

/-! ## What the operations do to the view

A state of scopes is seen through `size`, `parent?` and `bindings`. -/

@[simp] theorem size_push (s : Scopes) (parent : Option ScopeId) : (s.push parent).size = s.size + 1 :=
  Array.size_push _

@[simp] theorem size_update (s : Scopes) (id : ScopeId) (f : Bindings → Bindings) :
    (s.update id f).size = s.size := Array.size_modify

@[simp] theorem parent?_update (s : Scopes) (id other : ScopeId) (f : Bindings → Bindings) :
    (s.update id f).parent? other = s.parent? other := by
  simp only [parent?, update, Array.getElem?_modify]
  split
  · next h => subst h; cases s.entries[id]? <;> rfl
  · rfl

theorem bindings_update (s : Scopes) (id other : ScopeId) (f : Bindings → Bindings) (h : id < s.size) :
    (s.update id f).bindings other = if other = id then f (s.bindings id) else s.bindings other := by
  simp only [bindings, update, Array.getElem?_modify]
  split
  · next he =>
    subst he
    have hlt : id < s.entries.size := h
    have hs : s.entries[id]? = some s.entries[id] := Array.getElem?_eq_getElem hlt
    simp [hs]
  · next he => rw [if_neg (Ne.symm he)]

theorem parent?_push (s : Scopes) (parent : Option ScopeId) (id : ScopeId) :
    (s.push parent).parent? id =
      if id = s.size then parent.filter (· < s.size) else s.parent? id := by
  by_cases h : id = s.entries.size
  · subst h
    simp only [parent?, push, Array.getElem?_push_size]
    exact (if_pos rfl).symm
  · simp only [parent?, push, Array.getElem?_push, if_neg h]
    exact (if_neg h).symm

@[simp] theorem bindings_push (s : Scopes) (parent : Option ScopeId) (id : ScopeId) :
    (s.push parent).bindings id = s.bindings id := by
  simp only [bindings, push, Array.getElem?_push]
  split
  · next h => subst h; simp
  · rfl

/-- Outside strict mode no declaration is refused. -/
theorem refuses_lenient (s : Scopes) (id : ScopeId) (name : String) : s.refuses id name false = false := by
  unfold refuses
  split <;> rfl

end Scopes

end ScriptLang
