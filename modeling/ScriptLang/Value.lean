/-
# ScriptLang.Value — what programs compute with.

Arrays and objects are never changed in place: an update makes a new one.  Two arrays with the same
elements are still told apart, and so are functions and classes, so each of these values carries the
stamp it was given when it was made; the same stamp means the very same value.
-/
import ScriptLang.Syntax
import ScriptLang.Value.Kind

namespace ScriptLang

/-- The number of a scope. -/
abbrev ScopeId := Nat

/-- The number that tells one made value from another. -/
abbrev Stamp := Nat

/-- The functions that come with the language, and functions that a host supplies under a name. -/
inductive Native where
  | print | time | readFile | evalFile | evaluate | prompt
  | objectHas | objectAllHas | objectKeys | objectValues
  | hosted (name : String)
deriving DecidableEq, Repr

/-- The name a native function is known by. -/
def Native.name : Native → String
  | print => "print"
  | time => "time"
  | readFile => "readFile"
  | evalFile => "evalFile"
  | evaluate => "evaluate"
  | prompt => "prompt"
  | objectHas => "Object.has"
  | objectAllHas => "Object.allHas"
  | objectKeys => "Object.keys"
  | objectValues => "Object.values"
  | hosted name => name

/-- A function of a program, with the scope it was declared in. -/
structure Function where
  stamp : Stamp
  declaration : FunctionDeclaration
  closure : ScopeId

/-- One class of a lineage, with the scope it was declared in. -/
structure ClassLayer where
  stamp : Stamp
  declaration : ClassDeclaration
  closure : ScopeId

/-- A class and the classes it extends, the nearest first. -/
structure Class extends ClassLayer where
  ancestors : List ClassLayer

/-- The classes of a lineage, the root first and the class itself last. -/
def Class.lineage (c : Class) : List ClassLayer := (c.toClassLayer :: c.ancestors).reverse

/-- A value.  The properties of an object stand in the order of their keys. -/
inductive Value where
  | null
  | number (x : Float)
  | string (s : String)
  | bool (b : Bool)
  | array (stamp : Stamp) (elements : List Value)
  | object (stamp : Stamp) (properties : List (String × Value))
  | function (f : Function)
  | native (stamp : Stamp) (n : Native)
  | classValue (c : Class)
deriving Inhabited

/-- The properties of an object. -/
abbrev Properties := List (String × Value)

namespace Properties

/-- The value under a key. -/
def get? (key : String) : Properties → Option Value
  | [] => none
  | (k, v) :: rest => if k = key then some v else get? key rest

/-- Is there a value under a key? -/
def has (key : String) (ps : Properties) : Bool := (get? key ps).isSome

/-- The properties with a value under a key.  The order of the keys is kept. -/
def insert (key : String) (value : Value) : Properties → Properties
  | [] => [(key, value)]
  | (k, v) :: rest =>
    if k = key then (key, value) :: rest
    else if key < k then (key, value) :: (k, v) :: rest
    else (k, v) :: insert key value rest

/-- The properties of a list of entries, a later entry replacing an earlier one with its key. -/
def ofList (entries : List (String × Value)) : Properties :=
  entries.foldl (fun ps (key, value) => insert key value ps) []

theorem get?_insert (key other : String) (value : Value) (ps : Properties) :
    get? other (insert key value ps) = if other = key then some value else get? other ps := by
  induction ps with
  | nil => simp only [insert, get?, eq_comm]
  | cons p rest ih =>
    obtain ⟨k, v⟩ := p
    unfold insert
    split
    · next h => subst h; simp only [get?, eq_comm]; split <;> simp_all
    · next h =>
      split
      · simp only [get?, eq_comm]
      · simp only [get?, ih]
        split
        · next hk => rw [if_neg]; exact fun he => h (hk.trans he)
        · rfl

end Properties

namespace Value

/-- What a value is. -/
def kind : Value → ValueKind
  | null => .null
  | number _ => .number
  | string _ => .string
  | bool _ => .boolean
  | array _ _ => .array
  | object _ _ => .object
  | function _ => .function
  | native _ _ => .native
  | classValue _ => .classObject

/-- Does a value count as true?  Null, zero, the empty text, `false` and what has no elements do not. -/
def isTruthy : Value → Bool
  | null => false
  | number x => x != 0.0
  | string s => !s.isEmpty
  | bool b => b
  | array _ elements => !elements.isEmpty
  | object _ properties => !properties.isEmpty
  | function _ | native _ _ | classValue _ => true

end Value

end ScriptLang
