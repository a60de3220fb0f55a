/-
# ScriptLang.Value.Equality — when two values are equal.

Programs and hosts compare differently.  For a program, arrays, functions and classes are equal only to
themselves, objects are equal when they have the same keys with values that are the same, and a native
function cannot be compared.  For a host, data is equal when it has the same parts all the way down, and
only functions and classes are compared by identity.
-/
import ScriptLang.Value
import ScriptLang.Error

namespace ScriptLang.Value

/-- Are two values the same: equal data without parts, or one made value? -/
def same : Value → Value → Bool
  | null, null => true
  | number x, number y => x == y
  | string s, string t => s == t
  | bool a, bool b => a == b
  | array i _, array j _ => i == j
  | object i _, object j _ => i == j
  | function f, function g => f.stamp == g.stamp
  | native i _, native j _ => i == j
  | classValue c, classValue d => c.stamp == d.stamp
  | _, _ => false

/-- Is a value a native function? -/
def isNative : Value → Bool
  | native _ _ => true
  | _ => false

/-- Have two objects the same keys, with the same values under them? -/
def sameProperties (ps qs : Properties) : Bool :=
  ps.length == qs.length &&
    ps.all (fun (key, v) =>
      match Properties.get? key qs with
      | some w => same v w
      | none => false)

/-- The equality of programs, on values that can be compared. -/
def looselyEqual : Value → Value → Bool
  | object _ ps, object _ qs => sameProperties ps qs
  | v, w => same v w

/-- The equality of programs. -/
def equal (v w : Value) : Except RuntimeFault Bool :=
  if v.isNative || w.isNative then .error (.type .nativeComparison) else .ok (looselyEqual v w)

mutual

/-- The equality of hosts. -/
def hostEqual : Value → Value → Bool
  | null, null => true
  | number x, number y => x == y
  | string s, string t => s == t
  | bool a, bool b => a == b
  | array _ vs, array _ ws => hostEqualElements vs ws
  | object _ ps, object _ qs => hostEqualProperties ps qs
  | function f, function g => f.stamp == g.stamp
  | native i _, native j _ => i == j
  | classValue c, classValue d => c.stamp == d.stamp
  | _, _ => false

/-- The equality of hosts on elements. -/
def hostEqualElements : List Value → List Value → Bool
  | [], [] => true
  | v :: vs, w :: ws => hostEqual v w && hostEqualElements vs ws
  | _, _ => false

/-- The equality of hosts on properties. -/
def hostEqualProperties : List (String × Value) → List (String × Value) → Bool
  | [], [] => true
  | (k, v) :: ps, (l, w) :: qs => k == l && hostEqual v w && hostEqualProperties ps qs
  | _, _ => false

end

end ScriptLang.Value
