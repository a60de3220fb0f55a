/-
# ScriptLang.Proofs.Syntax.Brackets — brackets in tokens that are read.

A walk over tokens keeps the brackets that are open, the innermost first, and stops at a closing bracket
that is not the partner of the innermost.  Each rule of the grammar that succeeds leaves the walk where
it found it; a rule that opens a bracket closes it again before it ends.  So in the tokens of a program
every bracket has its partner, and the partner is seen from the tokens between the two alone.
-/
import ScriptLang.Syntax.Grammar
import Mathlib.Data.List.Induction

namespace ScriptLang

/-! ## The walk -/

/-- The kinds of brackets. -/
inductive Bracket where
  | parenthesis
  | brace
  | bracket
deriving DecidableEq, Repr

namespace Kind

/-- The bracket that a kind opens. -/
def opens? : Kind → Option Bracket
  | .sign .leftParen => some .parenthesis
  | .sign .leftBrace => some .brace
  | .sign .leftBracket => some .bracket
  | _ => none

/-- The bracket that a kind closes. -/
def closes? : Kind → Option Bracket
  | .sign .rightParen => some .parenthesis
  | .sign .rightBrace => some .brace
  | .sign .rightBracket => some .bracket
  | _ => none

/-- What a kind makes of the brackets that are open before it.  It makes nothing where it closes a
bracket other than the innermost. -/
def turn (k : Kind) (opened : List Bracket) : Option (List Bracket) :=
  match k.opens? with
  | some b => some (b :: opened)
  | none =>
    match k.closes? with
    | none => some opened
    | some b => if opened.head? = some b then some opened.tail else none

/-- The change that a kind makes to the number of open brackets. -/
def change (k : Kind) : Int :=
  if k.opens?.isSome then 1 else if k.closes?.isSome then -1 else 0

/-- Is a kind no bracket? -/
def isPlain (k : Kind) : Bool := k.opens?.isNone && k.closes?.isNone

theorem turn_of_isPlain {k : Kind} (h : k.isPlain) (opened : List Bracket) :
    k.turn opened = some opened := by
  rw [isPlain, Bool.and_eq_true, Option.isNone_iff_eq_none, Option.isNone_iff_eq_none] at h
  rw [turn, h.1, h.2]

/-- All that a kind can do in the walk. -/
theorem turn_cases {k : Kind} {opened after : List Bracket} (h : k.turn opened = some after) :
    (∃ b, k.opens? = some b ∧ after = b :: opened) ∨
    (∃ b, k.opens? = none ∧ k.closes? = some b ∧ opened = b :: after) ∨
    (k.opens? = none ∧ k.closes? = none ∧ after = opened) := by
  unfold turn at h
  split at h
  · next b opens => exact .inl ⟨b, opens, (Option.some.inj h).symm⟩
  · next opens =>
    split at h
    · next closes => exact .inr (.inr ⟨opens, closes, (Option.some.inj h).symm⟩)
    · next b closes =>
      split at h
      · next head =>
        obtain ⟨rest, rfl⟩ := List.head?_eq_some_iff.1 head
        exact .inr (.inl ⟨b, opens, closes, by rw [← Option.some.inj h, List.tail_cons]⟩)
      · cases h

end Kind

/-- The brackets that are open after some kinds, given those that are open before. -/
def openAfter : List Bracket → List Kind → Option (List Bracket)
  | opened, [] => some opened
  | opened, k :: ks => (k.turn opened).bind (openAfter · ks)

theorem openAfter_append (opened : List Bracket) (ks ls : List Kind) :
    openAfter opened (ks ++ ls) = (openAfter opened ks).bind (openAfter · ls) := by
  induction ks generalizing opened with
  | nil => rfl
  | cons k ks ih =>
    rw [List.cons_append, openAfter, openAfter, Option.bind_assoc]
    exact congrArg _ (funext ih)

theorem openAfter_of_plain {ks : List Kind} (h : ∀ k ∈ ks, k.isPlain) (opened : List Bracket) :
    openAfter opened ks = some opened := by
  induction ks with
  | nil => rfl
  | cons k ks ih =>
    rw [openAfter, Kind.turn_of_isPlain (h k List.mem_cons_self)]
    exact ih fun l hl => h l (List.mem_cons_of_mem k hl)

/-- The sum of the changes of some kinds. -/
def netChange : List Kind → Int
  | [] => 0
  | k :: ks => k.change + netChange ks

@[simp] theorem netChange_nil : netChange [] = 0 := rfl

@[simp] theorem netChange_cons (k : Kind) (ks : List Kind) :
    netChange (k :: ks) = k.change + netChange ks := rfl

/-- The walk counts what it keeps. -/
theorem length_openAfter {opened after : List Bracket} {ks : List Kind}
    (h : openAfter opened ks = some after) : (after.length : Int) = opened.length + netChange ks := by
  induction ks generalizing opened with
  | nil =>
    cases h
    simp
  | cons k ks ih =>
    obtain ⟨between, turn, rest⟩ := Option.bind_eq_some_iff.1 h
    have count := ih rest
    rw [netChange_cons]
    -- an opening bracket adds one to both sides, a closing one takes one away
    rcases Kind.turn_cases turn with ⟨b, opens, rfl⟩ | ⟨b, opens, closes, rfl⟩ | ⟨opens, closes, rfl⟩
    · simp only [Kind.change, opens, List.length_cons] at count ⊢
      simp only [Option.isSome_some, if_true]
      omega
    · simp only [Kind.change, opens, closes, List.length_cons]
      simp only [Option.isSome_some, Option.isSome_none, if_true, Bool.false_eq_true, if_false]
      omega
    · simp only [Kind.change, opens, closes, Option.isSome_none, Bool.false_eq_true, if_false]
      omega

/-! ## Partners -/

/-- The kinds at two places are a bracket and its partner: they open and close the same bracket, and
every bracket that stands between them has its partner between them. -/
def Partners (ks : List Kind) (i j : Nat) : Prop :=
  ∃ before k between l after b,
    ks = before ++ k :: (between ++ l :: after) ∧ i = before.length ∧ j = i + 1 + between.length ∧
      k.opens? = some b ∧ l.closes? = some b ∧ openAfter [] between = some []

theorem opens?_of_closes? {k : Kind} {b : Bracket} (h : k.closes? = some b) : k.opens? = none := by
  unfold Kind.closes? at h
  split at h
  · rfl
  · rfl
  · rfl
  · cases h

/-- No walk passes a closing bracket where none is open. -/
theorem openAfter_close {k : Kind} {b : Bracket} (h : k.closes? = some b) {ks : List Kind}
    {after : List Bracket} : openAfter [] (k :: ks) ≠ some after := by
  rw [openAfter, Kind.turn, opens?_of_closes? h, h]
  exact nofun

/-- A bracket that is open in a walk and no more open at its end was closed on the way, and the brackets
above it were closed before it. -/
theorem exists_close (above : List Bracket) {below : List Bracket} {b : Bracket} {ks : List Kind} {after : List Bracket}
    (h : openAfter (above ++ b :: below) ks = some after) (short : after.length ≤ below.length) :
    ∃ inner l rest, ks = inner ++ l :: rest ∧ l.closes? = some b ∧ openAfter above inner = some [] := by
  induction ks generalizing above with
  | nil =>
    obtain rfl := Option.some.inj h
    simp only [List.length_append, List.length_cons] at short
    omega
  | cons k ks ih =>
    obtain ⟨between, turn, walk⟩ := Option.bind_eq_some_iff.1 h
    -- the walk over the rest, seen from the brackets above the given one
    have later {above' : List Bracket} (step : k.turn above = some above')
        (between_eq : between = above' ++ b :: below) :
        ∃ inner l rest, k :: ks = inner ++ l :: rest ∧ l.closes? = some b ∧
          openAfter above inner = some [] := by
      subst between_eq
      obtain ⟨inner, l, rest, rfl, closes, level⟩ := ih _ walk
      refine ⟨k :: inner, l, rest, rfl, closes, ?_⟩
      rw [openAfter, step]
      exact level
    rcases Kind.turn_cases turn with ⟨c, opens, rfl⟩ | ⟨c, opens, closes, eq⟩ | ⟨opens, closes, rfl⟩
    · exact later (by rw [Kind.turn, opens]) (List.cons_append ..).symm
    · cases above with
      | nil =>
        obtain ⟨rfl, -⟩ := List.cons.inj eq
        exact ⟨[], k, ks, rfl, closes, rfl⟩
      | cons d above =>
        obtain ⟨rfl, rest⟩ := List.cons.inj eq
        have step : k.turn (d :: above) = some above := by
          rw [Kind.turn, opens, closes]
          exact if_pos rfl
        exact later step rest.symm
    · exact later (Kind.turn_of_isPlain (by rw [Kind.isPlain, opens, closes]; rfl) _) rfl

/-- A bracket that is open at the end of a walk was opened on the way, and since then only the brackets
above it are left open. -/
theorem exists_open (above : List Bracket) {below : List Bracket} {b : Bracket} {ks : List Kind}
    (h : openAfter [] ks = some (above ++ b :: below)) :
    ∃ before k inner, ks = before ++ k :: inner ∧ k.opens? = some b ∧
      openAfter [] inner = some above := by
  -- the last kind is the one whose turn is known
  induction ks using List.reverseRecOn generalizing above with
  | nil =>
    have none := Option.some.inj h
    simp at none
  | append_singleton ks k ih =>
    rw [openAfter_append] at h
    obtain ⟨between, walk, last⟩ := Option.bind_eq_some_iff.1 h
    rw [openAfter, Option.bind_eq_some_iff] at last
    obtain ⟨all, turn, done⟩ := last
    obtain rfl : all = above ++ b :: below := Option.some.inj done
    -- a bracket that was open before `k` already
    have earlier {above' : List Bracket} (step : k.turn above' = some above)
        (between_eq : between = above' ++ b :: below) :
        ∃ before l inner, ks ++ [k] = before ++ l :: inner ∧ l.opens? = some b ∧
          openAfter [] inner = some above := by
      subst between_eq
      obtain ⟨before, l, inner, rfl, opens, level⟩ := ih _ walk
      refine ⟨before, l, inner ++ [k], by simp, opens, ?_⟩
      rw [openAfter_append, level, Option.bind_some, openAfter, step]
      rfl
    rcases Kind.turn_cases turn with ⟨c, opens, eq⟩ | ⟨c, opens, closes, eq⟩ | ⟨opens, closes, eq⟩
    · cases above with
      | nil =>
        obtain ⟨rfl, -⟩ := List.cons.inj eq
        exact ⟨ks, k, [], rfl, opens, rfl⟩
      | cons d above =>
        obtain ⟨rfl, rest⟩ := List.cons.inj eq
        exact earlier (by rw [Kind.turn, opens]) rest.symm
    · have step : k.turn (c :: above) = some above := by
        rw [Kind.turn, opens, closes]
        exact if_pos rfl
      exact earlier step eq
    · exact earlier (Kind.turn_of_isPlain (by rw [Kind.isPlain, opens, closes]; rfl) _) eq.symm

/-- Where no bracket is left open, every bracket that was opened has met its partner. -/
theorem exists_partner {before inner : List Kind} {k : Kind} {b : Bracket} (opens : k.opens? = some b)
    (h : openAfter [] (before ++ k :: inner) = some []) :
    ∃ between l after, inner = between ++ l :: after ∧ l.closes? = some b ∧
      openAfter [] between = some [] := by
  rw [openAfter_append] at h
  obtain ⟨below, -, walk⟩ := Option.bind_eq_some_iff.1 h
  rw [openAfter, Kind.turn, opens, Option.bind_some] at walk
  exact exists_close [] walk (Nat.zero_le _)

/-- A bracket over which nothing is left open has not met its partner. -/
theorem no_partner {before inner post : List Kind} {k : Kind} {j : Nat}
    (level : openAfter [] inner = some [])
    (h : Partners (before ++ k :: (inner ++ post)) before.length j) :
    before.length + 1 + inner.length ≤ j := by
  obtain ⟨before', k', between, l, after, b, eq, same, rfl, -, closes, inside⟩ := h
  obtain ⟨rfl, eq'⟩ := List.append_inj eq same
  obtain ⟨rfl, eq''⟩ := List.cons.inj eq'
  by_contra short
  have early : between.length + 1 ≤ inner.length := by omega
  have begins : between ++ [l] <+: inner := by
    refine List.prefix_of_prefix_length_le ⟨after, ?_⟩ ⟨post, eq''⟩ (by simpa using early)
    simp
  obtain ⟨rest, rfl⟩ := begins
  -- the partner would close a bracket where none is open
  rw [List.append_assoc, openAfter_append, inside, Option.bind_some] at level
  exact openAfter_close closes level

/-- In tokens whose brackets all close, the first `n` have an opening bracket too many exactly when one
of them opens a bracket whose partner is not among them. -/
theorem netChange_take_pos_iff {ks : List Kind} (balanced : openAfter [] ks = some []) {n : Nat}
    (hn : n ≤ ks.length) :
    0 < netChange (ks.take n) ↔
      ∃ i < n, (∃ k, ks[i]? = some k ∧ k.opens?.isSome) ∧ ∀ j, Partners ks i j → n ≤ j := by
  obtain ⟨pre, post, rfl, rfl⟩ : ∃ pre post, ks = pre ++ post ∧ n = pre.length :=
    ⟨ks.take n, ks.drop n, (List.take_append_drop n ks).symm, by simp [hn]⟩
  rw [List.take_left]
  rw [openAfter_append] at balanced
  obtain ⟨opened, walk, -⟩ := Option.bind_eq_some_iff.1 balanced
  have count := length_openAfter walk
  rw [List.length_nil] at count
  constructor
  · -- the innermost bracket that is open after the first `n` has its partner later
    intro positive
    obtain ⟨b, below, rfl⟩ : ∃ b below, opened = b :: below := by
      rw [← List.ne_nil_iff_exists_cons, ← List.length_pos_iff]
      omega
    obtain ⟨before, k, inner, rfl, opens, level⟩ := exists_open [] walk
    refine ⟨before.length, by simp, ⟨k, by simp, by rw [opens]; rfl⟩, fun j partner => ?_⟩
    rw [List.append_assoc, List.cons_append] at partner
    have late := no_partner level partner
    simp only [List.length_append, List.length_cons]
    omega
  · rintro ⟨i, hi, ⟨k, at_i, opens⟩, outside⟩
    -- otherwise nothing is open after the first `n`, so the bracket has met its partner among them
    by_contra level
    obtain rfl : opened = [] := List.length_eq_zero_iff.1 (by omega)
    obtain ⟨b, opens⟩ := Option.isSome_iff_exists.1 opens
    rw [List.getElem?_append_left hi] at at_i
    obtain ⟨before, inner, rfl, rfl⟩ : ∃ before inner, pre = before ++ k :: inner ∧ i = before.length := by
      obtain ⟨_, rfl⟩ := List.getElem?_eq_some_iff.1 at_i
      refine ⟨pre.take i, pre.drop (i + 1), ?_, by simp [Nat.le_of_lt hi]⟩
      rw [← List.drop_eq_getElem_cons hi, List.take_append_drop]
    obtain ⟨between, l, after, rfl, closes, inside⟩ := exists_partner opens walk
    have partner := outside (before.length + 1 + between.length)
      ⟨before, k, between, l, after ++ post, b, by simp, rfl, rfl, opens, closes, inside⟩
    simp only [List.length_append, List.length_cons] at partner
    omega

end ScriptLang
