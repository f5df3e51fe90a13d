import Mathlib.Data.List.Forall2
import Mathlib.Logic.Function.Basic
import ProgramAnalysis.Analysis.Composite.CallStack
import ProgramAnalysis.Numeric.Machine
import ProgramAnalysis.Program.Automaton

/-! Executions of programs. A dialect says which values there are and what the operators compute; an
expression without value in a state stops the execution, and one that reads an input or through a pointer
has every value. -/
namespace ProgramAnalysis

structure Dialect where
  /-- The values of variables and inputs. -/
  value : Int → Prop
  neg : Int → Option Int
  bitNot : Int → Int
  arith : ArithOp → Int → Int → Option Int
  /-- A function's result stays in its variable when it has been read. -/
  keepsResult : Bool

/-- Values are 64-bit numbers. A remainder exists where the divisor is not zero. -/
def Dialect.machine : Dialect where
  value v := Machine.fits Machine.bound64 v = true
  neg x := Machine.checked Machine.bound64 (-x)
  bitNot := Bitwise.not
  arith op x y :=
    match op with
    | .rem => if y = 0 then none else some (x.tmod y)
    | op => Machine.compute? Machine.bound64 op x y
  keepsResult := false

theorem Dialect.machine_arith {op : ArithOp} {x y v w : Int}
    (result : machine.arith op x y = some v)
    (found : Machine.compute? Machine.bound64 op x y = some w) : v = w := by
  cases op with
  | rem =>
    simp only [machine] at result
    simp only [Machine.compute?] at found
    split at result
    · cases result
    · rename_i divisor
      rw [if_neg divisor] at found
      obtain ⟨q, -, rfl⟩ := Option.map_eq_some_iff.mp found
      exact (Option.some.inj result).symm
  | _ => exact Option.some.inj (result.symm.trans found)

abbrev Store := String → Int

namespace Store

def set (s : Store) (x : String) (v : Int) : Store := Function.update s x v

@[simp] theorem set_same (s : Store) (x : String) (v : Int) : s.set x v x = v := by
  rw [set, Function.update_self]

@[simp] theorem set_other {s : Store} {x y : String} (v : Int) (other : y ≠ x) :
    s.set x v y = s y := by
  rw [set, Function.update_of_ne other]

@[simp] theorem set_self (s : Store) (x : String) : s.set x (s x) = s :=
  Function.update_eq_self x s

theorem set_set_value (s : Store) (x y : String) :
    (s.set x (s y)).set y (s y) = s.set x (s y) := by
  have same : s.set x (s y) y = s y := by
    by_cases h : y = x
    · subst h
      exact set_same s y (s y)
    · exact set_other _ h
  simpa [same] using set_self (s.set x (s y)) y

def setAll (s : Store) (bindings : List (String × Int)) : Store :=
  bindings.foldl (fun s (x, v) => s.set x v) s

end Store

def bit (b : Bool) : Int := if b then 1 else 0

theorem bit_nonneg (b : Bool) : 0 ≤ bit b := by cases b <;> decide

@[simp] theorem bit_ne_zero (b : Bool) : (bit b != 0) = b := by cases b <;> rfl

/-- The values that an expression may have. A connective whose left side decides does not look at the
right side. -/
inductive Expr.Evaluates (D : Dialect) (s : Store) : Expr → Int → Prop
  | var (x : String) : Evaluates D s (.var x) (s x)
  | const (c : Int) : Evaluates D s (.const c) c
  | nondet {v : Int} (any : D.value v) : Evaluates D s .nondet v
  | deref {a : Expr} {v : Int} (any : D.value v) : Evaluates D s (.deref a) v
  | neg {a : Expr} {x v : Int} (operand : Evaluates D s a x) (result : D.neg x = some v) :
      Evaluates D s (.neg a) v
  | not {a : Expr} {x : Int} (operand : Evaluates D s a x) : Evaluates D s (.not a) (bit (x == 0))
  | bitNot {a : Expr} {x : Int} (operand : Evaluates D s a x) :
      Evaluates D s (.bitNot a) (D.bitNot x)
  | arith {op : ArithOp} {a b : Expr} {x y v : Int} (left : Evaluates D s a x)
      (right : Evaluates D s b y) (result : D.arith op x y = some v) :
      Evaluates D s (.arith op a b) v
  | compare {c : Comparison} {a b : Expr} {x y : Int} (left : Evaluates D s a x)
      (right : Evaluates D s b y) : Evaluates D s (.compare c a b) (bit (c.holds x y))
  | logic {c : Connective} {a b : Expr} {x y : Int} (left : Evaluates D s a x)
      (right : Evaluates D s b y) :
      Evaluates D s (.logic c a b) (bit (if (x != 0) = c.unit then y != 0 else !c.unit))
  | decided {c : Connective} {a b : Expr} {x : Int} (left : Evaluates D s a x)
      (decides : (x != 0) = !c.unit) : Evaluates D s (.logic c a b) (bit (!c.unit))

/-- A connective whose result does not decide it has looked at both sides. -/
theorem Expr.Evaluates.sides {D : Dialect} {s : Store} {c : Connective} {a b : Expr} {v : Int}
    (value : (Expr.logic c a b).Evaluates D s v) (unit : (v != 0) = c.unit) :
    ∃ x y, a.Evaluates D s x ∧ b.Evaluates D s y ∧ (x != 0) = c.unit ∧ (y != 0) = c.unit := by
  cases value with
  | decided left decides =>
    rw [bit_ne_zero] at unit
    exact absurd unit (by cases c <;> decide)
  | @logic _ _ _ x y left right =>
    rw [bit_ne_zero] at unit
    by_cases undecided : (x != 0) = c.unit
    · rw [if_pos undecided] at unit
      exact ⟨x, y, left, right, undecided, unit⟩
    · rw [if_neg undecided] at unit
      exact absurd unit (by cases c <;> decide)

/-- What the operators of the expression compute, the machine computes too where it has a result. -/
def Expr.Faithful (D : Dialect) : Expr → Prop
  | .var _ | .const _ | .nondet => True
  | .deref a | .not a => a.Faithful D
  | .neg a => (∀ x v w, D.neg x = some v → Machine.checked Machine.bound64 (-x) = some w → v = w) ∧
      a.Faithful D
  | .bitNot a => (∀ x, D.bitNot x = Bitwise.not x) ∧ a.Faithful D
  | .arith op a b => (∀ x y v w, D.arith op x y = some v →
        Machine.compute? Machine.bound64 op x y = some w → v = w) ∧
      a.Faithful D ∧ b.Faithful D
  | .compare _ a b | .logic _ a b => a.Faithful D ∧ b.Faithful D

theorem Expr.faithful_machine (e : Expr) : e.Faithful .machine := by
  induction e with
  | var | const | nondet => trivial
  | deref a ih | not a ih => exact ih
  | neg a ih => exact ⟨fun x v w result found => Option.some.inj (result.symm.trans found), ih⟩
  | bitNot a ih => exact ⟨fun _ => rfl, ih⟩
  | arith op a b ihA ihB => exact ⟨fun x y v w => Dialect.machine_arith, ihA, ihB⟩
  | compare c a b ihA ihB | logic c a b ihA ihB => exact ⟨ihA, ihB⟩

def Action.expressions : Action → List Expr
  | .skip => []
  | .declare _ init => init.toList
  | .assign target value => [target, value]
  | .assume condition _ => [condition]
  | .call _ arguments _ _ => arguments
  | .resume _ _ target => target.toList
  | .result _ value => value.toList

/-- What an action may make of a state. An assignment through a pointer may change every variable. -/
inductive Action.Acts (D : Dialect) (s : Store) : Action → Store → Prop
  | skip : Acts D s .skip s
  | declare {x : String} {v : Int} (any : D.value v) : Acts D s (.declare x none) (s.set x v)
  | init {x : String} {e : Expr} {v : Int} (value : e.Evaluates D s v) :
      Acts D s (.declare x (some e)) (s.set x v)
  | assign {x : String} {e : Expr} {v : Int} (value : e.Evaluates D s v) :
      Acts D s (.assign (.var x) e) (s.set x v)
  | store {a e : Expr} {t : Store} (any : ∀ x, D.value (t x)) : Acts D s (.assign (.deref a) e) t
  | assume {e : Expr} {truth : Bool} {v : Int} (value : e.Evaluates D s v)
      (holds : (v != 0) = truth) : Acts D s (.assume e truth) s
  | call {f : String} {args : List Expr} {params : List String} {site : Point} {vs : List Int}
      (values : List.Forall₂ (Expr.Evaluates D s) args vs) (arity : args.length = params.length) :
      Acts D s (.call f args params site) (s.setAll (params.zip vs))
  | ignore {f : String} {site : Point} {v : Int} (any : D.value v)
      (kept : D.keepsResult = true → v = s (resultVar f)) :
      Acts D s (.resume f site none) (s.set (resultVar f) v)
  | receive {f : String} {site : Point} {x : String} {v : Int} (any : D.value v)
      (kept : D.keepsResult = true → v = s (resultVar f)) :
      Acts D s (.resume f site (some (.var x)))
        ((s.set x (s (resultVar f))).set (resultVar f) v)
  | receiveAt {f : String} {site : Point} {a : Expr} {t : Store} (any : ∀ x, D.value (t x)) :
      Acts D s (.resume f site (some (.deref a))) t
  | yield {f : String} {e : Expr} {v : Int} (value : e.Evaluates D s v) :
      Acts D s (.result f (some e)) (s.set (resultVar f) v)
  | finish {f : String} : Acts D s (.result f none) (s.set (resultVar f) 0)

/-- What an action makes of the pending calls: only the innermost call returns, and to its site. -/
inductive CallStack.Moves : CallStack → Action → CallStack → Prop
  | call {k : CallStack} {f : String} {args : List Expr} {params : List String} {site : Point} :
      Moves k (.call f args params site) ⟨⟨f, site⟩ :: k.frames⟩
  | resume {f : String} {site : Point} {target : Option Expr} {frames : List Frame} :
      Moves ⟨⟨f, site⟩ :: frames⟩ (.resume f site target) ⟨frames⟩
  | skip {k : CallStack} : Moves k .skip k
  | declare {k : CallStack} {x : String} {init : Option Expr} : Moves k (.declare x init) k
  | assign {k : CallStack} {target value : Expr} : Moves k (.assign target value) k
  | assume {k : CallStack} {e : Expr} {truth : Bool} : Moves k (.assume e truth) k
  | result {k : CallStack} {f : String} {value : Option Expr} : Moves k (.result f value) k

theorem CallStack.after?_of_moves {k k' : CallStack} {a : Action} (moves : k.Moves a k') :
    k.after? a = some k' := by
  cases moves with
  | resume => simp [after?, top?, pop?]
  | _ => rfl

theorem CallStack.moves_of_after? {k k' : CallStack} {a : Action} (after : k.after? a = some k') :
    k.Moves a k' := by
  cases a with
  | resume f site target =>
    simp only [after?] at after
    split at after
    · rename_i innermost
      obtain ⟨frames⟩ := k
      cases frames with
      | nil => cases innermost
      | cons frame frames =>
        cases innermost
        cases after
        exact .resume
    · cases after
  | call f args params site =>
    cases after
    exact .call
  | skip =>
    cases after
    exact .skip
  | declare x init =>
    cases after
    exact .declare
  | assign target value =>
    cases after
    exact .assign
  | assume e truth =>
    cases after
    exact .assume
  | result f value =>
    cases after
    exact .result

/-- A moment of an execution. -/
structure Config where
  point : Point
  store : Store
  stack : CallStack

namespace Config

structure Follows (D : Dialect) (edge : Edge) (c c' : Config) : Prop where
  source : edge.source = c.point
  target : c'.point = edge.target
  acts : edge.action.Acts D c.store c'.store
  moves : c.stack.Moves edge.action c'.stack

/-- An execution begins at the entry without pending calls. -/
structure Starts (D : Dialect) (program : Automaton) (c : Config) : Prop where
  point : c.point = program.entry
  values : ∀ x, D.value (c.store x)
  stack : c.stack = .empty

inductive Reached (D : Dialect) (program : Automaton) : Config → Prop
  | start {c : Config} (starts : Starts D program c) : Reached D program c
  | step {c c' : Config} {edge : Edge} (before : Reached D program c) (mem : edge ∈ program.edges)
      (follows : Follows D edge c c') : Reached D program c'

end Config

end ProgramAnalysis
