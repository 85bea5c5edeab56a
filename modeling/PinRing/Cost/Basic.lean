import PinRing.Document.Convert
import PinRing.Document.Order

/-! Costs of putting a pin on a slot.  An infeasible choice is a case of its own and never enters
arithmetic; it becomes a number only as the weight that the assignment solver sees. -/

namespace PinRing

/-- A cost: a number, or none that could be paid. -/
inductive Cost where
  | finite (value : Int)
  | infeasible
deriving DecidableEq

namespace Cost

/-- The weight of an infeasible choice, the greatest signed 32-bit number. -/
def sentinel : Int := 2147483647

/-- The cost behind a bare answer: no number, or one that reaches the sentinel, is infeasible. -/
def ofAnswer : Option Int → Cost
  | none => infeasible
  | some v => if sentinel ≤ v then infeasible else finite v

/-- The cost behind an answer of any kind.  An answer that does not reach the sentinel loses its
fraction, and one that is in no order with numbers is refused. -/
def ofValue : Value → Except ReadFault Cost
  | .null => .ok infeasible
  | v =>
    match (Value.int sentinel).atMost? v with
    | none => .error .wrongType
    | some true => .ok infeasible
    | some false => v.toInt.map finite

/-- Bare answers are the integers and null among the values. -/
theorem ofValue_answer (a : Option Int) : ofValue (a.elim .null .int) = .ok (ofAnswer a) := by
  cases a with
  | none => rfl
  | some n =>
    simp only [Option.elim_some, ofValue, Value.atMost?_int, ofAnswer]
    by_cases h : sentinel ≤ n
    · simp [h]
    · simp [h, Value.toInt, Except.map]

def feasible : Cost → Bool
  | finite _ => true
  | infeasible => false

/-- The value of a feasible cost, and nothing for an infeasible one. -/
def feasibleValue : Cost → Int
  | finite v => v
  | infeasible => 0

/-- A sum is feasible if both terms are. -/
def add : Cost → Cost → Cost
  | finite a, finite b => finite (a + b)
  | _, _ => infeasible

instance : Add Cost := ⟨add⟩

/-- The number that stands for a cost in the assignment problem. -/
def weight : Cost → Int
  | finite v => v
  | infeasible => sentinel

/-- Feasible before infeasible, then the smaller value. -/
def better : Cost → Cost → Bool
  | finite a, finite b => a < b
  | finite _, infeasible => true
  | infeasible, _ => false

/-- The written form, such as `Cost(5)`. -/
def text : Cost → String
  | finite v => s!"Cost({v})"
  | infeasible => "INFEASIBLE"

@[simp] theorem finite_add_finite (a b : Int) : finite a + finite b = finite (a + b) := rfl

@[simp] theorem infeasible_add (c : Cost) : infeasible + c = infeasible := by
  cases c <;> rfl

@[simp] theorem add_infeasible (c : Cost) : c + infeasible = infeasible := by
  cases c <;> rfl

/-- No cost is better than itself. -/
theorem better_irrefl (c : Cost) : c.better c = false := by
  cases c <;> simp [better]

theorem better_trans {a b c : Cost} (hab : a.better b) (hbc : b.better c) : a.better c := by
  cases a <;> cases b <;> cases c <;> simp_all [better]
  omega

/-- Costs of which neither is better are equal. -/
theorem eq_of_not_better {a b : Cost} (hab : a.better b = false) (hba : b.better a = false) :
    a = b := by
  cases a <;> cases b <;> simp_all [better]
  omega

end Cost

end PinRing
