import PinRing.Document.Value
import PinRing.Number.Exact

/-! How document values compare.  Numbers of any kind compare with each other, texts with texts, and
lists with lists by the first items that differ; other values are in no order. -/

namespace PinRing

/-- Whether a text comes before another or is the same, by character codes. -/
def Text.atMost : List Char → List Char → Bool
  | [], _ => true
  | _ :: _, [] => false
  | c :: cs, d :: ds => if c = d then atMost cs ds else c.toNat < d.toNat

namespace Value

/-- The number that a value stands for; truth values stand for one and zero. -/
def number? : Value → Option Number
  | int n => some (.finite n)
  | bool b => some (.finite (if b then 1 else 0))
  | float x => some (Double.ofFloat x).number
  | _ => none

/-- The integer that a value equals. -/
def whole? (v : Value) : Option Int := v.number?.bind (·.whole?)

mutual

/-- Whether two items count as the same.  A document has one value that is not a number. -/
def same : Value → Value → Bool
  | null, null => true
  | text s, text t => s == t
  | list vs, list ws => allSame vs ws
  | mapping es, mapping fs => es.length == fs.length && entriesSame es fs
  | v, w =>
    match v.number?, w.number? with
    | some a, some b => a = b
    | _, _ => false

def allSame : List Value → List Value → Bool
  | [], [] => true
  | v :: vs, w :: ws => same v w && allSame vs ws
  | _, _ => false

/-- Each of the first entries has its like among the others. -/
def entriesSame : List (Value × Value) → List (Value × Value) → Bool
  | [], _ => true
  | (k, v) :: rest, fs => fs.any (fun f => same k f.1 && same v f.2) && entriesSame rest fs

end

mutual

/-- Whether a value is at most another, for values that are in order. -/
def atMost? : Value → Value → Option Bool
  | text s, text t => some (Text.atMost s.toList t.toList)
  | list vs, list ws => listAtMost? vs ws
  | v, w => do return (← v.number?).atMost (← w.number?)

def listAtMost? : List Value → List Value → Option Bool
  | [], _ => some true
  | _ :: _, [] => some false
  | v :: vs, w :: ws => if same v w then listAtMost? vs ws else atMost? v w

end

@[simp] theorem number?_int (n : Int) : (int n).number? = some (.finite n) := rfl

@[simp] theorem whole?_int (n : Int) : (int n).whole? = some n := by
  simp [whole?, Number.whole?]

@[simp] theorem atMost?_int (m n : Int) : (int m).atMost? (int n) = some (decide (m ≤ n)) := by
  simp [atMost?, Number.atMost, Rat.intCast_le_intCast]

end Value

end PinRing
