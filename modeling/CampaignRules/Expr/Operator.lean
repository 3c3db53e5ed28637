import CampaignRules.Json.Coercion

/-! # Standard operators

An operator works on the meanings of its arguments, not on their values: a meaning is evaluated when
the operator asks for it, in the scope that the operator gives it. What an evaluation does beside
computing values is left to the observer that carries it out. -/

namespace CampaignRules

/-- The data that references are resolved in. Inside an iteration they are the current element, and
the empty path names it. -/
structure Scope where
  data : Json
  iteration : Bool

/-- What an observer sees of a node before it is evaluated. The input of an operation or an array is
not known yet: it will be the outputs of its children. -/
structure NodeView where
  operation : Bytes
  input : Option Json

/-- A way to carry out an evaluation. -/
class Observer (m : Type → Type) extends Monad m where
  fail {α : Type} : Error → m α
  node : NodeView → m Json → m Json

namespace Observer

variable {m : Type → Type} [Observer m]

def ofExcept {α : Type} : Except Error α → m α
  | .ok a => pure a
  | .error e => fail e

end Observer

/-- What an expression means: its value in a scope. -/
abbrev Meaning (m : Type → Type) := Scope → m Json

inductive Operator where
  | missing
  | missingSome
  | ifThen
  | ternary
  | looseEqual
  | strictEqual
  | looseUnequal
  | strictUnequal
  | greater
  | greaterOrEqual
  | less
  | lessOrEqual
  | negation
  | truth
  | not
  | and
  | or
  | add
  | subtract
  | multiply
  | divide
  | remainder
  | minimum
  | maximum
  | element
  | concatenate
  | substring
  | merge
  | map
  | filter
  | reduce
  | all
  | none
  | some
  deriving DecidableEq

namespace Operator

def name : Operator → Bytes
  | .missing => "missing"
  | .missingSome => "missing_some"
  | .ifThen => "if"
  | .ternary => "?:"
  | .looseEqual => "=="
  | .strictEqual => "==="
  | .looseUnequal => "!="
  | .strictUnequal => "!=="
  | .greater => ">"
  | .greaterOrEqual => ">="
  | .less => "<"
  | .lessOrEqual => "<="
  | .negation => "!"
  | .truth => "!!"
  | .not => "not"
  | .and => "and"
  | .or => "or"
  | .add => "+"
  | .subtract => "-"
  | .multiply => "*"
  | .divide => "/"
  | .remainder => "%"
  | .minimum => "min"
  | .maximum => "max"
  | .element => "in"
  | .concatenate => "cat"
  | .substring => "substr"
  | .merge => "merge"
  | .map => "map"
  | .filter => "filter"
  | .reduce => "reduce"
  | .all => "all"
  | .none => "none"
  | .some => "some"

/-- All operators, apart from references to variables. -/
def standard : List Operator :=
  [.missing, .missingSome, .ifThen, .ternary, .looseEqual, .strictEqual, .looseUnequal,
    .strictUnequal, .greater, .greaterOrEqual, .less, .lessOrEqual, .negation, .truth, .not, .and,
    .or, .add, .subtract, .multiply, .divide, .remainder, .minimum, .maximum, .element,
    .concatenate, .substring, .merge, .map, .filter, .reduce, .all, .none, .some]

def ofName? (name : Bytes) : Option Operator :=
  standard.find? fun op => op.name = name

theorem ofName?_name (op : Operator) : ofName? op.name = Option.some op := by
  cases op <;> rfl

/-- A name that the language gives a meaning to: that of an operator, or of a reference. -/
def isStandardName (name : Bytes) : Bool :=
  name = "var" || (ofName? name).isSome

def arity : Operator → Arity
  | .missing | .add | .concatenate | .merge => ⟨0, Option.none⟩
  | .ifThen | .ternary | .and | .or | .multiply | .minimum | .maximum => ⟨1, Option.none⟩
  | .negation | .truth | .not => ⟨1, Option.some 1⟩
  | .subtract => ⟨1, Option.some 2⟩
  | .less | .lessOrEqual | .substring | .reduce => ⟨2, Option.some 3⟩
  | _ => ⟨2, Option.some 2⟩

def checkArity (op : Operator) (count : Nat) : Except Error Unit :=
  if op.arity.admits count then .ok ()
  else .error (.malformedExpression (.arity op.name op.arity count))

/-- Evaluates comparisons of neighbours up to the first that does not hold. -/
def chain (holds : Json → Json → Except Error Bool) : List Json → Except Error Bool
  | a :: b :: rest => do
    if ← holds a b then chain holds (b :: rest) else return false
  | _ => .ok true

/-- Arithmetic on operands in the order given. -/
def arithmetic (op : Operator) (values : List Json) : Except Error Json := do
  op.checkArity values.length
  let operands ← values.mapM (Json.operand op.name)
  match op, operands with
  | .add, xs => return Json.ofNumber (xs.foldl (· + ·) 0.0)
  | .multiply, xs => return Json.ofNumber (xs.foldl (· * ·) 1.0)
  | .subtract, [x] => return Json.ofNumber (-x)
  | .subtract, [x, y] => return Json.ofNumber (x - y)
  | .divide, [x, y] => return if y == 0.0 then .null else Json.ofNumber (x / y)
  | .remainder, [x, y] =>
    return if y == 0.0 then .null else Json.ofNumber (Binary64.remainder x y)
  | .minimum, x :: xs => return Json.ofNumber (xs.foldl (fun best y => if y < best then y else best) x)
  | .maximum, x :: xs => return Json.ofNumber (xs.foldl (fun best y => if best < y then y else best) x)
  | _, _ => return .null

/-- A part of a text, or an item of an array. -/
def isElement (needle : Json) : Json → Except Error Bool
  | .null => .ok false
  | .string text => .ok (Bytes.contains needle.display text)
  | .array items => .ok (items.any fun item => Json.strictlyEqual item needle)
  | haystack => .error (.typeMismatch (.notSearchable haystack.typeName))

/-- A number as a position, cut off to a word; what is no number counts as zero. -/
def position (v : Json) : Except Error Int := do
  match ← v.toNumber with
  | Option.some x => return (Binary64.toInt64 x).toInt
  | Option.none => return 0

/-- The bytes from a start on; a negative start counts from the end. -/
def tailFrom (text : Bytes) (start : Int) : Bytes :=
  let start := if start < 0 then max 0 (text.length + start) else start
  text.drop start.toNat

/-- So many bytes from the front; a negative count leaves so many out at the end. -/
def takeCount (tail : Bytes) (count : Int) : Bytes :=
  if count < 0 then tail.take (tail.length + count).toNat else tail.take count.toNat

/-- A count is looked at only if something is left after the start. -/
def substringOf (text : Bytes) (start : Json) (count : Option Json) : Except Error Bytes := do
  let start ← position start
  let tail := tailFrom text start
  if tail.isEmpty then return []
  else
    match count with
    | Option.none | Option.some .null => return tail
    | Option.some count => return takeCount tail (← position count)

/-- The names that lead to nothing, to null or to the empty text. -/
def absentNames (data : Json) (names : List Json) : List Json :=
  names.filter fun name =>
    let path := name.display
    match if path.isEmpty then Option.none else data.resolvePath? path with
    | Option.none | Option.some .null | Option.some (.string []) => true
    | Option.some _ => false

/-- Names are the items of a first argument that is an array, or else all arguments. -/
def namesOf : List Json → List Json
  | .array names :: _ => names
  | values => values

/-- No names if enough are present, and otherwise those that are absent. -/
def absentUnlessEnough (data need names : Json) : Except Error Json :=
  match need.toFloat?, names with
  | Option.none, _ => .error (.malformedExpression .noRequiredCount)
  | Option.some need, .array names =>
    let absent := absentNames data names
    let present := Binary64.ofInt (names.length - absent.length)
    .ok (.array (if need ≤ present then [] else absent))
  | Option.some _, _ => .error (.malformedExpression .noRequiredNames)

/-- Arrays are joined, other values are taken as items. -/
def mergeItems (values : List Json) : List Json :=
  values.flatMap fun
    | .array items => items
    | v => [v]

/-- An operator whose arguments are all evaluated before it works on their values. -/
def onValues (op : Operator) (data : Json) (values : List Json) : Except Error Json :=
  match op, values with
  | .looseEqual, [a, b] => (Json.looselyEqual a b).map .bool
  | .looseUnequal, [a, b] => (Json.looselyEqual a b).map fun r => .bool !r
  | .strictEqual, [a, b] => .ok (.bool (Json.strictlyEqual a b))
  | .strictUnequal, [a, b] => .ok (.bool !Json.strictlyEqual a b)
  | .greater, [a, b] => (Json.lessThan b a).map .bool
  | .greaterOrEqual, [a, b] => (Json.lessOrEqual b a).map .bool
  | .less, values => (chain Json.lessThan values).map .bool
  | .lessOrEqual, values => (chain Json.lessOrEqual values).map .bool
  | .negation, [v] | .not, [v] => .ok (.bool !v.truthy)
  | .truth, [v] => .ok (.bool v.truthy)
  | .element, [needle, haystack] => (isElement needle haystack).map .bool
  | .concatenate, values => .ok (.string (values.flatMap Json.display))
  | .substring, [text, start] => (substringOf text.display start Option.none).map .string
  | .substring, [text, start, count] =>
    (substringOf text.display start (Option.some count)).map .string
  | .merge, values => .ok (.array (mergeItems values))
  | .missing, values => .ok (.array (absentNames data (namesOf values)))
  | .missingSome, [need, names] => absentUnlessEnough data need names
  | op, values => op.arithmetic values

def isArithmetic : Operator → Bool
  | .add | .subtract | .multiply | .divide | .remainder | .minimum | .maximum => true
  | _ => false

/-! ### Evaluation on demand -/

section

variable {m : Type → Type} [Observer m]

def evaluateAll (scope : Scope) : List (Meaning m) → m (List Json)
  | [] => pure []
  | arg :: rest => do
    let value ← arg scope
    return value :: (← evaluateAll scope rest)

/-- Tests and results alternate; a last test without a result is the result of no test. -/
def firstResult (scope : Scope) : List (Meaning m) → m Json
  | [] => pure .null
  | [otherwise] => otherwise scope
  | test :: result :: rest => do
    if (← test scope).truthy then result scope else firstResult scope rest

/-- The first value whose truth decides, or else the last value. -/
def firstDeciding (decides : Bool) (scope : Scope) : List (Meaning m) → m Json
  | [] => pure .null
  | [arg] => arg scope
  | arg :: rest => do
    let value ← arg scope
    if value.truthy = decides then return value else firstDeciding decides scope rest

/-- The value of a meaning for each element. -/
def mapElements (logic : Meaning m) : List Json → m (List Json)
  | [] => pure []
  | item :: rest => do
    let value ← logic ⟨item, true⟩
    return value :: (← mapElements logic rest)

def filterElements (logic : Meaning m) : List Json → m (List Json)
  | [] => pure []
  | item :: rest => do
    let value ← logic ⟨item, true⟩
    let kept ← filterElements logic rest
    return if value.truthy then item :: kept else kept

/-- Some element has a value of the given truth; elements after the first such are not looked at. -/
def anyElement (logic : Meaning m) (wanted : Bool) : List Json → m Bool
  | [] => pure false
  | item :: rest => do
    let value ← logic ⟨item, true⟩
    if value.truthy = wanted then return true else anyElement logic wanted rest

/-- The scope of a fold: the current element and what was accumulated before it. -/
def frame (current accumulator : Json) : Scope :=
  ⟨.object [("accumulator", accumulator), ("current", current)], true⟩

def foldElements (logic : Meaning m) : Json → List Json → m Json
  | accumulator, [] => pure accumulator
  | accumulator, item :: rest => do
    foldElements logic (← logic (frame item accumulator)) rest

/-- The elements to iterate over; anything but an array has none. -/
def elements (v : Json) : List Json :=
  v.items?.getD []

/-- The meaning of an operation with a standard operator. -/
def run (op : Operator) (args : List (Meaning m)) : Meaning m := fun scope => do
  if op.isArithmetic then
    let values ← evaluateAll scope args
    Observer.ofExcept (op.arithmetic values)
  else
    Observer.ofExcept (op.checkArity args.length)
    match op, args with
    | .ifThen, args | .ternary, args => firstResult scope args
    | .and, args => firstDeciding false scope args
    | .or, args => firstDeciding true scope args
    | .map, [source, logic] => do
      return .array (← mapElements logic (elements (← source scope)))
    | .filter, [source, logic] => do
      return .array (← filterElements logic (elements (← source scope)))
    | .all, [source, logic] => do
      let items := elements (← source scope)
      if items.isEmpty then return .bool false
      else return .bool !(← anyElement logic false items)
    | .none, [source, logic] => do
      return .bool !(← anyElement logic true (elements (← source scope)))
    | .some, [source, logic] => do
      return .bool (← anyElement logic true (elements (← source scope)))
    | .reduce, source :: logic :: initial => do
      let source ← source scope
      let start ← match initial with
        | [] => pure .null
        | initial :: _ => initial scope
      match source with
      | .array items => foldElements logic start items
      | _ => return start
    | op, args => do
      let values ← evaluateAll scope args
      Observer.ofExcept (op.onValues scope.data values)

end

end Operator

end CampaignRules
