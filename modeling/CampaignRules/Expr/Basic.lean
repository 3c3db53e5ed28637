import CampaignRules.Error

/-! # Expressions

An expression is a literal, an array of expressions, a reference to a variable or an operation.
On the wire an array is an array, a reference is `{"var": path}` or `{"var": [path, default]}`, and
an operation is an object with one key, the operator, and the list of its arguments. Which
operators exist does not matter here: an unknown one fails when an evaluation reaches it. -/

namespace CampaignRules

inductive Expr where
  | literal (value : Json)
  | array (items : List Expr)
  | var (path : Bytes) (default : Option Expr)
  | operation (operator : Bytes) (args : List Expr)
  deriving Inhabited

namespace Expr

/-- The deepest nesting that is read. -/
def maxNesting : Nat := 256

/-- The path of a reference; null is the empty path, and a whole number is its decimal. -/
def varPath : Json → Except Error Bytes
  | .null => .ok []
  | .string path => .ok path
  | .unsigned n => .ok (Bytes.decimal n.toNat)
  | .signed n => .ok (Bytes.signedDecimal n.toInt)
  | v => .error (.malformedExpression (.pathType v.typeName))

mutual

/-- Reads a value that stands at the given level, the outermost level being one. -/
def ofJsonAt (level : Nat) (value : Json) : Except Error Expr :=
  if level > maxNesting then .error (.malformedExpression (.tooDeep maxNesting))
  else
    match value with
    | .array items => do return .array (← ofJsonItems (level + 1) items)
    | .object [(key, arg)] =>
      if key = "var" then
        match arg with
        | .array [] => .ok (.var [] none)
        | .array [path] => do return .var (← varPath path) none
        | .array [path, default] => do
          let default ← ofJsonAt (level + 1) default
          return .var (← varPath path) (some default)
        | .array items => .error (.malformedExpression (.varArguments items.length))
        | path => do return .var (← varPath path) none
      else
        match arg with
        | .array items => do return .operation key (← ofJsonItems (level + 1) items)
        | arg => do return .operation key [← ofJsonAt (level + 1) arg]
    | .object members => .error (.malformedExpression (.keyCount members.length))
    | scalar => .ok (.literal scalar)

def ofJsonItems (level : Nat) (items : List Json) : Except Error (List Expr) :=
  match items with
  | [] => .ok []
  | item :: rest => do
    let item ← ofJsonAt level item
    return item :: (← ofJsonItems level rest)

end

def ofJson (value : Json) : Except Error Expr :=
  ofJsonAt 1 value

mutual

def toJson : Expr → Json
  | .literal value => value
  | .array items => .array (itemsToJson items)
  | .var path none => .object [("var", .string path)]
  | .var path (some default) => .object [("var", .array [.string path, toJson default])]
  | .operation operator args => .object [(operator, .array (itemsToJson args))]

def itemsToJson : List Expr → List Json
  | [] => []
  | item :: rest => toJson item :: itemsToJson rest

end

mutual

/-- The number of levels; a literal has one. -/
def depth : Expr → Nat
  | .literal _ => 1
  | .array items => itemsDepth items + 1
  | .var _ none => 1
  | .var _ (some default) => depth default + 1
  | .operation _ args => itemsDepth args + 1

def itemsDepth : List Expr → Nat
  | [] => 0
  | item :: rest => max (depth item) (itemsDepth rest)

end

def kindName : Expr → Bytes
  | .literal _ | .array _ => "literal"
  | .var .. => "var"
  | .operation .. => "operation"

end Expr

end CampaignRules
