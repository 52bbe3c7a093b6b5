import ConfigLang.Token.Basic

/-!
# Operators

The infix and prefix operators, the marks that write them, and how tightly the infix ones bind.
-/

namespace ConfigLang

/-- The infix operators. -/
inductive BinaryOp where
  | or
  | and
  | eq
  | ne
  | lt
  | le
  | gt
  | ge
  | bitOr
  | bitXor
  | bitAnd
  | shl
  | shr
  | add
  | sub
  | mul
  | div
  | mod
  | pow
deriving DecidableEq, Repr

namespace BinaryOp

/-- Every infix operator. -/
def all : List BinaryOp :=
  [or, and, eq, ne, lt, le, gt, ge, bitOr, bitXor, bitAnd, shl, shr, add, sub, mul, div, mod, pow]

/-- The mark that writes an operator. -/
def mark : BinaryOp → Mark
  | or => .or
  | and => .and
  | eq => .eq
  | ne => .ne
  | lt => .lt
  | le => .le
  | gt => .gt
  | ge => .ge
  | bitOr => .pipe
  | bitXor => .caret
  | bitAnd => .ampersand
  | shl => .shl
  | shr => .shr
  | add => .plus
  | sub => .minus
  | mul => .star
  | div => .slash
  | mod => .percent
  | pow => .pow

/-- The operator that a token writes. -/
def ofKind? : Kind → Option BinaryOp
  | .mark m => all.find? (·.mark = m)
  | _ => none

/-- How an operator is written. -/
def symbol (op : BinaryOp) : String :=
  op.mark.toText

/-- How tightly an operator binds; the greater, the tighter. -/
def power : BinaryOp → Nat
  | or => 1
  | and => 2
  | eq | ne | lt | le | gt | ge => 3
  | bitOr => 4
  | bitXor => 5
  | bitAnd => 6
  | shl | shr => 7
  | add | sub => 8
  | mul | div | mod => 9
  | pow => 10

/-- Whether a chain of an operator groups from the right. -/
def isRightAssociative (op : BinaryOp) : Bool :=
  op == pow

/-- The least power of an operator in a right operand. -/
def rightPower (op : BinaryOp) : Nat :=
  if op.isRightAssociative then op.power else op.power + 1

end BinaryOp

/-- The prefix operators. -/
inductive UnaryOp where
  | neg
  | not
  | bitNot
deriving DecidableEq, Repr

namespace UnaryOp

/-- Every prefix operator. -/
def all : List UnaryOp :=
  [neg, not, bitNot]

/-- The mark that writes an operator. -/
def mark : UnaryOp → Mark
  | neg => .minus
  | not => .not
  | bitNot => .tilde

/-- The operator that a token writes. -/
def ofKind? : Kind → Option UnaryOp
  | .mark m => all.find? (·.mark = m)
  | _ => none

/-- How an operator is written. -/
def symbol (op : UnaryOp) : String :=
  op.mark.toText

/-- The least power of an operator in the operand: powers bind tighter than a sign. -/
def operandPower : Nat :=
  BinaryOp.pow.power

end UnaryOp

end ConfigLang
