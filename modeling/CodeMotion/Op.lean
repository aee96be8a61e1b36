/-! The operations of the intermediate language. Their numeric codes are dense from 0 to 31; every
other code is an unknown operation, which counts as a terminator. -/

namespace CodeMotion

inductive UnaryOp
  | copy | neg | not | sext | zext
deriving DecidableEq, Inhabited

inductive BinaryOp
  | add | sub | mul | div | rem | and | or | xor | shl | shr | eq | ne | lt | le | gt | ge
deriving DecidableEq, Inhabited

inductive Op
  | alloca | load | store | lea
  | unary (op : UnaryOp)
  | binary (op : BinaryOp)
  | call | phi
  | jump | branch | switch | ret | unreachable
  | unknown (code : Nat)
deriving DecidableEq, Inhabited

namespace UnaryOp

def all : List UnaryOp := [copy, neg, not, sext, zext]

def name : UnaryOp → String
  | copy => "copy" | neg => "neg" | not => "not" | sext => "sext" | zext => "zext"

def ofName? (s : String) : Option UnaryOp := all.find? (·.name == s)

end UnaryOp

namespace BinaryOp

def all : List BinaryOp := [add, sub, mul, div, rem, and, or, xor, shl, shr, eq, ne, lt, le, gt, ge]

def name : BinaryOp → String
  | add => "add" | sub => "sub" | mul => "mul" | div => "div" | rem => "rem"
  | and => "and" | or => "or" | xor => "xor" | shl => "shl" | shr => "shr"
  | eq => "icmp.eq" | ne => "icmp.ne" | lt => "icmp.lt"
  | le => "icmp.le" | gt => "icmp.gt" | ge => "icmp.ge"

def ofName? (s : String) : Option BinaryOp := all.find? (·.name == s)

end BinaryOp

namespace Op

/-- The known operations, in the order of their codes. -/
def all : List Op :=
  [alloca, load, store, lea] ++ UnaryOp.all.map unary ++ BinaryOp.all.map binary ++
    [call, phi, jump, branch, switch, ret, unreachable]

def ofCode (code : Nat) : Op := all.getD code (.unknown code)

def name : Op → String
  | alloca => "alloca" | load => "load" | store => "store" | lea => "lea"
  | unary op => op.name
  | binary op => op.name
  | call => "call" | phi => "φ"
  | jump => "goto" | branch => "br" | switch => "switch"
  | ret => "ret" | unreachable => "unreachable"
  | unknown code => "op(" ++ toString code ++ ")"

/-- A terminator ends a basic block. -/
def isTerminator : Op → Bool
  | jump | branch | switch | ret | unreachable | unknown _ => true
  | _ => false

def isUnary : Op → Bool
  | unary _ => true
  | _ => false

def isBinary : Op → Bool
  | binary _ => true
  | _ => false

/-- Whether the operation defines a value. -/
def hasResult : Op → Bool
  | store => false
  | op => !op.isTerminator

/-- Whether code motion may move the operation at all. -/
def isMovable : Op → Bool
  | alloca | call | phi => false
  | op => !op.isTerminator

end Op
end CodeMotion
