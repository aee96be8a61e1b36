/-! The values an operand can refer to. Two operands are the same value exactly when they are equal
here: constants by their number, everything else by what it names. -/

namespace CodeMotion

/-- Blocks are numbered from 1 in each function; 0 names no block. -/
abbrev BlockId := Nat

/-- Instructions are numbered from 1 in each function; 0 names no instruction. -/
abbrev InstrId := Nat

inductive Value
  | const (n : Int)
  | param (index : Nat) (name : String)
  | global (index : Nat) (name : String)
  | instr (id : InstrId)
deriving DecidableEq, Inhabited

namespace Value

def text : Value → String
  | const n => "$" ++ toString n
  | param index name => if name = "" then "%arg" ++ toString index else "%" ++ name
  | global _ name => "@" ++ name
  | instr id => "%" ++ toString id

/-- The instruction a value is the result of, if any. -/
def instr? : Value → Option InstrId
  | instr id => some id
  | _ => none

def list (vs : List Value) : String := ", ".intercalate (vs.map text)

end Value

/-- A value as it is seen from outside its function: parameters and instructions of different
functions differ, constants and globals are shared. -/
inductive ScopedValue
  | shared (v : Value)
  | owned (func : Nat) (v : Value)
deriving DecidableEq

namespace ScopedValue

def ofValue (func : Nat) : Value → ScopedValue
  | .const n => .shared (.const n)
  | .global i s => .shared (.global i s)
  | v => .owned func v

def value : ScopedValue → Value
  | shared v => v
  | owned _ v => v

end ScopedValue
end CodeMotion
