import CodeMotion.Func.Basic

/-! The printed form of instructions, blocks and functions. An instruction with fewer operands or
targets than its operation prints, or with an unknown operation, has none. -/

namespace CodeMotion.Func

/-- The name of a block, or its number if it has none. A mention of no block has a text too. -/
def blockText (fn : Func) (b : BlockId) : String :=
  if !fn.hasBlock b then "<nil>"
  else if (fn.block b).name = "" then "bb_" ++ toString b
  else (fn.block b).name

/-- The name of a block that has to exist. -/
def blockName (fn : Func) (b : BlockId) : Except Fault String := do
  fn.checkBlock b
  return fn.blockText b

/-- One operand of a phi, with the block it comes from. -/
def phiText (fn : Func) (ins : Instr) (n : Nat) (v : Value) : Except Fault String := do
  return fn.blockText (← entryAt ins.incoming n) ++ ": " ++ v.text

/-- One case of a switch; `n` counts the target slots from 1. -/
def caseText (fn : Func) (ins : Instr) (n : Nat) (b : BlockId) : Except Fault String := do
  return "  " ++ (← entryAt ins.args n).text ++ " => " ++ fn.blockText b ++ ","

def instrText (fn : Func) (i : InstrId) : Except Fault String := do
  let ins := fn.instr i
  let self := (Value.instr i).text ++ " = "
  let arg n := Value.text <$> entryAt ins.args n
  let target n := fn.blockText <$> entryAt ins.targets n
  match ins.op with
  | .alloca => return self ++ "alloca"
  | .load => return self ++ "load " ++ (← arg 0)
  | .store => return "store " ++ (← arg 0) ++ " -> *" ++ (← arg 1)
  | .lea => return self ++ "&(" ++ (← arg 0) ++ ")[" ++ (← arg 1) ++ "]"
  | .unary op => return self ++ op.name ++ " " ++ (← arg 0)
  | .binary op => return self ++ op.name ++ " " ++ (← arg 0) ++ ", " ++ (← arg 1)
  | .call => return self ++ "call " ++ ins.callee ++ "(" ++ Value.list ins.args ++ ")"
  | .phi =>
    let parts ← ins.args.zipIdx.mapM fun (v, n) => fn.phiText ins n v
    return self ++ "φ(" ++ ", ".intercalate parts ++ ")"
  | .jump => return "goto " ++ (← target 0)
  | .branch => return "br " ++ (← arg 0) ++ ", " ++ (← target 0) ++ ", " ++ (← target 1)
  | .ret => return "ret \x7b" ++ Value.list ins.args ++ "\x7d"
  | .unreachable => return "unreachable"
  | .switch =>
    let other ← target 0
    let cases ← (ins.targets.drop 1).zipIdx.mapM fun (b, n) => fn.caseText ins (n + 1) b
    return "switch " ++ (← arg 0) ++ " \x7b\n" ++
      "\n".intercalate (cases ++ ["  _ => " ++ other ++ ","]) ++ "\n\x7d"
  | .unknown _ => throw .unprintable

/-- The lines of every instruction of a block. -/
def instrLines (fn : Func) (b : BlockId) : Except Fault (List String) := do
  return (← (fn.listed b).mapM fn.instrText).flatMap (·.splitOn "\n")

/-- The comment that names the predecessors of a block. -/
def predsText (fn : Func) (b : BlockId) : Except Fault String := do
  return "# pred = \x7b" ++ ", ".intercalate (← (fn.block b).preds.mapM fn.blockName) ++ "\x7d"

def blockBody (fn : Func) (b : BlockId) : Except Fault String := do
  let name ← fn.blockName b
  let preds ← fn.predsText b
  let lines ← fn.instrLines b
  return name ++ ":    " ++ preds ++ "\n" ++ "\n".intercalate (lines.map ("    " ++ ·))

def text (fn : Func) : Except Fault String := do
  if fn.isExternal then return "declare " ++ fn.name
  let blocks ← fn.layout.mapM fn.blockBody
  let params := (List.range fn.params.length).map fun i => (fn.param i).text
  return "func " ++ fn.name ++ "(" ++ ", ".intercalate params ++ ") \x7b\n" ++
    "\n".intercalate blocks ++ "\n\x7d"

/-- The address a load or store accesses. -/
def address (fn : Func) (i : InstrId) : Except Fault Value := do
  match (fn.instr i).op with
  | .load => entryAt (fn.instr i).args 0
  | .store => entryAt (fn.instr i).args 1
  | _ => throw (.notMemory (← fn.instrText i))

end CodeMotion.Func
