import CodeMotion.Func.Dominance
import CodeMotion.Func.Text

/-! What can be wrong with a function: first its structure, block by block, then operands that are
used where their definition was not passed on every path. -/

namespace CodeMotion

inductive Defect
  | entryHasPreds (b : BlockId)
  | noTerminator (b : BlockId)
  | notTerminator (b : BlockId) (i : InstrId)
  | notPhi (b : BlockId) (i : InstrId)
  | unevenPhi (b : BlockId) (i : InstrId)
  | phiFromStranger (b : BlockId) (i : InstrId) (p : BlockId)
  | misplaced (b : BlockId) (i : InstrId)
  | wrongParent (b : BlockId) (i : InstrId)
  | detachedSucc (b s : BlockId)
  | missingPred (b s : BlockId)
  | stalePred (b p : BlockId)
  | detachedDef (b : BlockId) (d : InstrId)
  | usedTooEarly (b : BlockId) (d : InstrId)
  | notDominated (b : BlockId) (d : InstrId) (home : BlockId)
  | inPhi (p : InstrId) (cause : Defect)
  /-- A number that names no block, where there has to be one. It cannot be reported. -/
  | noBlock
deriving DecidableEq

namespace Defect

def message (fn : Func) : Defect → Except Fault String
  | entryHasPreds b => return "entry block " ++ fn.blockText b ++ " has predecessors"
  | noTerminator b => return fn.blockText b ++ ": missing terminator"
  | notTerminator b i =>
    return fn.blockText b ++ ": " ++ (← fn.instrText i) ++ " is not a terminator"
  | notPhi b i =>
    return fn.blockText b ++ ": non-Phi instruction " ++ (← fn.instrText i) ++ " in Phi list"
  | unevenPhi b i => return fn.blockText b ++ ": malformed Phi node " ++ (← fn.instrText i)
  | phiFromStranger b i p =>
    return fn.blockText b ++ ": Phi node " ++ (Value.instr i).text ++ " has incoming block " ++
      fn.blockText p ++ " which is not a predecessor"
  | misplaced b i => return fn.blockText b ++ ": misplaced instruction " ++ (← fn.instrText i)
  | wrongParent b i =>
    return fn.blockText b ++ ": instruction " ++ (Value.instr i).text ++ " has a wrong parent"
  | detachedSucc b s =>
    return fn.blockText b ++ ": successor " ++ fn.blockText s ++ " is not in the function"
  | missingPred b s =>
    return fn.blockText b ++ ": missing from the predecessors of " ++ fn.blockText s
  | stalePred b p => return fn.blockText b ++ ": stale predecessor " ++ fn.blockText p
  | detachedDef b d =>
    return fn.blockText b ++ ": use of detached instruction " ++ (Value.instr d).text
  | usedTooEarly b d =>
    return fn.blockText b ++ ": " ++ (Value.instr d).text ++ " is used before its definition"
  | notDominated b d home =>
    return fn.blockText b ++ ": definition of " ++ (Value.instr d).text ++ " in " ++
      fn.blockText home ++
      " does not dominate its use"
  | noBlock => throw .dangling
  | inPhi p cause => return "phi " ++ (Value.instr p).text ++ ": " ++ (← cause.message fn)

end Defect

namespace Func

def phiDefect? (fn : Func) (b : BlockId) (i : InstrId) : Option Defect :=
  let ins := fn.instr i
  if ins.op ≠ .phi then some (.notPhi b i)
  else if ins.args.length ≠ ins.incoming.length then some (.unevenPhi b i)
  else (ins.incoming.find? (!(fn.block b).preds.contains ·)).map (.phiFromStranger b i)

def bodyDefect? (fn : Func) (b : BlockId) (i : InstrId) : Option Defect :=
  if (fn.instr i).op = .phi ∨ (fn.instr i).op.isTerminator then some (.misplaced b i) else none

def parentDefect? (fn : Func) (b : BlockId) (i : InstrId) : Option Defect :=
  if (fn.instr i).block ≠ some b then some (.wrongParent b i) else none

def succDefect? (fn : Func) (b s : BlockId) : Option Defect :=
  if !fn.layout.contains s then some (.detachedSucc b s)
  else if !fn.hasBlock s then some .noBlock
  else if !(fn.block s).preds.contains b then some (.missingPred b s)
  else none

def predDefect? (fn : Func) (b p : BlockId) : Option Defect :=
  if !fn.hasBlock p then some .noBlock
  else if !(fn.succs p).contains b then some (.stalePred b p)
  else none

/-- What is wrong with a block, apart from its operands. -/
def blockDefect? (fn : Func) (b : BlockId) : Option Defect :=
  match (fn.block b).term with
  | none => some (if fn.hasBlock b then .noTerminator b else .noBlock)
  | some t =>
    if !(fn.instr t).op.isTerminator then some (.notTerminator b t)
    else (fn.block b).phis.findSome? (fn.phiDefect? b)
      <|> (fn.block b).body.findSome? (fn.bodyDefect? b)
      <|> (fn.listed b).findSome? (fn.parentDefect? b)
      <|> (fn.succs b).findSome? (fn.succDefect? b)
      <|> (fn.block b).preds.findSome? (fn.predDefect? b)

def structureDefect? (fn : Func) : Option Defect :=
  match fn.layout.head? with
  | none => none
  | some e =>
    if !fn.hasBlock e then some .noBlock
    else if (fn.block e).preds ≠ [] then some (.entryHasPreds e)
      else fn.layout.findSome? fn.blockDefect?

/-- The last place of an instruction in the body of a block. -/
def place? (fn : Func) (b : BlockId) (i : InstrId) : Option Nat :=
  ((fn.block b).body.zipIdx.reverse.find? (·.1 == i)).map (·.2)

/-- Whether the definition `d` is missing at a place of a block. Phis are defined before
the body. -/
def defDefect? (fn : Func) (t : DomTree) (b : BlockId) (n : Nat) (d : InstrId) : Option Defect :=
  match (fn.instr d).block with
  | none => some (.detachedDef b d)
  | some home =>
    if !fn.layout.contains home then some (.detachedDef b d)
    else if home = b then
      if (fn.place? b d).any (n ≤ ·) then some (.usedTooEarly b d) else none
    else if t.dominates home b then none
    else some (.notDominated b d home)

/-- An operand of a phi must be defined at the end of the block it comes from. -/
def phiUseDefect? (fn : Func) (t : DomTree) (p : InstrId) : Option Defect :=
  ((fn.instr p).args.zip (fn.instr p).incoming).findSome? fun (v, source) =>
    if t.isReachable source then
      (v.instr?.bind (fn.defDefect? t source ((fn.block source).body.length + 1))).map (.inPhi p)
    else none

def useDefect? (fn : Func) (t : DomTree) (b : BlockId) (i : InstrId) (n : Nat) : Option Defect :=
  (fn.instr i).args.findSome? fun v => v.instr?.bind (fn.defDefect? t b n)

/-- What is wrong with the operands of a block. -/
def operandDefect? (fn : Func) (t : DomTree) (b : BlockId) : Option Defect :=
  if !t.isReachable b then none
  else (fn.block b).phis.findSome? (fn.phiUseDefect? t)
    <|> ((fn.block b).body ++ (fn.block b).term.toList).zipIdx.findSome? fun (i, n) =>
      fn.useDefect? t b i n

/-- The first defect of a function. Declarations and functions without blocks have none. -/
def defect? (fn : Func) : Option Defect :=
  if fn.isEmpty then none
  else fn.structureDefect? <|> fn.layout.findSome? (fn.operandDefect? (.ofFunc fn))

/-- The message for the first defect of a function. -/
def verify (fn : Func) : Except Fault (Option String) :=
  match fn.defect? with
  | none => return none
  | some d => return some ("func " ++ fn.name ++ ": " ++ (← d.message fn))

end Func
end CodeMotion
