import CodeMotion.Func.Edit

/-! A builder adds instructions at the end of its block and keeps the predecessor lists in step with
the terminators it adds. -/

namespace CodeMotion

structure Builder where
  func : Func
  /-- The block that instructions are added to. -/
  cursor : Option BlockId := none
deriving DecidableEq, Inhabited

namespace Builder

def setBlock (b : Option BlockId) : Change Builder Unit := modify ({ · with cursor := b })

/-- A new instruction; its number is taken even if nothing comes of it. -/
def newInstr (ins : Instr) : Change Builder InstrId := do
  let (i, fn) := (← get).func.newInstr ins
  modify ({ · with func := fn })
  return i

/-- Adds an instruction to the body of the current block. -/
def emit (ins : Instr) : Change Builder InstrId := do
  let { func, cursor } ← get
  let some b := cursor | throw .noInsertionBlock
  if (func.block b).term.isSome then throw (.alreadyTerminated (func.blockText b))
  let i ← newInstr ins
  modify fun s => { s with func := s.func.append b i }
  return i

def alloca : Change Builder InstrId := emit { op := .alloca }

def load (addr : Value) : Change Builder InstrId := emit { op := .load, args := [addr] }

def store (v addr : Value) : Change Builder InstrId := emit { op := .store, args := [v, addr] }

def lea (base offset : Value) : Change Builder InstrId :=
  emit { op := .lea, args := [base, offset] }

def unary (op : Op) (v : Value) : Change Builder InstrId := do
  if !op.isUnary then throw (.notUnary op)
  emit { op, args := [v] }

def binary (op : Op) (x y : Value) : Change Builder InstrId := do
  if !op.isBinary then throw (.notBinary op)
  emit { op, args := [x, y] }

def call (callee : String) (args : List Value) : Change Builder InstrId :=
  emit { op := .call, args, callee }

/-- Reads arguments that alternate between blocks and values. -/
def phiPairs : List (BlockId ⊕ Value) → Except Fault (List (BlockId × Value))
  | [] => .ok []
  | .inl b :: .inr v :: rest => ((b, v) :: ·) <$> phiPairs rest
  | _ => .error .phiArgument

/-- Adds a phi, whose arguments alternate between incoming blocks and values. -/
def phi (args : List (BlockId ⊕ Value)) : Change Builder InstrId := do
  if args.length % 2 ≠ 0 then throw .oddPhi
  let cursor := (← get).cursor
  let i ← newInstr { op := .phi, block := cursor }
  let pairs ← Change.check (phiPairs args)
  modify fun s => { s with func := s.func.modifyInstr i fun ins =>
    { ins with args := pairs.map (·.2), incoming := pairs.map (·.1) } }
  let some b := cursor | throw .dangling
  modify fun s => { s with
    func := s.func.modifyBlock b fun blk => { blk with phis := blk.phis ++ [i] } }
  return i

def onFunc {α : Type} (c : Change Func α) : Change Builder α :=
  c.zoom (·.func) fun fn s => { s with func := fn }

/-- Enters a block into the predecessor list of a successor, if it is not there yet. -/
def link (b s : BlockId) : Change Func Unit := do
  Func.require s
  modify fun fn => if (fn.block s).preds.contains b then fn else fn.addPred s b

/-- Ends the current block with a new terminator. -/
def terminate (ins : Instr) : Change Builder InstrId := do
  let i ← newInstr ins
  let { func, cursor } ← get
  let some b := cursor | throw .dangling
  if (func.block b).term.isSome then throw (.alreadyTerminated (func.blockText b))
  let ended := (func.setParent i (some b)).modifyBlock b ({ · with term := some i })
  modify ({ · with func := ended })
  onFunc ((ended.succs b).forM (link b))
  return i

def jump (target : BlockId) : Change Builder InstrId :=
  terminate { op := .jump, targets := [target] }

def branch (cond : Value) (yes no : BlockId) : Change Builder InstrId :=
  terminate { op := .branch, args := [cond], targets := [yes, no] }

def switch (v : Value) (other : BlockId) (cases : List Int) (targets : List BlockId) :
    Change Builder InstrId := do
  if cases.length ≠ targets.length then throw .switchMismatch
  terminate { op := .switch, args := v :: cases.map .const, targets := other :: targets }

def ret (args : List Value) : Change Builder InstrId := terminate { op := .ret, args }

def unreachable : Change Builder InstrId := terminate { op := .unreachable }

end Builder
end CodeMotion
