import CodeMotion.Func.Text

/-! Changes of a function. Blocks and instructions are never forgotten: detaching one only takes it
out of the lists. A change that goes through several blocks stops at the first number that names
none. -/

namespace CodeMotion.Func

def modifyBlock (fn : Func) (b : BlockId) (f : Block → Block) : Func :=
  { fn with blocks := fn.blocks.modify b f }

def modifyInstr (fn : Func) (i : InstrId) (f : Instr → Instr) : Func :=
  { fn with instrs := fn.instrs.modify i f }

/-- Stops at a number that names no block. -/
def require (b : BlockId) : Change Func Unit := do
  Change.check ((← get).checkBlock b)

/-- Changes a block that has to exist. -/
def editBlock (b : BlockId) (f : Block → Block) : Change Func Unit := do
  require b
  modify (·.modifyBlock b f)

/-- A new block that is not attached yet. -/
def newBlock (fn : Func) (name : String) : BlockId × Func :=
  (fn.blocks.size + 1, { fn with blocks := fn.blocks.push { name } })

/-- A new block at the end of the layout. -/
def createBlock (fn : Func) (name : String) : BlockId × Func :=
  let (b, fn) := fn.newBlock name
  (b, { fn with layout := fn.layout ++ [b] })

/-- A new instruction that is in no block yet. -/
def newInstr (fn : Func) (ins : Instr) : InstrId × Func :=
  (fn.instrs.size + 1, { fn with instrs := fn.instrs.push ins })

/-- A copy of an instruction that is in no block yet. -/
def clone (fn : Func) (i : InstrId) : InstrId × Func :=
  fn.newInstr { fn.instr i with block := none }

def setParent (fn : Func) (i : InstrId) (b : Option BlockId) : Func :=
  fn.modifyInstr i ({ · with block := b })

/-- Adds an instruction to the body of a block, before a position. -/
def insertBody (fn : Func) (b : BlockId) (n : Nat) (i : InstrId) : Func :=
  (fn.setParent i (some b)).modifyBlock b fun blk => { blk with body := blk.body.insertIdx n i }

def append (fn : Func) (b : BlockId) (i : InstrId) : Func :=
  (fn.setParent i (some b)).modifyBlock b fun blk => { blk with body := blk.body ++ [i] }

def prepend (fn : Func) (b : BlockId) (i : InstrId) : Func := fn.insertBody b 0 i

/-- Makes a block the parent of an instruction. The instruction has no parent if there is no such
block. -/
def adopt (b : BlockId) (i : InstrId) : Change Func Unit := do
  modify fun fn => fn.setParent i (if fn.hasBlock b then some b else none)
  require b

/-- `append` to a block that has to exist. -/
def attachLast (b : BlockId) (i : InstrId) : Change Func Unit := do
  adopt b i
  modify (·.append b i)

/-- `prepend` to a block that has to exist. -/
def attachFirst (b : BlockId) (i : InstrId) : Change Func Unit := do
  adopt b i
  modify (·.prepend b i)

/-- `insertBody` at a position that may lie outside the body. The parent is set in any case. -/
def attachAt (b : BlockId) (pos : Int) (i : InstrId) : Change Func Unit := do
  adopt b i
  let n ← Change.check (indexBelow (((← get).block b).body.length + 1) pos)
  modify (·.insertBody b n i)

/-- Takes the first listing of an instruction out of the body of a block, if there is one. -/
def remove (fn : Func) (b : BlockId) (i : InstrId) : Bool × Func :=
  if (fn.block b).body.contains i then
    (true, (fn.setParent i none).modifyBlock b fun blk => { blk with body := blk.body.erase i })
  else (false, fn)

/-- `remove` from a block that has to exist. -/
def detach (b : BlockId) (i : InstrId) : Change Func Bool := do
  require b
  let (found, fn) := (← get).remove b i
  set fn
  return found

/-- Replaces every entry of a list that equals `old`. -/
def substitute {α : Type} [BEq α] (old new : α) (l : List α) : List α :=
  l.map fun a => if a == old then new else a

/-- Replaces an operand and tells how often it occurred. -/
def replaceArg (fn : Func) (i : InstrId) (old new : Value) : Nat × Func :=
  ((fn.instr i).args.count old, fn.modifyInstr i fun ins =>
    { ins with args := substitute old new ins.args })

def replaceTarget (fn : Func) (i : InstrId) (old new : BlockId) : Nat × Func :=
  ((fn.instr i).targets.count old,
    fn.modifyInstr i fun ins => { ins with targets := substitute old new ins.targets })

/-- Lets the phis of a block take from `new` what they took from `old`. -/
def replaceIncoming (fn : Func) (b old new : BlockId) : Func :=
  (fn.block b).phis.foldl (fun fn p =>
    fn.modifyInstr p fun ins => { ins with incoming := substitute old new ins.incoming }) fn

/-- Replaces a value in one block, and counts the operands. -/
def replaceIn (fn : Func) (old new : Value) (b : BlockId) : Nat × Func :=
  (fn.listed b).foldl (fun (n, fn) i =>
    let (k, fn) := fn.replaceArg i old new
    (n + k, fn)) (0, fn)

/-- Replaces a value in every attached block and in some more blocks, and counts the operands. -/
def replaceUses (old new : Value) (extra : List BlockId) : Change Func Nat := do
  ((← get).layout ++ extra).foldlM (fun n b => do
    require b
    let (k, fn) := (← get).replaceIn old new b
    set fn
    return n + k) 0

def addPred (fn : Func) (b p : BlockId) : Func :=
  fn.modifyBlock b fun blk => { blk with preds := blk.preds ++ [p] }

/-- Enters a block into the predecessor list of a successor. -/
def link (b s : BlockId) : Change Func Unit := do
  require s
  modify (·.addPred s b)

/-- Computes all predecessor lists again from the terminators, in layout order. -/
def rebuild : Change Func Unit := do
  let fn ← get
  fn.layout.forM (editBlock · ({ · with preds := [] }))
  fn.layout.forM fun b => (fn.succs b).forM (link b)

/-- Attaches a block right after another one. -/
def insertBlockAfter (fn : Func) (pos b : BlockId) : Except Fault Func :=
  match fn.layout.findIdx? (· == pos) with
  | none => fn.blockName pos >>= fun name => .error (.detachedPosition name)
  | some n => .ok { fn with layout := fn.layout.insertIdx (n + 1) b }

def setArg (fn : Func) (i : InstrId) (pos : Int) (v : Value) : Except Fault Func := do
  let n ← indexBelow (fn.instr i).args.length pos
  return fn.modifyInstr i fun ins => { ins with args := ins.args.set n v }

end CodeMotion.Func
