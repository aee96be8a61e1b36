import CodeMotion.Func.Builder
import CodeMotion.Random.Source

/-! Random functions. The terminators are chosen first, then the blocks are filled. Operands are
parameters, constants, stack slots of the entry block and values of the same block, so that every
use is dominated by its definition whatever the shape of the graph. -/

namespace CodeMotion

structure RandomConfig where
  minBlocks : Int := 2
  maxBlocks : Int := 10
  maxInstrs : Int := 6
  slots : Int := 2
deriving DecidableEq

namespace RandomConfig

/-- The end of a block: the blocks are named by their place. -/
inductive Plan
  | ret
  | jump (target : Nat)
  | branch (yes no : Nat)
  | switch (other first second : Nat)
deriving DecidableEq

def Plan.targets : Plan → List Nat
  | ret => []
  | jump a => [a]
  | branch a b => [a, b]
  | switch a b c => [a, b, c]

/-- Random choices that build a function. Nothing is left of a failed one. -/
abbrev Gen (σ α : Type) := StateT (σ × Builder) (Except Fault) α

variable {σ : Type} (g : NumberSource σ)

def number (a b : Int) : Gen σ Int := fun (s, bd) =>
  let (n, s) := g.number a b s
  .ok (n, (s, bd))

def build {α : Type} (c : Change Builder α) : Gen σ α := fun (s, bd) =>
  match c bd with
  | .ok a bd => .ok (a, (s, bd))
  | .error e _ => .error e

/-- One of the entries of a list. -/
def pick (l : List Value) : Gen σ Value := do
  let n ← number g 0 (l.length - 1)
  liftM (indexBelow l.length n >>= entryAt l)

/-- A target is any block but the entry. -/
def target (blocks : Nat) : Gen σ Nat := do
  let n ← number g 1 (blocks - 1)
  liftM (indexBelow blocks n)

/-- The last block always returns. -/
def plan (blocks i : Nat) : Gen σ Plan := do
  let k ← number g 0 9
  if i + 1 = blocks ∨ k ≤ 1 then return .ret
  else if k ≤ 4 then return .jump (← target g blocks)
  else if k ≤ 8 then return .branch (← target g blocks) (← target g blocks)
  else return .switch (← target g blocks) (← target g blocks) (← target g blocks)

def createBlock : Change Builder BlockId := do
  let s ← get
  let (b, fn) := s.func.createBlock ""
  set { s with func := fn }
  return b

/-- The plans of the blocks, and for each block the places of those that end in a jump to it. -/
structure Outline where
  plans : List (BlockId × Plan) := []
  preds : Array (List Nat) := #[]

def blockAt (plans : List (BlockId × Plan)) (i : Nat) : BlockId := (plans.map (·.1)).getD i 0

/-- Records a jump of the block at place `i`, unless the last one to the same target was its own. -/
def record (i : Nat) (preds : Array (List Nat)) (t : Nat) : Array (List Nat) :=
  if (preds.getD t []).getLast? = some i then preds else preds.modify t (· ++ [i])

/-- Creates the blocks and decides how each of them ends. -/
def planAll (blocks : Nat) : Gen σ Outline :=
  (List.range blocks).foldlM (fun o i => do
    let b ← build createBlock
    let p ← plan g blocks i
    return { plans := o.plans ++ [(b, p)], preds := p.targets.foldl (record i) o.preds })
    { preds := .replicate blocks [] }

/-- A block where paths meet may start with a phi of constants. -/
def phi (preds : List BlockId) : Gen σ (List Value) := do
  if preds.length < 2 then return []
  if (← number g 0 1) ≠ 1 then return []
  let args ← preds.mapM fun p => do
    return [.inl p, .inr (.const (← number g 0 2))]
  return [.instr (← build (Builder.phi args.flatten))]

/-- One instruction, and what it adds to the values at hand. -/
def instr (slots pool : List Value) : Gen σ (List Value) := do
  let k ← number g 0 9
  if k ≤ 2 then
    let addr ← pick g slots
    return [.instr (← build (Builder.load addr))]
  else if k ≤ 4 then
    let v ← pick g pool
    let addr ← pick g slots
    let _ ← build (Builder.store v addr)
    return []
  else if k ≤ 7 then
    let op ← number g 0 2
    let x ← pick g pool
    let y ← pick g pool
    return [.instr (← build
      (Builder.binary (.binary ([BinaryOp.add, .sub, .mul].getD op.toNat .add)) x y))]
  else if k = 8 then
    let v ← pick g pool
    return [.instr (← build (Builder.unary (.unary .neg) v))]
  else
    let f ← number g 0 2
    let v ← pick g pool
    return [.instr (← build (Builder.call ("f" ++ toString f) [v]))]

def instrs (slots : List Value) : Nat → List Value → Gen σ (List Value)
  | 0, pool => return pool
  | n + 1, pool => do instrs slots n (pool ++ (← instr g slots pool))

def finish (plans : List (BlockId × Plan)) (cond : Value) (pool : List Value) (p : Plan) :
    Gen σ Unit := do
  let block := blockAt plans
  match p with
  | .ret => do
    let v ← pick g pool
    let _ ← build (Builder.ret [v])
  | .jump a => do
    let _ ← build (Builder.jump (block a))
  | .branch a b => do
    let _ ← build (Builder.branch cond (block a) (block b))
  | .switch a b c => do
    let v ← pick g pool
    let _ ← build (Builder.switch v (block a) [0, 1] [block b, block c])

def fill (cfg : RandomConfig) (o : Outline) (slots : List Value) (i : Nat) (b : BlockId)
    (p : Plan) : Gen σ Unit := do
  build (Builder.setBlock (some b))
  let fn := (← get).2.func
  let merged ← phi g ((o.preds.getD i []).map (blockAt o.plans))
  let count ← number g 0 cfg.maxInstrs
  let pool ← instrs g slots count.toNat ([fn.param 0, fn.param 1, .const 0, .const 1] ++ merged)
  finish g o.plans (fn.param 2) pool p

def generate (cfg : RandomConfig) : Gen σ Unit := do
  let blocks ← number g cfg.minBlocks cfg.maxBlocks
  if blocks < 0 then throw .outOfRange
  let o ← planAll g blocks.toNat
  let (first, _) ← liftM (entryAt o.plans 0)
  build (Builder.setBlock (some first))
  let slots ← (List.range cfg.slots.toNat).mapM fun _ => build Builder.alloca
  o.plans.zipIdx.forM fun ((b, p), i) => fill g cfg o (slots.map .instr) i b p

/-- A random function with three parameters. -/
def randomFunc (cfg : RandomConfig) (name : String) (s : σ) : Except Fault Func :=
  match generate g cfg (s, { func := { name, params := ["x", "y", "c"] } }) with
  | .ok (_, (_, bd)) => .ok bd.func
  | .error e => .error e

end RandomConfig
end CodeMotion
