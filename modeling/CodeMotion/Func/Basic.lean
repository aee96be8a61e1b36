import CodeMotion.Fault
import CodeMotion.Table
import CodeMotion.Value

/-! Functions as plain data: a table of blocks, a table of instructions, and the list of the
blocks that are attached. Nothing here asks a function to be well-formed; broken functions are
values too. -/

namespace CodeMotion

/-- Operands by operation: a store has a value and an address; a phi has one operand for each
incoming block; a branch has a condition and two targets; a switch has a scrutinee, then its cases,
and a default target, then the targets of the cases. -/
structure Instr where
  op : Op
  args : List Value := []
  targets : List BlockId := []
  incoming : List BlockId := []
  callee : String := ""
  block : Option BlockId := none
deriving DecidableEq, Inhabited

structure Block where
  name : String := ""
  phis : List InstrId := []
  body : List InstrId := []
  term : Option InstrId := none
  preds : List BlockId := []
deriving DecidableEq, Inhabited

structure Func where
  name : String
  params : List String := []
  /-- The attached blocks; the first is the entry. -/
  layout : List BlockId := []
  /-- A declaration without a body. -/
  isExternal : Bool := false
  blocks : Table Block := {}
  instrs : Table Instr := {}
deriving DecidableEq, Inhabited

namespace Func

/-- The block with a number; a number that names no block reads as an empty block. -/
def block (fn : Func) (b : BlockId) : Block := (fn.blocks.get? b).getD default

def instr (fn : Func) (i : InstrId) : Instr := (fn.instrs.get? i).getD default

def hasBlock (fn : Func) (b : BlockId) : Bool := (fn.blocks.get? b).isSome

/-- Refuses a number that names no block. -/
def checkBlock (fn : Func) (b : BlockId) : Except Fault Unit :=
  if fn.hasBlock b then .ok () else .error .dangling

/-- Refuses a layout with a number that names no block. -/
def checkLayout (fn : Func) : Except Fault Unit := fn.layout.forM fn.checkBlock

/-- The first attached block, if there is one and its number names a block. -/
def entry? (fn : Func) : Option BlockId := fn.layout.head?.filter (fn.hasBlock ·)

/-- Whether there is no body to work on. -/
def isEmpty (fn : Func) : Bool := fn.isExternal || fn.layout.isEmpty

/-- A parameter as a value. -/
def param (fn : Func) (index : Nat) : Value := .param index (fn.params.getD index "")

/-- The target slots of the terminator. -/
def targets (fn : Func) (b : BlockId) : List BlockId :=
  match (fn.block b).term with
  | none => []
  | some t => (fn.instr t).targets

/-- Whether a block has a target that names no block. -/
def dangles (fn : Func) (b : BlockId) : Bool := (fn.targets b).any fun s => !fn.hasBlock s

/-- The distinct successors in the order of the target slots. -/
def succs (fn : Func) (b : BlockId) : List BlockId := (fn.targets b).eraseDups

/-- The only element of a list of length one. -/
def only? {α : Type} : List α → Option α
  | [a] => some a
  | _ => none

/-- The only successor. A number that names no block is no answer. -/
def singleSucc? (fn : Func) (b : BlockId) : Option BlockId :=
  (only? (fn.succs b)).filter (fn.hasBlock ·)

/-- The only predecessor. A number that names no block is no answer. -/
def singlePred? (fn : Func) (b : BlockId) : Option BlockId :=
  (only? (fn.block b).preds).filter (fn.hasBlock ·)

/-- The phis, the body and the terminator of a block, in program order. -/
def listed (fn : Func) (b : BlockId) : List InstrId :=
  (fn.block b).phis ++ (fn.block b).body ++ (fn.block b).term.toList

/-- The instructions that use a value, in program order. -/
def uses (fn : Func) (v : Value) : List InstrId :=
  (fn.layout.flatMap fn.listed).filter fun i => (fn.instr i).args.contains v

/-- The number of phis and body instructions. -/
def instrCount (fn : Func) : Nat :=
  (fn.layout.flatMap fun b => (fn.block b).phis ++ (fn.block b).body).length

/-- The blocks without successors, in layout order. -/
def terminals (fn : Func) : List BlockId := fn.layout.filter fun b => (fn.succs b).isEmpty

end Func
end CodeMotion
