import Mathlib
import CodeMotion.Func.Basic

/-! What functions compute, for any meaning of their operations. Memory has one cell for each
address value; a call is seen from outside and does not touch memory. -/

namespace CodeMotion

structure Event (V : Type) where
  callee : String
  args : List V

structure Interp (V : Type) where
  /-- The constants, parameters and globals. -/
  leaf : Value → V
  slot : InstrId → V
  apply : Op → List V → V
  /-- The answer of a call, which may depend on all calls up to it. -/
  reply : List (Event V) → V
  /-- The target slot that a terminator chooses, counted round the slots it has. -/
  pick : Op → List V → Nat
  /-- What a phi is if control comes from none of its blocks. -/
  absent : V

structure Machine (V : Type) where
  env : InstrId → V
  mem : Value → V
  calls : List (Event V)

/-- Control stands in front of a block, and came from another one unless it has just started. -/
structure Config (V : Type) where
  block : BlockId
  last : Option BlockId
  machine : Machine V

/-- How a run ends: with the terminator that has no targets, if any, and its operands. -/
structure Outcome (V : Type) where
  term : Option (Op × List V)
  mem : Value → V
  calls : List (Event V)

variable {V : Type}

def Interp.value (I : Interp V) (σ : Machine V) : Value → V
  | .instr d => σ.env d
  | v => I.leaf v

def callsOf : Config V ⊕ Outcome V → List (Event V)
  | .inl c => c.machine.calls
  | .inr r => r.calls

namespace Func

variable (fn : Func) (I : Interp V)

/-- The value that an instruction stores or defines, other than by a call. -/
def yield (σ : Machine V) (i : InstrId) : V :=
  match (fn.instr i).op with
  | .load => σ.mem ((fn.instr i).args.headD (.const 0))
  | .store => I.value σ ((fn.instr i).args.headD (.const 0))
  | .alloca => I.slot i
  | op => I.apply op ((fn.instr i).args.map (I.value σ))

def exec (σ : Machine V) (i : InstrId) : Machine V :=
  match (fn.instr i).op with
  | .store =>
    { σ with mem := Function.update σ.mem ((fn.instr i).args.getD 1 (.const 0)) (fn.yield I σ i) }
  | .call =>
    let calls := σ.calls ++ [⟨(fn.instr i).callee, (fn.instr i).args.map (I.value σ)⟩]
    { σ with env := Function.update σ.env i (I.reply calls), calls }
  | _ => { σ with env := Function.update σ.env i (fn.yield I σ i) }

def merge (last : Option BlockId) (σ : Machine V) (i : InstrId) : V :=
  match ((fn.instr i).args.zip (fn.instr i).incoming).find? fun q => some q.2 == last with
  | some (v, _) => I.value σ v
  | none => I.absent

/-- All phis of a block take their values at once. -/
def enter (b : BlockId) (last : Option BlockId) (σ : Machine V) : Machine V :=
  { σ with env := fun d => if d ∈ (fn.block b).phis then fn.merge I last σ d else σ.env d }

def pass (b : BlockId) (last : Option BlockId) (σ : Machine V) : Machine V :=
  (fn.block b).body.foldl (fn.exec I) (fn.enter I b last σ)

def ending (b : BlockId) (σ : Machine V) : Option (Op × List V) :=
  (fn.block b).term.map fun t => ((fn.instr t).op, (fn.instr t).args.map (I.value σ))

def goto? (b : BlockId) (σ : Machine V) : Option BlockId :=
  (fn.ending I b σ).bind fun (op, vs) => (fn.targets b)[I.pick op vs % (fn.targets b).length]?

def step (c : Config V) : Config V ⊕ Outcome V :=
  let σ := fn.pass I c.block c.last c.machine
  match fn.goto? I c.block σ with
  | some b => .inl ⟨b, some c.block, σ⟩
  | none => .inr ⟨fn.ending I c.block σ, σ.mem, σ.calls⟩

def run : Nat → Config V → Config V ⊕ Outcome V
  | 0, c => .inl c
  | n + 1, c =>
    match fn.step I c with
    | .inl c => run n c
    | .inr r => .inr r

end Func
end CodeMotion
