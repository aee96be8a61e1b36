import CodeMotion.Op

/-! Faults: the ways in which an operation can refuse its input, and changes of a state that may
stop with one. What was changed before the fault stays changed. -/

namespace CodeMotion

inductive Fault
  /-- A reference that names nothing was followed. -/
  | dangling
  /-- An index is outside its list. -/
  | outOfRange
  /-- A set was used before the size of its universe was known. -/
  | unsized
  /-- The arguments of a phi do not alternate between blocks and values. -/
  | phiArgument
  | oddPhi
  | noInsertionBlock
  | alreadyTerminated (block : String)
  | notUnary (op : Op)
  | notBinary (op : Op)
  | switchMismatch
  | detachedPosition (block : String)
  | notMemory (instr : String)
  | unprintable
  | repeatedBlock (id : Nat)
  | notCataloged (instr : String)
  | foreignBlock (block : String)
  | sizeMismatch (size : Nat) (width : Int)
  | missingSite (instr : String)
  | noLogger
  | negativeLimit (limit : Int)
  | emptySplitName
  | invalidSetting (key : String)
  | settingTooSmall (key : String)
deriving DecidableEq

namespace Fault

/-- The text of a fault. The first four have none: they are plain misuse of references and
indices. -/
def message? : Fault → Option String
  | dangling | outOfRange | unsized | phiArgument => none
  | oddPhi => some "ir: odd number of Phi arguments"
  | noInsertionBlock => some "ir: builder has no insertion block"
  | alreadyTerminated b => some ("ir: block already terminated: " ++ b)
  | notUnary op => some ("ir: not a unary operation: " ++ op.name)
  | notBinary op => some ("ir: not a binary operation: " ++ op.name)
  | switchMismatch => some "ir: mismatched switch cases and targets"
  | detachedPosition b => some ("ir: InsertBlockAfter: block not in function: " ++ b)
  | notMemory i => some ("ir: address of non-memory instruction: " ++ i)
  | unprintable => some "unreachable"
  | repeatedBlock id => some ("simple: node ID collision: " ++ toString id)
  | notCataloged i => some ("pre: instruction not in the catalog: " ++ i)
  | foreignBlock b => some ("pre: block not in function: " ++ b)
  | sizeMismatch size width =>
    some ("pre: bit-set of size " ++ toString size ++ " in a universe of " ++ toString width ++
      " expressions")
  | missingSite i => some ("pre: deletion site not in block: " ++ i)
  | noLogger => some "lcm: nil logger"
  | negativeLimit n => some ("lcm: invalid expression limit: " ++ toString n)
  | emptySplitName => some "lcm: empty split block prefix"
  | invalidSetting key => some ("lcm: invalid value for " ++ key)
  | settingTooSmall key => some ("lcm: value too small for " ++ key)

end Fault

/-- A change of a state that may stop with a fault, keeping what it had done until then. -/
abbrev Change (σ α : Type) := EStateM Fault σ α

namespace Change

/-- Carries out a change on a part of the state. -/
def zoom {σ τ α : Type} (part : σ → τ) (put : τ → σ → σ) (c : Change τ α) : Change σ α := fun s =>
  match c (part s) with
  | .ok a t => .ok a (put t s)
  | .error e t => .error e (put t s)

/-- A computation that changes nothing. -/
def check {σ α : Type} (x : Except Fault α) : Change σ α :=
  match x with
  | .ok a => pure a
  | .error e => throw e

end Change

/-- The entry of a list at an index, counted from 0. -/
def entryAt {α : Type} (l : List α) (n : Nat) : Except Fault α :=
  match l[n]? with
  | some a => .ok a
  | none => .error .outOfRange

/-- A whole number as an index below a bound. -/
def indexBelow (bound : Nat) (n : Int) : Except Fault Nat :=
  if 0 ≤ n ∧ n < bound then .ok n.toNat else .error .outOfRange

end CodeMotion
