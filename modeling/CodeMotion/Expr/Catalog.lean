import CodeMotion.Fault
import CodeMotion.Func.Text

/-! Expressions are what code motion counts and moves. A store is known by its address, which is its
destination, and its value; any other instruction is an expression of its own. A catalog numbers
expressions in the order in which they are first added. Its entries keep operation and destination,
while the operands are those that the first instruction has at the time of asking. The numbers are
kept in buckets, so that an expression is compared only with those that agree with it in operation,
destination and number of operands. -/

namespace CodeMotion

structure Expression (ν : Type) where
  op : Op
  dest : ν
  operands : List ν
deriving DecidableEq

namespace Expression

variable {ν : Type}

/-- What has to agree before two expressions are compared. -/
structure Head (ν : Type) where
  op : Op
  dest : ν
  arity : Nat
deriving DecidableEq

def head (e : Expression ν) : Head ν := ⟨e.op, e.dest, e.operands.length⟩

def uses [BEq ν] (e : Expression ν) (v : ν) : Bool := e.operands.contains v

def hasResult (e : Expression ν) : Bool := e.op.hasResult

def text (render : ν → String) (e : Expression ν) : String :=
  "(" ++ e.op.name ++ " \x7b" ++ ", ".intercalate (e.operands.map render) ++ "\x7d -> " ++
    render e.dest ++ ")"

end Expression

/-- A way of reading instructions that are named by `ι` and take operands from `ν`. -/
structure Reader (ν ι : Type) where
  op : ι → Op
  args : ι → List ν
  /-- An instruction as the value it defines. -/
  result : ι → ν
  text : ι → Except Fault String

namespace Reader

variable {ν ι : Type}

/-- The expression that an instruction computes. -/
def expression (r : Reader ν ι) (i : ι) : Except Fault (Expression ν) :=
  match r.op i, r.args i with
  | .store, v :: addr :: _ => .ok ⟨.store, addr, [v]⟩
  | .store, _ => .error .outOfRange
  | op, args => .ok ⟨op, r.result i, args⟩

end Reader

namespace Catalog

/-- An expression as it is kept, with the first instruction that computes it. -/
structure Entry (ν ι : Type) where
  op : Op
  dest : ν
  instr : ι
deriving DecidableEq

variable {ν ι : Type}

/-- The expression of an entry, with the present operands of its instruction. -/
def Entry.expression (r : Reader ν ι) (n : Entry ν ι) : Expression ν :=
  ⟨n.op, n.dest, if n.op = .store then (r.args n.instr).take 1 else r.args n.instr⟩

/-- Numbers of entries under the heads that these were added with. -/
abbrev Buckets (ν : Type) := List (Expression.Head ν × List Nat)

namespace Buckets

variable [DecidableEq ν]

def under (bs : Buckets ν) (h : Expression.Head ν) : List Nat := (bs.lookup h).getD []

/-- Puts a number behind those with the same head. -/
def file (h : Expression.Head ν) (n : Nat) : Buckets ν → Buckets ν
  | [] => [(h, [n])]
  | b :: bs => if b.1 = h then (h, b.2 ++ [n]) :: bs else b :: file h n bs

end Buckets
end Catalog

structure Catalog (ν ι : Type) where
  entries : List (Catalog.Entry ν ι) := []
  buckets : Catalog.Buckets ν := []
deriving DecidableEq, Inhabited

namespace Catalog

variable {ν ι : Type} [DecidableEq ν]

def size (c : Catalog ν ι) : Nat := c.entries.length

/-- Whether an expression is that of the entry with a given number. -/
def isAt (c : Catalog ν ι) (r : Reader ν ι) (e : Expression ν) (n : Nat) : Bool :=
  c.entries[n]?.any fun m => m.expression r = e

def find? (c : Catalog ν ι) (r : Reader ν ι) (e : Expression ν) : Option Nat :=
  (c.buckets.under e.head).find? (c.isAt r e)

/-- Gives the next number to an expression and the instruction that computes it. -/
def extend (c : Catalog ν ι) (i : ι) (e : Expression ν) : Catalog ν ι where
  entries := c.entries ++ [⟨e.op, e.dest, i⟩]
  buckets := c.buckets.file e.head c.size

/-- The number of the expression of an instruction, which is added if it is new. -/
def add (c : Catalog ν ι) (r : Reader ν ι) (i : ι) : Except Fault (Nat × Catalog ν ι) := do
  let e ← r.expression i
  match c.find? r e with
  | some n => return (n, c)
  | none => return (c.size, c.extend i e)

def lookup? (c : Catalog ν ι) (r : Reader ν ι) (i : ι) : Except Fault (Option Nat) := do
  return c.find? r (← r.expression i)

/-- The number of the expression of an instruction, which must have been added. -/
def index (c : Catalog ν ι) (r : Reader ν ι) (i : ι) : Except Fault Nat := do
  match ← c.lookup? r i with
  | some n => return n
  | none => throw (.notCataloged (← r.text i))

def entry (c : Catalog ν ι) (n : Int) : Except Fault (Entry ν ι) := do
  entryAt c.entries (← indexBelow c.size n)

end Catalog

/-- Reads the instructions of one function. -/
def Func.reader (fn : Func) : Reader Value InstrId where
  op i := (fn.instr i).op
  args i := (fn.instr i).args
  result := .instr
  text := fn.instrText

/-- Reads the instructions of several functions. -/
def scopedReader (funcs : Nat → Func) : Reader ScopedValue (Nat × InstrId) where
  op := fun (f, i) => ((funcs f).instr i).op
  args := fun (f, i) => ((funcs f).instr i).args.map (.ofValue f)
  result := fun (f, i) => .ofValue f (.instr i)
  text := fun (f, i) => (funcs f).instrText i

end CodeMotion
