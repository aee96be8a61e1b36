import CodeMotion.Context.Basic
import CodeMotion.Motion

/-! What a run over one or several functions reports: why functions were skipped, what changed and
how much of the function still holds, and the error of a function that came out malformed. -/

namespace CodeMotion

/-- What still holds of a function after a run, from least to most. -/
inductive Preserved
  | none
  | cfg
  | all
deriving DecidableEq

namespace Preserved

def rank : Preserved → Nat
  | none => 0 | cfg => 1 | all => 2

def name : Preserved → String
  | none => "none" | cfg => "cfg" | all => "all"

def meet (p q : Preserved) : Preserved := if q.rank < p.rank then q else p

/-- The name of a code; codes that stand for nothing are invalid. -/
def nameOfCode (code : Nat) : String := ([none, cfg, all].map name).getD code "invalid"

end Preserved

inductive SkipReason
  | notSkipped
  | declaration
  | noBlocks
  | malformed
  | tooLarge
deriving DecidableEq

namespace SkipReason

def name : SkipReason → String
  | notSkipped => "not skipped"
  | declaration => "external declaration"
  | noBlocks => "no basic blocks"
  | malformed => "malformed function"
  | tooLarge => "too many expressions"

/-- The name of a code; codes that stand for nothing are invalid. -/
def nameOfCode (code : Nat) : String :=
  ([notSkipped, declaration, noBlocks, malformed, tooLarge].map name).getD code "invalid"

end SkipReason

/-- The outcome of a run over one or several functions. -/
structure Result where
  changed : Bool := false
  preserved : Preserved := .all
  skipped : SkipReason := .notSkipped
  functions : Nat := 0
  skippedFuncs : Nat := 0
  expressions : Nat := 0
  motion : Motion := {}
  rounds : Rounds := {}
deriving DecidableEq

namespace Result

def merge (r v : Result) : Result :=
  { r with
    changed := r.changed || v.changed
    preserved := r.preserved.meet v.preserved
    functions := r.functions + v.functions
    skippedFuncs := r.skippedFuncs + v.skippedFuncs
    expressions := r.expressions + v.expressions
    motion := ⟨r.motion.inserted + v.motion.inserted, r.motion.deleted + v.motion.deleted,
      r.motion.splits + v.motion.splits⟩
    rounds := ⟨r.rounds.avail + v.rounds.avail, r.rounds.ant + v.rounds.ant,
      r.rounds.later + v.rounds.later⟩ }

end Result

/-- A function that is malformed after a run. -/
structure VerifyError where
  func : String
  cause : String
deriving DecidableEq

def VerifyError.message (e : VerifyError) : String := "VerifyError(" ++ e.func ++ "): " ++ e.cause

end CodeMotion
