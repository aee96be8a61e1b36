import CodeMotion.Fault
import CodeMotion.Settings

/-! The options of a run. -/

namespace CodeMotion

/-- What happens to the dump of the solved sets. -/
inductive TraceSink
  | off
  | writer
  /-- A writer that refuses everything. -/
  | broken
deriving DecidableEq

structure Options where
  trace : TraceSink := .off
  verify : Bool := false
  singleInsertion : Bool := true
  /-- The largest number of expressions to work on; 0 stands for no limit. -/
  maxExpressions : Int := 0
  /-- How the names of new blocks begin. -/
  splitName : String := "lcm.split."
deriving DecidableEq

namespace Options

def ofSettings (s : Settings) : Options where
  trace := if s.trace then .writer else .off
  verify := s.verify
  maxExpressions := s.maxExpressions

def canAnalyze (o : Options) (n : Int) : Bool := o.maxExpressions == 0 || n ≤ o.maxExpressions

def withMaxExpressions (o : Options) (n : Int) : Except Fault Options :=
  if n < 0 then .error (.negativeLimit n) else .ok { o with maxExpressions := n }

def withSplitName (o : Options) (s : String) : Except Fault Options :=
  if s = "" then .error .emptySplitName else .ok { o with splitName := s }

end Options
end CodeMotion
