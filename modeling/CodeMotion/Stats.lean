import CodeMotion.Motion

/-! What is counted over all runs. -/

namespace CodeMotion

/-- Counters over all runs; they wrap around. -/
structure Stats where
  functions : UInt64 := 0
  skipped : UInt64 := 0
  expressions : UInt64 := 0
  inserted : UInt64 := 0
  deleted : UInt64 := 0
  splits : UInt64 := 0
deriving DecidableEq

namespace Stats

def addSkip (s : Stats) : Stats := { s with skipped := s.skipped + 1 }

def addMotion (s : Stats) (expressions : Nat) (m : Motion) : Stats :=
  { s with
    functions := s.functions + 1
    expressions := s.expressions + expressions.toUInt64
    inserted := s.inserted + m.inserted.toUInt64
    deleted := s.deleted + m.deleted.toUInt64
    splits := s.splits + m.splits.toUInt64 }

end Stats

end CodeMotion
