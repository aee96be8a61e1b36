import CodeMotion.Fault
import CodeMotion.Settings.Literal

/-! Settings taken from the environment. An empty value counts as unset; a value that cannot be read
is refused under the name of its key. -/

namespace CodeMotion

/-- The number that 64 bits stand for when they are read with a sign. -/
def signed64 (n : Nat) : Int := (n : Int).bmod UInt64.size

/-- A number of at least `least`, or the default if the value is empty. -/
def readNumber (key value : String) (fallback least : Int) : Except Fault Int :=
  if value = "" then .ok fallback
  else
    match Literal.value? value with
    | none => .error (.invalidSetting key)
    | some n => if signed64 n < least then .error (.settingTooSmall key) else .ok (signed64 n)

/-- A truth value, or the default if the value is empty. -/
def readBool (key value : String) (fallback : Bool) : Except Fault Bool :=
  if value = "" then .ok fallback
  else if ["1", "t", "T", "TRUE", "true", "True"].contains value then .ok true
  else if ["0", "f", "F", "FALSE", "false", "False"].contains value then .ok false
  else .error (.invalidSetting key)

/-- Upper case for the letters that level names are made of: the Latin ones, and the dotless i and
the long s, whose capitals are Latin. -/
def capital (c : Char) : Char :=
  if c = 'ı' then 'I' else if c = 'ſ' then 'S' else c.toUpper

/-- A whole number with a sign in front, in the range of 64 bits. -/
def signedNumber? : List Char → Option Int
  | sign :: c :: cs =>
    if (c :: cs).all Char.isDigit then
      let n : Int := Literal.ofDigits 10 ((c :: cs).map fun d => d.toNat - '0'.toNat)
      let n := if sign = '-' then -n else n
      if Int64.minValue.toInt ≤ n ∧ n ≤ Int64.maxValue.toInt then some n else none
    else none
  | _ => none

def levelOfName? (name : String) : Option Int :=
  match name with
  | "DEBUG" => some (-4)
  | "INFO" => some 0
  | "WARN" => some 4
  | "ERROR" => some 8
  | _ => none

/-- A level is a name in any case, possibly followed by a signed number that is added. -/
def level? (s : String) : Option Int := do
  let (name, rest) := (s.toList.map capital).span fun c => c ≠ '+' ∧ c ≠ '-'
  let level ← levelOfName? (String.ofList name)
  if rest.isEmpty then return level
  return (level + (← signedNumber? rest)).bmod UInt64.size

def readLevel (key value : String) : Except Fault (Option Int) :=
  if value = "" then .ok none
  else
    match level? value with
    | none => .error (.invalidSetting key)
    | some l => .ok (some l)

structure Settings where
  trace : Bool := false
  verify : Bool := false
  /-- The lowest severity that is logged; nothing is logged without it. -/
  logLevel : Option Int := none
  maxExpressions : Int := 0
deriving DecidableEq

namespace Settings

/-- Reads the settings in a fixed order, so that the first bad one is reported. -/
def ofEnvironment (env : List (String × String)) : Except Fault Settings := do
  let value key := (env.lookup key).getD ""
  let trace ← readBool "LCM_TRACE" (value "LCM_TRACE") false
  let verify ← readBool "LCM_VERIFY" (value "LCM_VERIFY") false
  let logLevel ← readLevel "LCM_LOG_LEVEL" (value "LCM_LOG_LEVEL")
  let maxExpressions ← readNumber "LCM_MAX_EXPRS" (value "LCM_MAX_EXPRS") 0 0
  return { trace, verify, logLevel, maxExpressions }

/-- Whether the default logger takes records of a severity. Without a level it takes what is at
least information, and drops it. -/
def takes (s : Settings) (severity : Int) : Bool := s.logLevel.getD 0 ≤ severity

/-- Whether a record of a severity is written. -/
def writes (s : Settings) (severity : Int) : Bool := s.logLevel.any (· ≤ severity)

end Settings
end CodeMotion
