/-! Sources of random numbers, and one that is driven by a 64-bit counter. -/

namespace CodeMotion

/-- A source gives a number between two bounds, which may stand in either order. -/
structure NumberSource (σ : Type) where
  number : Int → Int → σ → Int × σ

/-- Every answer lies between the bounds that were asked for. -/
def NumberSource.Bounded {σ : Type} (g : NumberSource σ) : Prop :=
  ∀ (a b : Int) (s : σ), min a b ≤ (g.number a b s).1 ∧ (g.number a b s).1 ≤ max a b

/-- A counter that is advanced by a fixed odd amount and mixed. -/
structure Mixer where
  counter : UInt64
deriving DecidableEq

namespace Mixer

def draw (m : Mixer) : UInt64 × Mixer :=
  let s := m.counter + 0x9e3779b97f4a7c15
  let z := (s ^^^ (s >>> 30)) * 0xbf58476d1ce4e5b9
  let z := (z ^^^ (z >>> 27)) * 0x94d049bb133111eb
  (z ^^^ (z >>> 31), ⟨s⟩)

/-- The number of values of 63 bits. -/
def range63 : Nat := 1 <<< 63

/-- A number of 63 bits. -/
def draw63 (m : Mixer) : Nat × Mixer :=
  let (z, m) := m.draw
  ((z >>> 1).toNat, m)

/-- Draws until the number is small enough for its remainder to be unbiased. The counter passes
every value once in 2^64 draws. -/
def drawBelow (limit : Nat) : Nat → Mixer → Nat × Mixer
  | 0, m => (0, m)
  | fuel + 1, m =>
    let (v, m) := m.draw63
    if v ≤ limit then (v, m) else drawBelow limit fuel m

/-- A number between two bounds; equal bounds need no draw, and a power of two as the number of
choices needs exactly one. -/
def number (a b : Int) (m : Mixer) : Int × Mixer :=
  if a = b then (a, m)
  else
    let low := min a b
    let n := (max a b - low).toNat + 1
    if n &&& (n - 1) = 0 then
      let (v, m) := m.draw63
      (low + (v &&& (n - 1) : Nat), m)
    else
      let (v, m) := m.drawBelow (range63 - 1 - range63 % n) UInt64.size
      (low + (v % n : Nat), m)

def source : NumberSource Mixer := ⟨number⟩

def ofSeed (seed : Int) : Mixer := ⟨UInt64.ofInt seed⟩

end Mixer
end CodeMotion
