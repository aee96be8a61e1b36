import CodeMotion.BitSet

/-! Families of sets: one set for each node or for each edge of a numbered graph. -/

namespace CodeMotion

structure Family where
  members : Array BitSet
deriving DecidableEq, Inhabited

namespace Family

/-- The set of a number; a number outside the family has an empty set. -/
def of (f : Family) (i : Nat) : BitSet := f.members.getD i default

/-- The family of a function on the first numbers. -/
def ofFn (count : Nat) (g : Nat → BitSet) : Family := ⟨((List.range count).map g).toArray⟩

def replicate (count : Nat) (s : BitSet) : Family := ofFn count fun _ => s

def set (f : Family) (i : Nat) (s : BitSet) : Family := ⟨f.members.setIfInBounds i s⟩

/-- The number of members that hold an element. -/
def count (f : Family) (e : Nat) : Nat := f.members.toList.countP (·.contains e)

/-- Takes an element out of every member. -/
def eraseAll (f : Family) (e : Nat) : Family := ⟨(f.members.toList.map (·.erase e)).toArray⟩

theorem of_ofFn {count i : Nat} {g : Nat → BitSet} (h : i < count) : (ofFn count g).of i = g i := by
  simp [of, ofFn, h]

theorem of_set {f : Family} {i j : Nat} {s : BitSet} :
    (f.set i s).of j = if i = j ∧ i < f.members.size then s else f.of j := by
  by_cases h : i = j
  · subst h
    by_cases hi : i < f.members.size <;> simp [of, set, hi]
  · simp [of, set, h]

end Family
end CodeMotion
