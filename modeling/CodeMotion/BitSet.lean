import CodeMotion.Fault

/-! Sets of expression indices, with the size of the universe they were made for. The members are
the bits of one number. Adding an index beyond the size enlarges the set, and the binary operations
take the larger size where they can add members. -/

namespace CodeMotion

structure BitSet where
  size : Nat
  mask : Nat
  bounded : ∀ i, mask.testBit i = true → i < size
deriving DecidableEq

namespace BitSet

def contains (s : BitSet) (i : Nat) : Bool := s.mask.testBit i

instance : Membership Nat BitSet := ⟨fun s i => s.contains i = true⟩

instance (i : Nat) (s : BitSet) : Decidable (i ∈ s) :=
  inferInstanceAs (Decidable (s.contains i = true))

def empty (size : Nat) : BitSet := ⟨size, 0, by simp⟩

instance : Inhabited BitSet := ⟨empty 0⟩

def full (size : Nat) : BitSet := ⟨size, 1 <<< size - 1, by simp [Nat.one_shiftLeft]⟩

def clear (s : BitSet) : BitSet := empty s.size

def fill (s : BitSet) : BitSet := full s.size

def insert (s : BitSet) (i : Nat) : BitSet where
  size := max s.size (i + 1)
  mask := s.mask ||| 1 <<< i
  bounded j h := by
    simp only [Nat.one_shiftLeft, Nat.testBit_or, Nat.testBit_two_pow, Bool.or_eq_true,
      decide_eq_true_eq] at h
    rcases h with h | h
    · have := s.bounded j h
      omega
    · omega

def erase (s : BitSet) (i : Nat) : BitSet where
  size := s.size
  mask := if i < s.size then s.mask ^^^ (s.mask &&& 1 <<< i) else s.mask
  bounded j h := by
    apply s.bounded
    split at h
    · cases hj : s.mask.testBit j <;> simp_all
    · exact h

def union (s t : BitSet) : BitSet where
  size := max s.size t.size
  mask := s.mask ||| t.mask
  bounded j h := by
    simp only [Nat.testBit_or, Bool.or_eq_true] at h
    rcases h with h | h
    · have := s.bounded j h
      omega
    · have := t.bounded j h
      omega

def inter (s t : BitSet) : BitSet where
  size := max s.size t.size
  mask := s.mask &&& t.mask
  bounded j h := by
    simp only [Nat.testBit_and, Bool.and_eq_true] at h
    have := s.bounded j h.1
    omega

def diff (s t : BitSet) : BitSet where
  size := s.size
  mask := s.mask ^^^ (s.mask &&& t.mask)
  bounded j h := by
    apply s.bounded
    cases hj : s.mask.testBit j <;> simp_all

def compl (s : BitSet) : BitSet := (full s.size).diff s

instance : Union BitSet := ⟨union⟩
instance : Inter BitSet := ⟨inter⟩
instance : SDiff BitSet := ⟨diff⟩

/-- Overwrites the members of `s` by those of `t`. -/
def assign (s t : BitSet) : BitSet := s.clear.union t

/-- The members in ascending order. -/
def toList (s : BitSet) : List Nat := (List.range s.size).filter s.contains

def card (s : BitSet) : Nat := s.toList.length

def isEmpty (s : BitSet) : Bool := s.mask == 0

/-- The number of bits that a set can have at most. -/
def capacity : Nat := 1 <<< 51

/-- An empty set for a universe of a given size. A size that is negative or beyond the capacity
stands for 0. -/
def ofSize (size : Int) : BitSet := if 0 ≤ size ∧ size ≤ capacity then empty size.toNat else empty 0

/-- `insert` for an index that may lie beyond the capacity. -/
def insert? (s : BitSet) (i : Int) : Except Fault BitSet := do
  return s.insert (← indexBelow capacity i)

/-- `erase` for any number; what is no index is in no set. -/
def erase? (s : BitSet) (i : Int) : BitSet := if i < 0 then s else s.erase i.toNat

/-- Refuses a set that was made for another universe. -/
def checkSize (s : BitSet) (width : Int) : Except Fault Unit :=
  if s.size = width then .ok () else .error (.sizeMismatch s.size width)

/-- The bits in ascending order, a blank after every tenth, then the size in brackets. -/
def text (s : BitSet) : String :=
  let bit i := (if s.contains i then "1" else "0") ++ if (i + 1) % 10 = 0 then " " else ""
  String.join ((List.range s.size).map bit) ++ " (" ++ toString s.size ++ ")"

theorem mem_iff {s : BitSet} {i : Nat} : i ∈ s ↔ s.mask.testBit i = true := Iff.rfl

theorem lt_size {s : BitSet} {i : Nat} (h : i ∈ s) : i < s.size := s.bounded i h

@[simp] theorem not_mem_empty {n i : Nat} : i ∉ empty n := by simp [mem_iff, empty]

@[simp] theorem mem_full {n i : Nat} : i ∈ full n ↔ i < n := by
  simp [mem_iff, full, Nat.one_shiftLeft]

@[simp] theorem mem_insert {s : BitSet} {i j : Nat} : j ∈ s.insert i ↔ j = i ∨ j ∈ s := by
  simp only [mem_iff, insert, Nat.one_shiftLeft, Nat.testBit_or, Nat.testBit_two_pow,
    Bool.or_eq_true, decide_eq_true_eq]
  rw [or_comm, eq_comm]

@[simp] theorem mem_erase {s : BitSet} {i j : Nat} : j ∈ s.erase i ↔ j ≠ i ∧ j ∈ s := by
  by_cases hi : i < s.size
  · by_cases h : i = j
    · subst h
      simp [mem_iff, erase, Nat.one_shiftLeft, hi]
    · simp [mem_iff, erase, Nat.one_shiftLeft, hi, h, Ne.symm h]
  · have hj : j ∈ s → j ≠ i := fun h hji => hi (hji ▸ lt_size h)
    simp only [mem_iff, erase, hi, if_false] at hj ⊢
    exact ⟨fun h => ⟨hj h, h⟩, And.right⟩

@[simp] theorem mem_union {s t : BitSet} {i : Nat} : i ∈ s ∪ t ↔ i ∈ s ∨ i ∈ t := by
  simp [mem_iff, Union.union, union]

@[simp] theorem mem_inter {s t : BitSet} {i : Nat} : i ∈ s ∩ t ↔ i ∈ s ∧ i ∈ t := by
  simp [mem_iff, Inter.inter, inter]

@[simp] theorem mem_diff {s t : BitSet} {i : Nat} : i ∈ s \ t ↔ i ∈ s ∧ i ∉ t := by
  cases h : t.mask.testBit i <;> simp [mem_iff, SDiff.sdiff, diff, h]

theorem mem_assign {s t : BitSet} {i : Nat} : i ∈ s.assign t ↔ i ∈ t := by
  simp [mem_iff, assign, clear, empty, union]

theorem mem_toList {s : BitSet} {i : Nat} : i ∈ s.toList ↔ i ∈ s := by
  simp only [toList, List.mem_filter, List.mem_range]
  exact ⟨And.right, fun h => ⟨lt_size h, h⟩⟩

end BitSet
end CodeMotion
