/-! Tables of records that are numbered from 1 in order of creation and never removed. -/

namespace CodeMotion

structure Table (α : Type) where
  rows : Array α := #[]
deriving DecidableEq, Inhabited

namespace Table

variable {α : Type}

def size (t : Table α) : Nat := t.rows.size

def get? (t : Table α) : Nat → Option α
  | 0 => none
  | n + 1 => t.rows[n]?

/-- Adds a record, which gets the number `size + 1`. -/
def push (t : Table α) (a : α) : Table α := { rows := t.rows.push a }

/-- Changes the record with a number; a number that was never given out changes nothing. -/
def modify (t : Table α) (n : Nat) (f : α → α) : Table α :=
  match n with
  | 0 => t
  | n + 1 => { rows := t.rows.modify n f }

@[simp] theorem get?_zero (t : Table α) : t.get? 0 = none := rfl

@[simp] theorem size_push (t : Table α) (a : α) : (t.push a).size = t.size + 1 := by
  simp [size, push]

@[simp] theorem size_modify (t : Table α) (n : Nat) (f : α → α) : (t.modify n f).size = t.size := by
  cases n <;> simp [size, modify]

theorem get?_push (t : Table α) (a : α) (n : Nat) :
    (t.push a).get? n = if n = t.size + 1 then some a else t.get? n := by
  cases n with
  | zero => simp
  | succ n => simp [get?, push, size, Array.getElem?_push]

theorem get?_modify (t : Table α) (n m : Nat) (f : α → α) :
    (t.modify n f).get? m = if n = m then (t.get? m).map f else t.get? m := by
  cases n with
  | zero => cases m <;> simp [modify, get?]
  | succ n =>
    cases m with
    | zero => simp
    | succ m => simp [modify, get?, Array.getElem?_modify]

theorem get?_isSome (t : Table α) (n : Nat) : (t.get? n).isSome ↔ 0 < n ∧ n ≤ t.size := by
  cases n with
  | zero => simp
  | succ n =>
    have h : (t.rows[n]?).isSome ↔ n < t.rows.size := by simp
    simp only [get?, size, h]
    omega

end Table

/-- An array with one entry written. -/
theorem getD_setIfInBounds {α : Type} {a : Array α} {i : Nat} (hi : i < a.size) (j : Nat)
    (x d : α) : (a.setIfInBounds i x).getD j d = if i = j then x else a.getD j d := by
  by_cases hij : i = j
  · simp [Array.getD, ← hij, hi]
  · by_cases hj : j < a.size <;> simp [Array.getD, hj, hij]

theorem getD_modify {α : Type} {a : Array α} {i : Nat} (hi : i < a.size) (j : Nat) (f : α → α)
    (d : α) : (a.modify i f).getD j d = if i = j then f (a.getD j d) else a.getD j d := by
  by_cases hij : i = j
  · simp [Array.getD, ← hij, hi, Array.getElem_modify_self]
  · by_cases hj : j < a.size <;> simp [Array.getD, hj, hij, Array.getElem_modify]

theorem getElem?_extend {α : Type} {l m : List α} {e : Nat} {a : α} (h : l <+: m)
    (he : l[e]? = some a) : m[e]? = some a := by
  obtain ⟨t, rfl⟩ := h
  rw [List.getElem?_append_left (List.getElem?_eq_some_iff.1 he).1, he]

end CodeMotion
