import Mathlib
import CodeMotion.Family

/-! Sets of expressions are equal when they have the same size and the same members, and a set that
loses a member gets smaller. The members of a family are read and written one at a time. -/

namespace CodeMotion

namespace BitSet

theorem ext_mem {s t : BitSet} (hs : s.size = t.size) (h : ∀ i, i ∈ s ↔ i ∈ t) : s = t := by
  have hm : s.mask = t.mask := by
    refine Nat.eq_of_testBit_eq fun i => ?_
    have := h i
    rw [mem_iff, mem_iff] at this
    exact Bool.eq_iff_iff.2 this
  cases s; cases t
  simp_all

theorem eq_full {s : BitSet} {n : Nat} (hs : s.size = n) (h : ∀ i < n, i ∈ s) : s = full n := by
  refine ext_mem hs fun i => ?_
  rw [mem_full]
  exact ⟨fun hi => hs ▸ lt_size hi, h i⟩

theorem eq_empty {s : BitSet} {n : Nat} (hs : s.size = n) (h : ∀ i, i ∉ s) : s = empty n :=
  ext_mem hs fun i => ⟨fun hi => absurd hi (h i), fun hi => absurd hi not_mem_empty⟩

@[simp] theorem size_empty (n : Nat) : (empty n).size = n := rfl

@[simp] theorem size_full (n : Nat) : (full n).size = n := rfl

@[simp] theorem size_union (s t : BitSet) : (s ∪ t).size = max s.size t.size := rfl

@[simp] theorem size_inter (s t : BitSet) : (s ∩ t).size = max s.size t.size := rfl

@[simp] theorem size_diff (s t : BitSet) : (s \ t).size = s.size := rfl

@[simp] theorem size_insert (s : BitSet) (i : Nat) : (s.insert i).size = max s.size (i + 1) := rfl

@[simp] theorem size_erase (s : BitSet) (i : Nat) : (s.erase i).size = s.size := rfl

theorem mem_compl {s : BitSet} {i : Nat} : i ∈ s.compl ↔ i < s.size ∧ i ∉ s := by
  rw [compl, show (full s.size).diff s = full s.size \ s from rfl, mem_diff, mem_full]

theorem isEmpty_iff {s : BitSet} : s.isEmpty = true ↔ ∀ i, i ∉ s := by
  simp only [isEmpty, beq_iff_eq]
  constructor
  · intro h i
    simp [mem_iff, h]
  · intro h
    refine Nat.eq_of_testBit_eq fun i => ?_
    have := h i
    rw [mem_iff] at this
    simpa using this

theorem toList_sublist {s t : BitSet} (hs : s.size = t.size) (h : ∀ i ∈ s, i ∈ t) :
    s.toList.Sublist t.toList := by
  unfold toList
  rw [hs]
  exact List.monotone_filter_right _ fun i hi => h i hi

theorem card_le {s t : BitSet} (hs : s.size = t.size) (h : ∀ i ∈ s, i ∈ t) : s.card ≤ t.card :=
  (toList_sublist hs h).length_le

theorem card_lt {s t : BitSet} (hs : s.size = t.size) (h : ∀ i ∈ s, i ∈ t) (hne : s ≠ t) :
    s.card < t.card := by
  refine lt_of_le_of_ne (card_le hs h) fun hc => hne ?_
  have heq := (toList_sublist hs h).eq_of_length hc
  exact ext_mem hs fun i => by rw [← mem_toList, ← mem_toList, heq]

theorem card_le_size (s : BitSet) : s.card ≤ s.size := by
  have := List.length_filter_le s.contains (List.range s.size)
  simpa [card, toList] using this

theorem mem_foldl_inter {α : Type} (l : List α) (g : α → BitSet) (x : BitSet) (f : Nat) :
    f ∈ l.foldl (fun x j => x ∩ g j) x ↔ f ∈ x ∧ ∀ j ∈ l, f ∈ g j := by
  induction l generalizing x with
  | nil => simp
  | cons a t ih => simp [ih, and_assoc]

theorem size_foldl_inter {α : Type} {l : List α} {g : α → BitSet} {x : BitSet} {n : Nat}
    (hx : x.size = n) (hg : ∀ j ∈ l, (g j).size = n) :
    (l.foldl (fun x j => x ∩ g j) x).size = n := by
  induction l generalizing x with
  | nil => exact hx
  | cons a t ih =>
    refine ih ?_ fun j hj => hg j (by simp [hj])
    simp [hx, hg a (by simp)]

end BitSet

namespace Family

@[simp] theorem size_ofFn (n : Nat) (g : Nat → BitSet) : (ofFn n g).members.size = n := by
  simp [ofFn]

@[simp] theorem size_replicate (n : Nat) (s : BitSet) : (replicate n s).members.size = n :=
  size_ofFn _ _

@[simp] theorem size_set (f : Family) (i : Nat) (s : BitSet) :
    (f.set i s).members.size = f.members.size := by
  simp [set]

theorem of_replicate {n i : Nat} {s : BitSet} (h : i < n) : (replicate n s).of i = s := of_ofFn h

theorem of_set_self {f : Family} {i : Nat} {s : BitSet} (h : i < f.members.size) :
    (f.set i s).of i = s := by
  simp [of_set, h]

theorem of_set_ne {f : Family} {i j : Nat} {s : BitSet} (h : i ≠ j) :
    (f.set i s).of j = f.of j := by
  simp [of_set, h]

theorem of_eq_default {f : Family} {i : Nat} (h : f.members.size ≤ i) : f.of i = default := by
  simp [of, Array.getD, Nat.not_lt.2 h]

theorem lt_of_mem {f : Family} {i e : Nat} (h : e ∈ f.of i) : i < f.members.size := by
  by_contra hn
  rw [of_eq_default (Nat.not_lt.1 hn)] at h
  exact BitSet.not_mem_empty h

end Family
end CodeMotion
