import Mathlib.Order.Bounds.Basic

/-! Dominators in a graph whose nodes are numbered by a depth-first search from node 0. A node can
be entered from outside the way down to it only at its semidominator or below, so the dominators of
a node can be read off the semidominators on that way. -/

namespace CodeMotion.SearchTree

/-- Numbers that a depth-first search gives to the nodes of a graph, with their parents: whatever is
met between a node and one of its successors is met below the node. -/
structure DepthFirst (n : Nat) (E : Nat → Nat → Prop) (p : Nat → Nat) : Prop where
  edge_lt : ∀ a b, E a b → a < n ∧ b < n
  parent_lt : ∀ i, i ≠ 0 → p i < i
  parent_edge : ∀ i < n, i ≠ 0 → E (p i) i
  nested : ∀ a b c, E a c → a < b → b ≤ c → a ≤ p b

/-- A node is on the way from the root to another one, or is that node. -/
inductive Above (p : Nat → Nat) (a : Nat) : Nat → Prop
  | refl : Above p a a
  | child {b : Nat} (h : Above p a (p b)) (h0 : b ≠ 0) : Above p a b

/-- A path from `v` on which all nodes behind `v` have numbers from `u` on. -/
inductive Beyond (E : Nat → Nat → Prop) (u v : Nat) : Nat → Prop
  | edge {x : Nat} (h : E v x) (hx : u ≤ x) : Beyond E u v x
  | step {x y : Nat} (h : Beyond E u v x) (he : E x y) (hy : u ≤ y) : Beyond E u v y

/-- A path leads from `v` to `w` through nodes with larger numbers than `w`. -/
def Enters (E : Nat → Nat → Prop) (v w : Nat) : Prop := E v w ∨ ∃ x, Beyond E (w + 1) v x ∧ E x w

/-- A path from the root leads to a node without passing `t`. -/
inductive Avoids (E : Nat → Nat → Prop) (t : Nat) : Nat → Prop
  | root (h : t ≠ 0) : Avoids E t 0
  | step {x y : Nat} (h : Avoids E t x) (he : E x y) (hy : y ≠ t) : Avoids E t y

/-- The semidominator of a node is the first node from which it is entered. -/
abbrev IsSemi (E : Nat → Nat → Prop) (w s : Nat) : Prop := IsLeast {v | Enters E v w} s

/-- The immediate dominator of a node is the last of its other dominators. -/
abbrev IsIdom (E : Nat → Nat → Prop) (w d : Nat) : Prop := IsGreatest {t | t ≠ w ∧ ¬ Avoids E t w} d

variable {n : Nat} {E : Nat → Nat → Prop} {p : Nat → Nat} {a b c t u v w x y : Nat}

theorem Above.trans (h : Above p a b) (h' : Above p b c) : Above p a c := by
  induction h' with
  | refl => exact h
  | child _ h0 ih => exact .child ih h0

/-- A node above another one is that node or above its parent. -/
theorem Above.cases_parent (h : Above p a b) : a = b ∨ b ≠ 0 ∧ Above p a (p b) := by
  cases h with
  | refl => exact Or.inl rfl
  | child h h0 => exact Or.inr ⟨h0, h⟩

theorem Beyond.mono (h : Beyond E u v x) (hb : b ≤ u) : Beyond E b v x := by
  induction h with
  | edge h hx => exact .edge h (hb.trans hx)
  | step _ he hy ih => exact .step ih he (hb.trans hy)

theorem Avoids.beyond (h : Avoids E t v) (hb : Beyond E u v x) (ht : t < u) : Avoids E t x := by
  induction hb with
  | edge he hx => exact .step h he (Nat.ne_of_gt (Nat.lt_of_lt_of_le ht hx))
  | step _ he hy ih => exact .step ih he (Nat.ne_of_gt (Nat.lt_of_lt_of_le ht hy))

namespace DepthFirst

variable (h : DepthFirst n E p)
include h

theorem above_le (ha : Above p a b) : a ≤ b := by
  induction ha with
  | refl => exact Nat.le_refl _
  | child _ h0 ih => exact ih.trans (Nat.le_of_lt (h.parent_lt _ h0))

theorem above_zero (b : Nat) : Above p 0 b := by
  induction b using Nat.strong_induction_on with
  | _ b ih =>
    by_cases h0 : b = 0
    · exact h0 ▸ .refl
    · exact .child (ih _ (h.parent_lt b h0)) h0

/-- What is met between a node and one of its successors is below the node. -/
theorem above_of_edge (he : E a c) (hab : a < b) (hbc : b ≤ c) : Above p a b := by
  induction b using Nat.strong_induction_on with
  | _ b ih =>
    have h0 : b ≠ 0 := Nat.ne_of_gt (Nat.lt_of_le_of_lt (Nat.zero_le a) hab)
    have hlt := h.parent_lt b h0
    rcases Nat.eq_or_lt_of_le (h.nested a b c he hab hbc) with heq | hgt
    · exact .child (heq ▸ .refl) h0
    · exact .child (ih _ hlt hgt ((Nat.le_of_lt hlt).trans hbc)) h0

/-- The nodes below a node have numbers without gaps. -/
theorem above_of_le (ha : Above p a c) (hc : c < n) (hab : a ≤ b) (hbc : b ≤ c) : Above p a b := by
  induction ha with
  | refl => exact Nat.le_antisymm hab hbc ▸ .refl
  | @child c ha h0 ih =>
    have hlt := h.parent_lt c h0
    rcases Nat.lt_or_ge (p c) b with hb | hb
    · exact ha.trans (h.above_of_edge (h.parent_edge c hc h0) hb hbc)
    · exact ih (hlt.trans hc) hb

/-- Of two nodes above a third the one with the smaller number is above the other. -/
theorem above_of_above (ha : Above p a c) (hb : Above p b c) (hc : c < n) (hab : a ≤ b) :
    Above p a b :=
  h.above_of_le ha hc hab (h.above_le hb)

/-- A path from below a node stays there until it meets a smaller number. -/
theorem above_step (ha : Above p u x) (he : E x y) (hy : u ≤ y) : Above p u y := by
  rcases Nat.lt_or_ge x y with hxy | hxy
  · exact ha.trans (h.above_of_edge he hxy (Nat.le_refl y))
  · exact h.above_of_le ha (h.edge_lt x y he).1 hy hxy

theorem above_of_beyond (hb : Beyond E u v x) (hv : v ≤ u) : Above p v x := by
  induction hb with
  | edge he hx => exact h.above_step .refl he (hv.trans hx)
  | step _ he hy ih => exact h.above_step ih he (hv.trans hy)

theorem above_of_enters (he : Enters E v w) (hv : v ≤ w) : Above p v w := by
  rcases he with he | ⟨x, hb, he⟩
  · exact h.above_step .refl he hv
  · exact h.above_step (h.above_of_beyond hb (hv.trans (Nat.le_succ w))) he hv

theorem lt_of_enters (he : Enters E v w) : v < n ∧ w < n := by
  have hfirst : ∀ {u x}, Beyond E u v x → v < n := fun hb => by
    induction hb with
    | edge he _ => exact (h.edge_lt _ _ he).1
    | step _ _ _ ih => exact ih
  rcases he with he | ⟨x, hb, he⟩
  · exact h.edge_lt v w he
  · exact ⟨hfirst hb, (h.edge_lt x w he).2⟩

/-- A path can go on along the search tree. -/
theorem beyond_down (hb : Beyond E u v x) (ha : Above p x y) (hy : y < n) (hu : u ≤ x) :
    Beyond E u v y := by
  induction ha with
  | refl => exact hb
  | @child y ha h0 ih =>
    have hlt := h.parent_lt y h0
    exact .step (ih (hlt.trans hy)) (h.parent_edge y hy h0)
      (hu.trans ((h.above_le ha).trans (Nat.le_of_lt hlt)))

theorem avoids_down (hb : Avoids E t x) (ha : Above p x y) (hy : y < n)
    (hno : ∀ z, Above p x z → Above p z y → z ≠ t) : Avoids E t y := by
  induction ha with
  | refl => exact hb
  | @child y ha h0 ih =>
    refine .step (ih ((h.parent_lt y h0).trans hy) fun z hz hz' => hno z hz (.child hz' h0))
      (h.parent_edge y hy h0) ?_
    exact hno y (.child ha h0) .refl

/-- Of the nodes above `v` those behind the parent of a node `w` do not come before `w`. -/
theorem le_of_above (hv : v < n) (hwv : w ≤ v) (hyv : Above p y v) (hy : p w < y) : w ≤ y := by
  by_contra hlt
  push Not at hlt
  rcases (h.above_of_le hyv hv (Nat.le_of_lt hlt) hwv).cases_parent with heq | ⟨-, hyp⟩
  · exact absurd heq (Nat.ne_of_lt hlt)
  · exact absurd (h.above_le hyp) (Nat.not_le_of_lt hy)

/-! Semidominators. -/

/-- A node is entered from its semidominator, which is above it. -/
theorem semi_above (hs : IsSemi E w u) (hw : w < n) (h0 : w ≠ 0) : Above p u (p w) := by
  have hlt := h.parent_lt w h0
  have hle : u ≤ p w := hs.2 (Or.inl (h.parent_edge w hw h0))
  have habove := h.above_of_enters hs.1 (hle.trans (Nat.le_of_lt hlt))
  rcases habove.cases_parent with heq | ⟨-, habove⟩
  · omega
  · exact habove

/-- A node is entered from wherever a node below it and above a predecessor is entered. -/
theorem enters_of_pred (he : E x w) (ha : Above p u x) (hu : w < u) (hv : Enters E v u) :
    Enters E v w := by
  have hb : Beyond E (w + 1) v u := by
    rcases hv with hv | ⟨y, hb, hv⟩
    · exact .edge hv hu
    · exact .step (hb.mono (Nat.succ_le_succ (Nat.le_of_lt hu))) hv hu
  exact Or.inr ⟨x, h.beyond_down hb ha (h.edge_lt x w he).1 hu, he⟩

/-- The smallest node on a path is above its end, and is entered from its start. -/
theorem exists_least (hb : Beyond E b v x) :
    ∃ u, b ≤ u ∧ Above p u x ∧ Enters E v u ∧ Beyond E u v x := by
  induction hb with
  | @edge x he hx => exact ⟨x, hx, .refl, Or.inl he, .edge he (Nat.le_refl x)⟩
  | @step x y _ he hy ih =>
    obtain ⟨u, hu, ha, hent, hb⟩ := ih
    rcases Nat.lt_or_ge y u with hlt | hge
    · exact ⟨y, hy, .refl, Or.inr ⟨x, hb.mono hlt, he⟩,
        .step (hb.mono (Nat.le_of_lt hlt)) he (Nat.le_refl y)⟩
    · exact ⟨u, hu, h.above_step ha he hge, hent, .step hb he hge⟩

/-- How a node is entered: along an edge, or below it by way of a predecessor. -/
theorem enters_cases (he : Enters E v w) :
    E v w ∨ ∃ x u, E x w ∧ Above p u x ∧ w < u ∧ Enters E v u := by
  refine he.imp id ?_
  rintro ⟨x, hb, he⟩
  obtain ⟨u, hu, ha, hent, -⟩ := h.exists_least hb
  exact ⟨x, u, he, ha, hu, hent⟩

/-! Dominators. -/

/-- What a node cannot be reached without is above it. -/
theorem above_of_not_avoids (hn : ¬ Avoids E t w) (hw : w < n) : Above p t w := by
  by_contra hno
  have ht : t ≠ 0 := fun h0 => hno (h0 ▸ h.above_zero w)
  exact hn (h.avoids_down (.root ht) (h.above_zero w) hw fun z _ hz hzt => hno (hzt ▸ hz))

/-- A node is avoided if a node below it is entered from above it. -/
theorem avoids_of_enters (hv : Enters E v y) (hvt : v < t) (hty : t < y) (hyw : Above p y w)
    (hw : w < n) : Avoids E t w := by
  have hstart : Avoids E t v :=
    h.avoids_down (.root (Nat.ne_of_gt (Nat.lt_of_le_of_lt (Nat.zero_le v) hvt))) (h.above_zero v)
    (h.lt_of_enters hv).1 fun z _ hz => Nat.ne_of_lt (Nat.lt_of_le_of_lt (h.above_le hz) hvt)
  have hy : Avoids E t y := by
    rcases hv with hv | ⟨x, hb, he⟩
    · exact .step hstart hv (Nat.ne_of_gt hty)
    · exact .step (hstart.beyond hb (hty.trans (Nat.lt_succ_self y))) he (Nat.ne_of_gt hty)
  exact h.avoids_down hy hyw hw fun z hz _ => Nat.ne_of_gt (Nat.lt_of_lt_of_le hty (h.above_le hz))

/-- What holds along a path that avoids `t`: from the last node before `t` on, the smallest node on
it is not above `w`. -/
theorem exists_beyond_of_avoids (hall : ∀ y v, t < y → Above p y w → Enters E v y → t ≤ v)
    (hz : Avoids E t x) : x < t ∨ ∃ v u, v < t ∧ ¬ Above p u w ∧ Above p u x ∧ Beyond E u v x := by
  induction hz with
  | root h0 => exact Or.inl (Nat.pos_of_ne_zero h0)
  | @step x y _ he hy ih =>
    rcases Nat.lt_or_gt_of_ne hy with hlt | hgt
    · exact Or.inl hlt
    right
    by_cases hyw : Above p y w
    · -- such a node would be entered from above `t`
      exfalso
      rcases ih with hxt | ⟨v, u, hv, hu, hux, hb⟩
      · exact absurd (hall y x hgt hyw (Or.inl he)) (Nat.not_le_of_lt hxt)
      · rcases Nat.lt_or_ge y u with hyu | hyu
        · exact absurd (hall y v hgt hyw (Or.inr ⟨x, hb.mono hyu, he⟩)) (Nat.not_le_of_lt hv)
        · exact hu ((h.above_step hux he hyu).trans hyw)
    · rcases ih with hxt | ⟨v, u, hv, hu, hux, hb⟩
      · exact ⟨x, y, hxt, hyw, .refl, .edge he (Nat.le_refl y)⟩
      · rcases Nat.lt_or_ge y u with hyu | hyu
        · exact ⟨v, y, hv, hyw, .refl, .step (hb.mono (Nat.le_of_lt hyu)) he (Nat.le_refl y)⟩
        · exact ⟨v, u, hv, hu, h.above_step hux he hyu, .step hb he hyu⟩

/-- A node above another one dominates it exactly if nothing between them is entered from
further up. -/
theorem not_avoids_iff (ht : Above p t w) (hw : w < n) :
    ¬ Avoids E t w ↔ ∀ y v, t < y → Above p y w → Enters E v y → t ≤ v := by
  constructor
  · intro hn y v hty hyw hv
    by_contra hlt
    exact hn (h.avoids_of_enters hv (Nat.lt_of_not_le hlt) hty hyw hw)
  · intro hall ha
    rcases h.exists_beyond_of_avoids hall ha with hlt | ⟨v, u, -, hu, huw, -⟩
    · exact absurd (h.above_le ht) (Nat.not_le_of_lt hlt)
    · exact hu huw

/-- Dominators of a node dominate each other. -/
theorem not_avoids_of_lt (ht : ¬ Avoids E t w) (hu : ¬ Avoids E u w) (hw : w < n) (htu : t < u) :
    ¬ Avoids E t u := by
  have huw := h.above_of_not_avoids hu hw
  have htw := h.above_of_not_avoids ht hw
  have hun := Nat.lt_of_le_of_lt (h.above_le huw) hw
  rw [h.not_avoids_iff (h.above_of_above htw huw hw (Nat.le_of_lt htu)) hun]
  exact fun y v hty hyu hv => (h.not_avoids_iff htw hw).1 ht y v hty (hyu.trans huw) hv

section Semi

variable {sd : Nat → Nat} (hsd : ∀ w < n, w ≠ 0 → IsSemi E w (sd w))
include hsd

theorem not_avoids_iff_semi (ht : Above p t w) (hw : w < n) :
    ¬ Avoids E t w ↔ ∀ y, t < y → Above p y w → t ≤ sd y := by
  rw [h.not_avoids_iff ht hw]
  have hsemi : ∀ y, t < y → Above p y w → IsSemi E y (sd y) := fun y hty hyw =>
    hsd y (Nat.lt_of_le_of_lt (h.above_le hyw) hw)
      (Nat.ne_of_gt (Nat.lt_of_le_of_lt (Nat.zero_le t) hty))
  constructor
  · exact fun hall y hty hyw => hall y (sd y) hty hyw (hsemi y hty hyw).1
  · exact fun hall y v hty hyw hv => (hall y hty hyw).trans ((hsemi y hty hyw).2 hv)

/-- A dominator of a node is not below its semidominator. -/
theorem le_semi (ht : ¬ Avoids E t w) (hne : t ≠ w) (hw : w < n) : t ≤ sd w := by
  have htw := h.above_of_not_avoids ht hw
  exact (h.not_avoids_iff_semi hsd htw hw).1 ht w (Nat.lt_of_le_of_ne (h.above_le htw) hne) .refl

variable (hw : w < n) (huw : Above p u w) (hu : sd w < u)
  (hmin : ∀ y, Above p y w → sd w < y → sd u ≤ sd y)
include hw hmin

/-- The semidominator is the immediate dominator if no node below it on the way is entered from
further up. -/
theorem isIdom_semi (h0 : w ≠ 0) (hle : sd w ≤ sd u) : IsIdom E w (sd w) := by
  have hs := hsd w hw h0
  have hlt := h.parent_lt w h0
  have habove := h.semi_above hs hw h0
  refine ⟨⟨?_, ?_⟩, fun t ht => h.le_semi hsd ht.2 ht.1 hw⟩
  · have := h.above_le habove
    omega
  · rw [h.not_avoids_iff_semi hsd (.child habove h0) hw]
    exact fun y hy hyw => hle.trans (hmin y hyw hy)

include huw hu

/-- Else a node has the immediate dominator of the one that is entered from furthest up. -/
theorem isIdom_iff (hlt : sd u < sd w) (d : Nat) : IsIdom E w d ↔ IsIdom E u d := by
  have hun := Nat.lt_of_le_of_lt (h.above_le huw) hw
  have huw' : u ≠ w := fun heq => by rw [heq] at hlt; exact Nat.lt_irrefl _ hlt
  suffices hset : {t | t ≠ w ∧ ¬ Avoids E t w} = {t | t ≠ u ∧ ¬ Avoids E t u} by
    rw [IsIdom, IsIdom, hset]
  ext t
  constructor
  · rintro ⟨hne, ht⟩
    have hle := h.le_semi hsd ht hne hw
    have htu : t < u := Nat.lt_of_le_of_lt hle hu
    have htw := h.above_of_not_avoids ht hw
    refine ⟨Nat.ne_of_lt htu, ?_⟩
    rw [h.not_avoids_iff_semi hsd (h.above_of_above htw huw hw (Nat.le_of_lt htu)) hun]
    exact fun y hty hyu => (h.not_avoids_iff_semi hsd htw hw).1 ht y hty (hyu.trans huw)
  · rintro ⟨hne, ht⟩
    have hle := h.le_semi hsd ht hne hun
    have htu := h.above_of_not_avoids ht hun
    refine ⟨fun heq => ?_, ?_⟩
    · have h1 := h.above_le htu
      have h2 := h.above_le huw
      omega
    · rw [h.not_avoids_iff_semi hsd (htu.trans huw) hw]
      intro y hty hyw
      rcases Nat.lt_or_ge u y with huy | hyu
      · exact hle.trans (hmin y hyw (hu.trans huy))
      · exact (h.not_avoids_iff_semi hsd htu hun).1 ht y hty (h.above_of_above hyw huw hw hyu)

end Semi
end DepthFirst
end CodeMotion.SearchTree
