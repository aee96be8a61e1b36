import Mathlib
import CodeMotion.Proofs.DepthFirstSearch

/-! Walks from the entry, and the blocks that lie on all of them. What the search for dominators
finds for the numbers of the blocks holds of the blocks. -/

namespace CodeMotion

namespace Func

/-- A walk from the entry, as the blocks it has left, and the block it has come to. -/
inductive Walk (fn : Func) : List BlockId → BlockId → Prop
  | entry {e : BlockId} (h : fn.entry? = some e) : Walk fn [] e
  | step {l : List BlockId} {a b : BlockId} (h : Walk fn l a) (hs : fn.Leads a b) :
    Walk fn (l ++ [a]) b

/-- Every walk to `b` has left `a` before. -/
def Precedes (fn : Func) (a b : BlockId) : Prop := ∀ l, fn.Walk l b → a ∈ l

/-- Every walk to `b` passes `a`, which may be `b` itself. -/
def Dominates (fn : Func) (a b : BlockId) : Prop := ∀ l, fn.Walk l b → a ∈ l ++ [b]

variable {fn : Func} {a b d : BlockId} {l r : List BlockId}

theorem dominates_iff : fn.Dominates a b ↔ a = b ∨ fn.Precedes a b := by
  unfold Dominates Precedes
  by_cases hab : a = b
  · simp [hab]
  · simp [hab]

theorem Walk.reachable (h : fn.Walk l b) : b ∈ fn.preOrder := by
  rw [mem_preOrder]
  induction h with
  | entry he => exact ⟨_, he, .refl⟩
  | step _ hs ih =>
    obtain ⟨e, he, hr⟩ := ih
    exact ⟨e, he, hr.tail hs⟩

theorem exists_walk (h : b ∈ fn.preOrder) : ∃ l, fn.Walk l b := by
  obtain ⟨e, he, hr⟩ := mem_preOrder.1 h
  induction hr with
  | refl => exact ⟨[], .entry he⟩
  | tail hr hs ih =>
    obtain ⟨l, hl⟩ := ih (mem_preOrder.2 ⟨e, he, hr⟩)
    exact ⟨_, hl.step hs⟩

/-- A walk can be cut at a block that it has left, and continued from another walk to it. -/
theorem Walk.cut (h : fn.Walk (l ++ d :: r) b) :
    fn.Walk l d ∧ ∀ l', fn.Walk l' d → fn.Walk (l' ++ d :: r) b := by
  induction r using List.reverseRecOn generalizing b with
  | nil =>
    generalize hm : l ++ [d] = m at h
    cases h with
    | entry _ => simp at hm
    | step h hs =>
      obtain ⟨rfl, hd⟩ := List.append_inj' hm rfl
      cases hd
      exact ⟨h, fun l' hl' => hl'.step hs⟩
  | append_singleton r x ih =>
    generalize hm : l ++ d :: (r ++ [x]) = m at h
    cases h with
    | entry _ => simp at hm
    | step h hs =>
      rw [← List.cons_append, ← List.append_assoc] at hm
      obtain ⟨rfl, hx⟩ := List.append_inj' hm rfl
      cases hx
      obtain ⟨h1, h2⟩ := ih h
      refine ⟨h1, fun l' hl' => ?_⟩
      rw [← List.cons_append, ← List.append_assoc]
      exact (h2 l' hl').step hs

theorem Precedes.trans (h : fn.Precedes a d) (h' : fn.Precedes d b) : fn.Precedes a b := by
  intro l hl
  obtain ⟨l₁, r, rfl⟩ := List.append_of_mem (h' l hl)
  exact List.mem_append_left _ (h l₁ hl.cut.1)

theorem not_precedes_entry (h : fn.entry? = some b) : ¬ fn.Precedes a b := fun hp => by
  have := hp [] (.entry h)
  simp at this

/-- A walk to a block would leave it before, and a shorter walk again. -/
theorem not_precedes_self (h : b ∈ fn.preOrder) : ¬ fn.Precedes b b := by
  intro hp
  have hno : ∀ n l, l.length ≤ n → ¬ fn.Walk l b := by
    intro n
    induction n with
    | zero =>
      intro l hn hl
      rw [List.length_eq_zero_iff.1 (Nat.le_zero.1 hn)] at hl
      exact List.not_mem_nil (hp [] hl)
    | succ n ih =>
      intro l hn hl
      obtain ⟨l', r, rfl⟩ := List.append_of_mem (hp l hl)
      rw [List.length_append, List.length_cons] at hn
      exact ih l' (by omega) hl.cut.1
  obtain ⟨l, hl⟩ := exists_walk h
  exact hno l.length l (Nat.le_refl _) hl

end Func

/-! The numbers of the blocks. -/

namespace Search

open SearchTree

variable {fn : Func} {i j : Nat} {a b d : BlockId}

theorem avoids_iff (ha : (ofFunc fn).nodes[i]? = some a) (hb : (ofFunc fn).nodes[j]? = some b) :
    ¬ Avoids (Edge fn (ofFunc fn)) i j ↔ a = b ∨ fn.Precedes a b := by
  constructor
  · intro hno
    by_cases hab : a = b
    · exact Or.inl hab
    · refine Or.inr fun l hl => ?_
      by_contra hal
      refine hno ?_
      induction hl generalizing j with
      | entry he =>
        rw [(ofFunc_sound fn).getElem?_inj hb (entry_nodes he)] at hno ⊢
        refine .root fun h0 => hab ?_
        rw [h0, entry_nodes he, Option.some.injEq] at ha
        exact ha.symm
      | @step l c b hl hs ih =>
        rw [List.mem_append, List.mem_singleton, not_or] at hal
        obtain ⟨k, hk⟩ := List.getElem?_of_mem (mem_nodes.2 hl.reachable)
        have hav : Avoids (Edge fn (ofFunc fn)) i k := by
          by_contra hck
          exact hck (ih hk hck hal.2 hal.1)
        exact .step hav ⟨c, b, hk, hb, hs⟩ fun hji =>
          hab (by rw [hji, ha, Option.some.injEq] at hb; exact hb)
  · intro hdom hav
    have hwalk : ∀ {k}, Avoids (Edge fn (ofFunc fn)) i k → ∀ {c}, (ofFunc fn).nodes[k]? = some c →
        a ≠ c ∧ ∃ l, fn.Walk l c ∧ a ∉ l := by
      intro k hk
      induction hk with
      | root h0 =>
        intro c hc
        obtain ⟨e, he, -⟩ := Func.mem_preOrder.1 (mem_nodes.1 (List.mem_of_getElem? hc))
        have hce := entry_nodes he
        rw [hc, Option.some.injEq] at hce
        exact ⟨fun hac => h0 ((ofFunc_sound fn).getElem?_inj ha (hac ▸ hc)), [], hce ▸ .entry he,
          List.not_mem_nil⟩
      | @step x y _ hxy hy ih =>
        intro c hc
        obtain ⟨d, c', hd, hc', hdc⟩ := hxy
        rw [hc, Option.some.injEq] at hc'
        subst hc'
        obtain ⟨had, l, hl, hal⟩ := ih hd
        refine ⟨fun hac => hy ((ofFunc_sound fn).getElem?_inj hc (hac ▸ ha)), l ++ [d],
          hl.step hdc, ?_⟩
        rw [List.mem_append, List.mem_singleton, not_or]
        exact ⟨hal, had⟩
    obtain ⟨hne, l, hl, hal⟩ := hwalk hav hb
    rcases hdom with hab | hp
    · exact hne hab
    · exact hal (hp l hl)

/-- The number that the search finds is that of the last block every walk has left, which has all
the others behind it. -/
theorem idoms_spec (hb : (ofFunc fn).nodes[j]? = some b) (h0 : j ≠ 0) :
    (Forest.ofSearch (ofFunc fn)).idoms.getD j 0 < j ∧
      ∃ d, (ofFunc fn).nodes[(Forest.ofSearch (ofFunc fn)).idoms.getD j 0]? = some d ∧
      fn.Precedes d b ∧ ∀ a, fn.Precedes a b → a = d ∨ fn.Precedes a d := by
  have hg := numbers_ofFunc fn
  have hj : j < (ofFunc fn).preds.size := by
    rw [(ofFunc_sound fn).preds_size]
    exact (List.getElem?_eq_some_iff.1 hb).1
  obtain ⟨⟨hne, hdom⟩, hmax⟩ := Forest.isIdom_idoms hg hj h0
  obtain ⟨k, hk⟩ : ∃ k, k = (Forest.ofSearch (ofFunc fn)).idoms.getD j 0 := ⟨_, rfl⟩
  rw [← hk] at hne hdom hmax ⊢
  have hkj : k < j :=
    Nat.lt_of_le_of_ne (hg.depthFirst.above_le (hg.depthFirst.above_of_not_avoids hdom hj)) hne
  have hlt : k < (ofFunc fn).nodes.length := by
    rw [← (ofFunc_sound fn).preds_size]
    exact hkj.trans hj
  have hd := List.getElem?_eq_getElem hlt
  have hkb : (ofFunc fn).nodes[k] ≠ b :=
    fun heq => hne ((ofFunc_sound fn).getElem?_inj (heq ▸ hd) hb)
  refine ⟨hkj, _, hd, ((avoids_iff hd hb).1 hdom).resolve_left hkb, fun a ha => ?_⟩
  obtain ⟨l, hl⟩ := Func.exists_walk (mem_nodes.1 (List.mem_of_getElem? hb))
  obtain ⟨l₁, r, rfl⟩ := List.append_of_mem (ha l hl)
  obtain ⟨i, hi⟩ := List.getElem?_of_mem (mem_nodes.2 hl.cut.1.reachable)
  have hav := (avoids_iff hi hb).2 (Or.inr ha)
  have hij : i ≠ j := by
    rintro rfl
    rw [hi, Option.some.injEq] at hb
    exact Func.not_precedes_self hl.cut.1.reachable (hb ▸ ha)
  rcases Nat.lt_or_eq_of_le (hmax ⟨hij, hav⟩) with hik | hik
  · exact (avoids_iff hi hd).1 (hg.depthFirst.not_avoids_of_lt hav hdom hj hik)
  · left
    rw [hik, hd, Option.some.injEq] at hi
    exact hi.symm

end Search

end CodeMotion
