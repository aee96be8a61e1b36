import Mathlib
import CodeMotion.Func.PostOrder

/-! The depth-first traversal meets exactly the blocks that can be reached from the entry,
each once. -/

namespace CodeMotion

open Relation

namespace Func

def Leads (fn : Func) (a b : BlockId) : Prop := b ∈ fn.succs a

instance (fn : Func) (a b : BlockId) : Decidable (fn.Leads a b) :=
  inferInstanceAs (Decidable (b ∈ fn.succs a))

/-- The blocks reachable from the entry in the order in which the traversal meets them. -/
def preOrder (fn : Func) : List BlockId :=
  ((PostOrder.start fn).drain fn (fn.reachBound + 1)).2.visited.reverse

variable {fn : Func} {l : List BlockId}

theorem targets_eq_nil {b : BlockId} (h : fn.blocks.get? b = none) : fn.targets b = [] := by
  have : fn.block b = {} := by rw [block, h, Option.getD_none]; rfl
  rw [targets, this]

theorem exists_block_of_leads {a b : BlockId} (h : fn.Leads a b) :
    ∃ n < fn.blocks.size, a = n + 1 ∧ b ∈ fn.targets (n + 1) := by
  have hb : b ∈ fn.targets a := List.mem_eraseDups.1 h
  cases hg : fn.blocks.get? a with
  | none => simp [targets_eq_nil hg] at hb
  | some blk =>
    cases a with
    | zero => simp [Table.get?] at hg
    | succ n => exact ⟨n, (Array.getElem?_eq_some_iff.1 hg).1, rfl, hb⟩

theorem length_le_reachBound (hn : l.Nodup)
    (h : ∀ b ∈ l, ∃ e ∈ fn.entry?, ReflTransGen fn.Leads e b) : l.length ≤ fn.reachBound := by
  have hsub : l ⊆ fn.entry?.toList ++ (List.range fn.blocks.size).flatMap fun n =>
      fn.targets (n + 1) := by
    intro b hb
    obtain ⟨e, he, hr⟩ := h b hb
    rcases hr.cases_tail with rfl | ⟨a, -, hab⟩
    · exact List.mem_append_left _ (Option.mem_toList.2 he)
    · obtain ⟨n, hlt, -, ht⟩ := exists_block_of_leads hab
      exact List.mem_append_right _ (List.mem_flatMap.2 ⟨n, List.mem_range.2 hlt, ht⟩)
  have hlen := (hn.subperm hsub).length_le
  have he : fn.entry?.toList.length ≤ 1 := by cases fn.entry? <;> simp
  rw [List.length_append] at hlen
  unfold reachBound
  omega

end Func

namespace PostOrder

variable {fn : Func} {out : List BlockId} {it : PostOrder}

/-- What holds during a traversal that has yielded the blocks `out`. -/
structure Visiting (fn : Func) (out : List BlockId) (it : PostOrder) : Prop where
  perm : (it.stack ++ out).Perm it.visited
  nodup : it.visited.Nodup
  closed : ∀ b ∈ out, ∀ s ∈ fn.succs b, s ∈ it.visited
  reachable : ∀ b ∈ it.visited, ∃ e ∈ fn.entry?, ReflTransGen fn.Leads e b
  entry : ∀ e ∈ fn.entry?, e ∈ it.visited

namespace Visiting

theorem start (fn : Func) : Visiting fn [] (PostOrder.start fn) := by
  unfold PostOrder.start
  cases he : fn.entry? with
  | none => exact ⟨by simp, by simp, by simp, by simp, by simp [he]⟩
  | some e =>
    refine ⟨by simp, by simp, by simp, fun b hb => ?_, by simp [he]⟩
    rw [List.mem_singleton.1 hb]
    exact ⟨e, he, .refl⟩

theorem length_visited (h : Visiting fn out it) : it.visited.length ≤ fn.reachBound :=
  Func.length_le_reachBound h.nodup h.reachable

theorem mem_visited (h : Visiting fn out it) {b : BlockId} (hb : b ∈ it.stack) : b ∈ it.visited :=
  h.perm.subset (List.mem_append_left out hb)

theorem push (h : Visiting fn out it) {b s : BlockId} {rest : List BlockId}
    (hs : it.stack = b :: rest) (hm : s ∈ fn.succs b) (hn : s ∉ it.visited) :
    Visiting fn out { it with stack := s :: b :: rest, visited := s :: it.visited } where
  perm := by
    have := h.perm
    rw [hs] at this
    exact this.cons s
  nodup := List.nodup_cons.2 ⟨hn, h.nodup⟩
  closed c hc t ht := List.mem_cons_of_mem _ (h.closed c hc t ht)
  reachable c hc := by
    rcases List.mem_cons.1 hc with rfl | hc
    · obtain ⟨e, he, hr⟩ := h.reachable b (h.mem_visited (by simp [hs]))
      exact ⟨e, he, hr.tail hm⟩
    · exact h.reachable c hc
  entry e he := List.mem_cons_of_mem _ (h.entry e he)

theorem pop (h : Visiting fn out it) {b : BlockId} {rest : List BlockId} (hs : it.stack = b :: rest)
    (hc : ∀ s ∈ fn.succs b, s ∈ it.visited) :
    Visiting fn (b :: out) { it with stack := rest, block := some b } where
  perm := by
    have := h.perm
    rw [hs] at this
    exact List.perm_middle.trans this
  nodup := h.nodup
  closed c hcm := by
    rcases List.mem_cons.1 hcm with rfl | hcm
    · exact hc
    · exact h.closed c hcm
  reachable := h.reachable
  entry := h.entry

end Visiting

/-- A property of traversals, and of the blocks that they have yielded, that every step keeps. -/
structure Kept (fn : Func) (P : List BlockId → PostOrder → Prop) : Prop where
  visiting : ∀ {out it}, P out it → Visiting fn out it
  push : ∀ {out it b s rest}, P out it → it.stack = b :: rest → s ∈ fn.succs b → s ∉ it.visited →
    P out { it with stack := s :: b :: rest, visited := s :: it.visited }
  pop : ∀ {out it b rest}, P out it → it.stack = b :: rest → (∀ s ∈ fn.succs b, s ∈ it.visited) →
    P (b :: out) { it with stack := rest, block := some b }

theorem Visiting.kept (fn : Func) : Kept fn (Visiting fn) := ⟨id, fun h => h.push, fun h => h.pop⟩

namespace Kept

variable {P : List BlockId → PostOrder → Prop}

/-- Going down ends at a block whose successors were all visited. -/
theorem descend (hk : Kept fn P) (h : P out it) (fuel : Nat)
    (hf : fn.reachBound < it.visited.length + fuel) :
    P out (it.descend fn fuel) ∧
      ∀ b rest, (it.descend fn fuel).stack = b :: rest → ∀ s ∈ fn.succs b,
        s ∈ (it.descend fn fuel).visited := by
  induction fuel generalizing it with
  | zero =>
    have := (hk.visiting h).length_visited
    omega
  | succ fuel ih =>
    unfold PostOrder.descend
    split
    · next hs => exact ⟨h, by simp [hs]⟩
    · next b rest hs =>
      split
      · next s hfind =>
        have hn : s ∉ it.visited := by simpa using List.find?_some hfind
        refine ih (hk.push h hs (List.mem_of_find?_eq_some hfind) hn) ?_
        rw [List.length_cons]
        omega
      · next hfind =>
        refine ⟨h, fun b' rest' hs' s hm => ?_⟩
        rw [hs] at hs'
        cases hs'
        simpa using List.find?_eq_none.1 hfind s hm

theorem bottom (hk : Kept fn P) (h : P out it) : P out (it.bottom fn) ∧
    ∀ b rest, (it.bottom fn).stack = b :: rest → ∀ s ∈ fn.succs b, s ∈ (it.bottom fn).visited :=
  hk.descend h (fn.reachBound + 1) (by omega)

/-- A traversal that runs to its end has yielded what it visited. -/
theorem drain (hk : Kept fn P) (h : P out it) (fuel : Nat)
    (hf : fn.reachBound < out.length + fuel) :
    P ((it.drain fn fuel).1.reverse ++ out) (it.drain fn fuel).2 ∧
      (it.drain fn fuel).2.stack = [] := by
  induction fuel generalizing out it with
  | zero =>
    have h1 := (hk.visiting h).length_visited
    have h2 := (hk.visiting h).perm.length_eq
    rw [List.length_append] at h2
    omega
  | succ fuel ih =>
    obtain ⟨hb, hc⟩ := hk.bottom h
    unfold PostOrder.drain
    dsimp only
    split
    · next hs => exact ⟨by simpa using hb, hs⟩
    · next b rest hs =>
      have := ih (hk.pop hb hs (hc b rest hs)) (by
        rw [List.length_cons]
        omega)
      simpa using this

end Kept
end PostOrder

namespace Func

variable {fn : Func} {a b : BlockId}

theorem visiting_preOrder (fn : Func) :
    ∃ it : PostOrder, it.visited = fn.preOrder.reverse ∧ it.stack = [] ∧
    PostOrder.Visiting fn fn.postOrder.reverse it := by
  obtain ⟨h, hs⟩ := (PostOrder.Visiting.kept fn).drain (.start fn) (fn.reachBound + 1) (by simp)
  exact ⟨_, by simp [preOrder], hs, by simpa [postOrder] using h⟩

theorem nodup_preOrder (fn : Func) : fn.preOrder.Nodup := by
  obtain ⟨it, hv, -, h⟩ := fn.visiting_preOrder
  simpa [hv] using h.nodup

theorem postOrder_perm (fn : Func) : fn.postOrder.Perm fn.preOrder := by
  obtain ⟨it, hv, hs, h⟩ := fn.visiting_preOrder
  have := h.perm
  rw [hs, hv, List.nil_append] at this
  exact (List.reverse_perm _).symm.trans (this.trans (List.reverse_perm _))

theorem mem_preOrder : b ∈ fn.preOrder ↔ ∃ e ∈ fn.entry?, ReflTransGen fn.Leads e b := by
  obtain ⟨it, hv, hs, h⟩ := fn.visiting_preOrder
  have hmem : ∀ x, x ∈ fn.preOrder ↔ x ∈ it.visited := by simp [hv]
  rw [hmem]
  refine ⟨h.reachable b, ?_⟩
  rintro ⟨e, he, hr⟩
  induction hr with
  | refl => exact h.entry e he
  | tail _ hl ih =>
    have hp := h.perm
    rw [hs, List.nil_append] at hp
    exact h.closed _ (hp.symm.subset ih) _ hl

theorem mem_preOrder_of_leads (ha : a ∈ fn.preOrder) (hl : fn.Leads a b) : b ∈ fn.preOrder := by
  obtain ⟨e, he, hr⟩ := mem_preOrder.1 ha
  exact mem_preOrder.2 ⟨e, he, hr.tail hl⟩

theorem length_preOrder_le (fn : Func) : fn.preOrder.length ≤ fn.reachBound :=
  length_le_reachBound fn.nodup_preOrder fun _ => mem_preOrder.1

theorem mem_postOrder : b ∈ fn.postOrder ↔ ∃ e ∈ fn.entry?, ReflTransGen fn.Leads e b :=
  fn.postOrder_perm.mem_iff.trans mem_preOrder

theorem mem_reversePostOrder : b ∈ fn.reversePostOrder ↔ b ∈ fn.preOrder :=
  List.mem_reverse.trans fn.postOrder_perm.mem_iff

end Func
end CodeMotion
