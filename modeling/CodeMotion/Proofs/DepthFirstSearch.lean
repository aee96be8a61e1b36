import Mathlib
import CodeMotion.Proofs.Semidominators
import CodeMotion.Proofs.Traversal

/-! The search for dominators gives a number to every block that can be reached, and only to those.
A visit takes an interval of numbers. All blocks in it but the first were met from another one in
it, and when the visit is over their edges lead into it or to numbers before it. -/

namespace CodeMotion.Search

variable {fn : Func} {s t u : Search} {i j k n : Nat} {a b w : BlockId} {ws : List BlockId}

def Edge (fn : Func) (s : Search) (i j : Nat) : Prop :=
  ∃ a b, s.nodes[i]? = some a ∧ s.nodes[j]? = some b ∧ fn.Leads a b

theorem Edge.mono (h : Edge fn s i j) (hp : s.nodes <+: t.nodes) : Edge fn t i j := by
  obtain ⟨a, b, ha, hb, hab⟩ := h
  exact ⟨a, b, getElem?_extend hp ha, getElem?_extend hp hb, hab⟩

structure Sound (fn : Func) (s : Search) : Prop where
  nodup : s.nodes.Nodup
  reachable : ∀ b ∈ s.nodes, b ∈ fn.preOrder
  parents_size : s.parents.size = s.nodes.length
  preds_size : s.preds.size = s.nodes.length

namespace Sound

theorem getElem?_inj (h : Sound fn s) (hi : s.nodes[i]? = some b) (hj : s.nodes[j]? = some b) :
    i = j :=
  (List.getElem?_inj (List.getElem?_eq_some_iff.1 hi).1 h.nodup).1 (hi.trans hj.symm)

theorem number_eq (h : Sound fn s) (hi : s.nodes[i]? = some b) : s.number b = i :=
  h.getElem?_inj (List.getElem?_idxOf (List.mem_of_getElem? hi)) hi

end Sound

theorem number_lt (hb : b ∈ s.nodes) : s.number b < s.nodes.length := List.idxOf_lt_length_of_mem hb

/-- A visit that started at the number `n` and has seen the edges of its first block to `ws` has
seen this edge. -/
def Looked (fn : Func) (n : Nat) (ws : List BlockId) (t : Search) (i : Nat) (w : BlockId) : Prop :=
  n ≤ i ∧ (i = n → w ∈ ws) ∧ ∃ a, t.nodes[i]? = some a ∧ fn.Leads a w

/-- A search has gone from `s` to `t` in a visit of the block `b`, and has seen the edges of `b` to
`ws`. -/
structure Spans (fn : Func) (b : BlockId) (ws : List BlockId) (s t : Search) : Prop
    extends Sound fn t where
  nodes : s.nodes <+: t.nodes
  first : t.nodes[s.nodes.length]? = some b
  kept : ∀ j < s.nodes.length, t.parents.getD j 0 = s.parents.getD j 0
  tree : ∀ j, s.nodes.length < j → j < t.nodes.length →
    s.nodes.length ≤ t.parents.getD j 0 ∧ t.parents.getD j 0 < j ∧ Edge fn t (t.parents.getD j 0) j
  closed : ∀ i w, Looked fn s.nodes.length ws t i w → w ∈ t.nodes
  preds : ∀ i j, i ∈ t.preds.getD j [] ↔
    i ∈ s.preds.getD j [] ∨ ∃ w, t.nodes[j]? = some w ∧ Looked fn s.nodes.length ws t i w
  nested : ∀ i j k w, Looked fn s.nodes.length ws t i w → t.nodes[k]? = some w → i < j → j ≤ k →
    i ≤ t.parents.getD j 0

theorem Sound.enter (h : Sound fn s) (hb : b ∈ fn.preOrder) (hn : b ∉ s.nodes) :
    Spans fn b [] s (s.enter b) := by
  have hlen : (s.enter b).nodes.length = s.nodes.length + 1 := List.length_append
  have hno : ∀ i w, ¬ Looked fn s.nodes.length [] (s.enter b) i w := by
    rintro i w ⟨hi, hws, a, ha, -⟩
    have hlt := (List.getElem?_eq_some_iff.1 ha).1
    exact List.not_mem_nil (hws (by omega))
  refine ⟨⟨?_, ?_, ?_, ?_⟩, List.prefix_append _ _, by simp [Search.enter], fun j hj => ?_,
    fun j h1 h2 => by omega, fun i w hl => absurd hl (hno i w), fun i j => ?_,
    fun i j k w hl => absurd hl (hno i w)⟩
  · exact List.nodup_append.2 ⟨h.nodup, List.nodup_singleton b,
      by rintro x hx y hy rfl; exact hn (List.mem_singleton.1 hy ▸ hx)⟩
  · intro c hc
    rcases List.mem_append.1 hc with hc | hc
    · exact h.reachable c hc
    · exact List.mem_singleton.1 hc ▸ hb
  · rw [hlen, Search.enter, Array.size_push, h.parents_size]
  · rw [hlen, Search.enter, Array.size_push, h.preds_size]
  · rw [← h.parents_size] at hj
    simp [Search.enter, Array.getD, hj, Nat.lt_succ_of_lt hj, Array.getElem_push_lt]
  · have hpush : (s.enter b).preds.getD j [] = s.preds.getD j [] := by
      simp only [Search.enter, Array.getD_eq_getD_getElem?, Array.getElem?_push]
      split
      · next hj => simp [hj]
      · rfl
    rw [hpush]
    exact ⟨Or.inl, fun h => h.resolve_right fun ⟨w, _, hl⟩ => hno i w hl⟩

theorem Looked.mono (h : Looked fn n ws s i w) (hp : s.nodes <+: t.nodes) :
    Looked fn n ws t i w := by
  obtain ⟨hi, hws, a, ha, hl⟩ := h
  exact ⟨hi, hws, a, getElem?_extend hp ha, hl⟩

namespace Spans

/-- What has been seen after the visit of another block was seen before or by that visit. -/
theorem looked_cases (hc : Spans fn w (fn.succs w) t u) {x : BlockId} (hl : Looked fn n ws u i x) :
    Looked fn n ws t i x ∨ Looked fn t.nodes.length (fn.succs w) u i x := by
  obtain ⟨hi, hws, a, ha, hax⟩ := hl
  by_cases hit : i < t.nodes.length
  · obtain ⟨c, hc'⟩ : ∃ c, t.nodes[i]? = some c := ⟨_, List.getElem?_eq_getElem hit⟩
    rw [getElem?_extend hc.nodes hc', Option.some.injEq] at ha
    exact Or.inl ⟨hi, hws, c, hc', ha ▸ hax⟩
  · refine Or.inr ⟨by omega, ?_, a, ha, hax⟩
    rintro rfl
    rw [hc.first, Option.some.injEq] at ha
    exact ha ▸ hax

/-- A block that was met from the first one is visited, and gets it as its parent. -/
theorem visit (h : Spans fn b ws s t) (hw : fn.Leads b w) (hc : Spans fn w (fn.succs w) t u) :
    Spans fn b ws s (u.setParent s.nodes.length (u.number w)) := by
  have hst : s.nodes.length < t.nodes.length := (List.getElem?_eq_some_iff.1 h.first).1
  have htu : t.nodes.length < u.nodes.length := (List.getElem?_eq_some_iff.1 hc.first).1
  have hpar : ∀ j, (u.setParent s.nodes.length (u.number w)).parents.getD j 0 =
      if t.nodes.length = j then s.nodes.length else u.parents.getD j 0 := by
    intro j
    rw [hc.number_eq hc.first]
    exact getD_setIfInBounds (by rw [hc.parents_size]; exact htu) j _ _
  have hlater : ∀ i x, Looked fn t.nodes.length (fn.succs w) u i x →
      Looked fn s.nodes.length ws u i x :=
    fun i x ⟨hi, _, ha⟩ => ⟨by omega, by omega, ha⟩
  refine ⟨⟨hc.nodup, hc.reachable, ?_, hc.preds_size⟩, h.nodes.trans hc.nodes,
    getElem?_extend hc.nodes h.first, fun j hj => ?_, fun j h1 h2 => ?_, fun i x hl => ?_,
    fun i j => ?_, fun i j k x hl hk hij hjk => ?_⟩
  · exact (Array.size_setIfInBounds ..).trans hc.parents_size
  · rw [hpar, if_neg (by omega), hc.kept j (by omega), h.kept j hj]
  · rw [hpar]
    rcases Nat.lt_trichotomy j t.nodes.length with hj | rfl | hj
    · obtain ⟨hle, hlt, hedge⟩ := h.tree j h1 hj
      rw [if_neg (by omega), hc.kept j hj]
      exact ⟨hle, hlt, hedge.mono hc.nodes⟩
    · rw [if_pos rfl]
      exact ⟨le_rfl, h1, b, w, getElem?_extend hc.nodes h.first, hc.first, hw⟩
    · obtain ⟨hle, hlt, hedge⟩ := hc.tree j hj h2
      rw [if_neg (by omega)]
      exact ⟨by omega, hlt, hedge⟩
  · rcases hc.looked_cases hl with hl | hl
    · exact hc.nodes.subset (h.closed i x hl)
    · exact hc.closed i x hl
  · rw [show (u.setParent s.nodes.length (u.number w)).preds = u.preds from rfl, hc.preds,
      h.preds, or_assoc]
    refine or_congr_right ⟨?_, ?_⟩
    · rintro (⟨x, hx, hl⟩ | ⟨x, hx, hl⟩)
      · exact ⟨x, getElem?_extend hc.nodes hx, hl.mono hc.nodes⟩
      · exact ⟨x, hx, hlater i x hl⟩
    · rintro ⟨x, hx, hl⟩
      rcases hc.looked_cases hl with hl | hl
      · obtain ⟨k, hk⟩ := List.getElem?_of_mem (h.closed i x hl)
        have hkj : k = j := hc.getElem?_inj (getElem?_extend hc.nodes hk) hx
        exact Or.inl ⟨x, hkj ▸ hk, hl⟩
      · exact Or.inr ⟨x, hx, hl⟩
  · rw [hpar]
    rcases hc.looked_cases hl with hl | hl
    · -- the edge was seen before the visit, so it ends before it
      obtain ⟨k', hk'⟩ := List.getElem?_of_mem (h.closed i x hl)
      have hkk : k' = k := hc.getElem?_inj (getElem?_extend hc.nodes hk') hk
      have hlt := (List.getElem?_eq_some_iff.1 hk').1
      rw [if_neg (by omega), hc.kept j (by omega)]
      exact h.nested i j k x hl (hkk ▸ hk') hij hjk
    · have hi := hl.1
      rw [if_neg (by omega)]
      exact hc.nested i j k x hl hk hij hjk

/-- An edge of the first block to one that has a number. -/
theorem addPred (h : Spans fn b ws s t) (hw : fn.Leads b w) (ht : w ∈ t.nodes) :
    Spans fn b (ws ++ [w]) s (t.addPred s.nodes.length (t.number w)) := by
  have hlooked : ∀ i x, Looked fn s.nodes.length (ws ++ [w]) t i x ↔
      Looked fn s.nodes.length ws t i x ∨ i = s.nodes.length ∧ x = w := by
    intro i x
    constructor
    · rintro ⟨hi, hws, hl⟩
      by_cases hn : i = s.nodes.length ∧ x = w
      · exact Or.inr hn
      · refine Or.inl ⟨hi, fun hin => ?_, hl⟩
        exact (List.mem_append.1 (hws hin)).resolve_right fun hx =>
          hn ⟨hin, List.mem_singleton.1 hx⟩
    · rintro (⟨hi, hws, hl⟩ | ⟨rfl, rfl⟩)
      · exact ⟨hi, fun hin => List.mem_append_left _ (hws hin), hl⟩
      · exact ⟨le_rfl, fun _ => by simp, b, h.first, hw⟩
  have hnum : t.nodes[t.number w]? = some w := List.getElem?_idxOf ht
  refine ⟨⟨h.nodup, h.reachable, h.parents_size, ?_⟩, h.nodes, h.first, h.kept, h.tree,
    fun i x hl => ?_, fun i j => ?_, fun i j k x hl hk hij hjk => ?_⟩
  · exact (Array.size_modify ..).trans h.preds_size
  · rcases (hlooked i x).1 hl with hl | ⟨-, rfl⟩
    · exact h.closed i x hl
    · exact ht
  · have hget : (t.addPred s.nodes.length (t.number w)).preds.getD j [] =
        if t.number w = j then t.preds.getD j [] ++ [s.nodes.length] else t.preds.getD j [] :=
      getD_modify (by rw [h.preds_size]; exact number_lt ht) j _ _
    have hmem : i ∈ (t.addPred s.nodes.length (t.number w)).preds.getD j [] ↔
        i ∈ t.preds.getD j [] ∨ t.nodes[j]? = some w ∧ i = s.nodes.length := by
      have hj : t.number w = j ↔ t.nodes[j]? = some w := ⟨fun e => e ▸ hnum, h.number_eq⟩
      rw [hget, ← hj]
      split
      · next hnw => simp [hnw]
      · next hnw => simp [hnw]
    rw [hmem, h.preds, or_assoc]
    refine or_congr_right ⟨?_, ?_⟩
    · rintro (⟨x, hx, hl⟩ | ⟨hj, rfl⟩)
      · exact ⟨x, hx, (hlooked i x).2 (Or.inl hl)⟩
      · exact ⟨w, hj, (hlooked _ w).2 (Or.inr ⟨rfl, rfl⟩)⟩
    · rintro ⟨x, hx, hl⟩
      rcases (hlooked i x).1 hl with hl | ⟨hi, rfl⟩
      · exact Or.inl ⟨x, hx, hl⟩
      · exact Or.inr ⟨hx, hi⟩
  · rcases (hlooked i x).1 hl with hl | ⟨rfl, rfl⟩
    · exact h.nested i j k x hl hk hij hjk
    · -- everything after the first block hangs below it
      exact (h.tree j hij (hjk.trans_lt (List.getElem?_eq_some_iff.1 hk).1)).1

theorem look (h : Spans fn b ws s t) (hw : fn.Leads b w) {visit : BlockId → Search → Search}
    (hv : w ∉ t.nodes → Spans fn w (fn.succs w) t (visit w t)) :
    Spans fn b (ws ++ [w]) s (t.look visit s.nodes.length w) := by
  unfold Search.look
  by_cases hm : w ∈ t.nodes
  · simp only [List.contains_iff_mem.2 hm, if_true]
    exact h.addPred hw hm
  · have hc := hv hm
    simp only [List.contains_eq_mem, hm, decide_false, Bool.false_eq_true, if_false]
    exact (h.visit hw hc).addPred hw (List.mem_of_getElem? hc.first)

end Spans

/-- A visit of a new block sees all edges of the blocks that it meets. -/
theorem dfs_spans (h : Sound fn s) (hb : b ∈ fn.preOrder) (hn : b ∉ s.nodes) (fuel : Nat)
    (hf : fn.preOrder.length ≤ s.nodes.length + fuel) :
    Spans fn b (fn.succs b) s (dfs fn fuel b s) := by
  induction fuel generalizing b s with
  | zero =>
    have hnd := List.nodup_cons.2 ⟨hn, h.nodup⟩
    have hlen := (hnd.subperm (List.cons_subset.2 ⟨hb, h.reachable⟩)).length_le
    rw [List.length_cons] at hlen
    omega
  | succ fuel ih =>
    -- the edges seen so far are `ws`, those still to be seen `rest`
    have hloop : ∀ rest ws t, fn.succs b = ws ++ rest → Spans fn b ws s t →
        Spans fn b (fn.succs b) s (rest.foldl (look (dfs fn fuel) s.nodes.length) t) := by
      intro rest
      induction rest with
      | nil =>
        intro ws t hws ht
        rw [hws, List.append_nil]
        exact ht
      | cons w rest ihrest =>
        intro ws t hws ht
        have hw : fn.Leads b w := by simp [Func.Leads, hws]
        have hlt := (List.getElem?_eq_some_iff.1 ht.first).1
        refine ihrest (ws ++ [w]) _ (by simp [hws]) (ht.look hw fun hnew => ?_)
        exact ih ht.toSound (Func.mem_preOrder_of_leads hb hw) hnew (by omega)
    exact hloop (fn.succs b) [] _ rfl (h.enter hb hn)

/-! The search from the entry. -/

theorem sound_empty (fn : Func) : Sound fn {} := ⟨List.nodup_nil, by simp, rfl, rfl⟩

theorem ofFunc_spans {e : BlockId} (he : fn.entry? = some e) :
    Spans fn e (fn.succs e) {} (ofFunc fn) := by
  have hmem : e ∈ fn.preOrder := Func.mem_preOrder.2 ⟨e, he, .refl⟩
  unfold ofFunc
  rw [he]
  exact dfs_spans (sound_empty fn) hmem List.not_mem_nil _
    ((Nat.zero_add _).symm ▸ fn.length_preOrder_le)

theorem ofFunc_sound (fn : Func) : Sound fn (ofFunc fn) := by
  cases he : fn.entry? with
  | none =>
    unfold ofFunc
    rw [he]
    exact sound_empty fn
  | some e => exact (ofFunc_spans he).toSound

theorem entry_nodes {e : BlockId} (he : fn.entry? = some e) : (ofFunc fn).nodes[0]? = some e :=
  (ofFunc_spans he).first

theorem entry_of_mem (hb : b ∈ (ofFunc fn).nodes) : ∃ e, fn.entry? = some e := by
  obtain ⟨e, he, -⟩ := Func.mem_preOrder.1 ((ofFunc_sound fn).reachable b hb)
  exact ⟨e, he⟩

theorem looked_zero {e : BlockId} (he : fn.entry? = some e) :
    Looked fn 0 (fn.succs e) (ofFunc fn) i w ↔
      ∃ a, (ofFunc fn).nodes[i]? = some a ∧ fn.Leads a w := by
  refine ⟨fun h => h.2.2, fun ⟨a, ha, hl⟩ => ⟨Nat.zero_le i, ?_, a, ha, hl⟩⟩
  rintro rfl
  rw [entry_nodes he, Option.some.injEq] at ha
  exact ha ▸ hl

theorem mem_nodes : b ∈ (ofFunc fn).nodes ↔ b ∈ fn.preOrder := by
  refine ⟨(ofFunc_sound fn).reachable b, fun hb => ?_⟩
  obtain ⟨e, he, hr⟩ := Func.mem_preOrder.1 hb
  have hs := ofFunc_spans he
  clear hb
  induction hr with
  | refl => exact List.mem_of_getElem? hs.first
  | tail _ hl ih =>
    obtain ⟨i, hi⟩ := List.getElem?_of_mem ih
    exact hs.closed i _ ((looked_zero he).2 ⟨_, hi, hl⟩)

theorem mem_preds : i ∈ (ofFunc fn).preds.getD j [] ↔ Edge fn (ofFunc fn) i j := by
  cases he : fn.entry? with
  | none =>
    have hnil : ofFunc fn = {} := by
      unfold ofFunc
      rw [he]
    simp [hnil, Edge, Array.getD]
  | some e =>
    have hs := ofFunc_spans he
    rw [hs.preds]
    constructor
    · rintro (h | ⟨w, hw, hl⟩)
      · simp [Array.getD] at h
      · obtain ⟨a, ha, haw⟩ := (looked_zero he).1 hl
        exact ⟨a, w, ha, hw, haw⟩
    · rintro ⟨a, w, ha, hw, haw⟩
      exact Or.inr ⟨w, hw, (looked_zero he).2 ⟨a, ha, haw⟩⟩

/-- The numbers are those of a depth-first search, and the parents its tree. -/
theorem numbers_ofFunc (fn : Func) :
    (ofFunc fn).Numbers (Edge fn (ofFunc fn)) fun j => (ofFunc fn).parents.getD j 0 := by
  have hsound := ofFunc_sound fn
  have hlt : ∀ {i b}, (ofFunc fn).nodes[i]? = some b → i < (ofFunc fn).nodes.length :=
    fun hi => (List.getElem?_eq_some_iff.1 hi).1
  have htree : ∀ j, j < (ofFunc fn).nodes.length → j ≠ 0 →
      (ofFunc fn).parents.getD j 0 < j ∧ Edge fn (ofFunc fn) ((ofFunc fn).parents.getD j 0) j := by
    intro j hj h0
    obtain ⟨e, he⟩ := entry_of_mem (List.getElem_mem hj)
    exact ((ofFunc_spans he).tree j (Nat.pos_of_ne_zero h0) hj).2
  refine ⟨⟨?_, fun j h0 => ?_, fun j hj h0 => ?_, ?_⟩, fun _ => rfl, fun i j => mem_preds⟩
  · rintro i j ⟨a, b, ha, hb, -⟩
    rw [hsound.preds_size]
    exact ⟨hlt ha, hlt hb⟩
  · by_cases hj : j < (ofFunc fn).nodes.length
    · exact (htree j hj h0).1
    · have : (ofFunc fn).parents.getD j 0 = 0 := by simp [Array.getD, hsound.parents_size, hj]
      rw [this]
      exact Nat.pos_of_ne_zero h0
  · rw [hsound.preds_size] at hj
    exact (htree j hj h0).2
  · rintro i j k ⟨a, c, ha, hc, hac⟩ hij hjk
    obtain ⟨e, he⟩ := entry_of_mem (List.mem_of_getElem? hc)
    exact (ofFunc_spans he).nested i j k c ((looked_zero he).2 ⟨a, ha, hac⟩) hc hij hjk

end CodeMotion.Search
