import Mathlib
import CodeMotion.Func.Dominance
import CodeMotion.Proofs.Dominance

/-! The dominator tree of a function describes its walks: the way up from a reachable block meets
the blocks that every walk to it passes, the nearest first, and nothing else. -/

namespace CodeMotion.DomTree

open Search (entry_nodes mem_nodes)

variable {fn : Func} {i : Nat}

theorem root_foldl_enter (l : List (Nat × Nat)) (t : DomTree) :
    (l.foldl (fun t p => t.enter p.1 p.2) t).root = t.root := by
  induction l generalizing t with
  | nil => rfl
  | cons p l ih => exact ih (t.enter p.1 p.2)

theorem size_idoms_foldl_enter (l : List (Nat × Nat)) (t : DomTree) :
    (l.foldl (fun t p => t.enter p.1 p.2) t).idoms.size = t.idoms.size := by
  induction l generalizing t with
  | nil => rfl
  | cons p l ih => exact (ih (t.enter p.1 p.2)).trans (Array.size_setIfInBounds ..)

/-- The immediate dominators after some blocks were entered, none of them twice. -/
theorem idoms_foldl_enter (l : List (Nat × Nat)) (hl : (l.map (·.1)).Nodup) (t : DomTree)
    (hlt : ∀ p ∈ l, p.1 < t.idoms.size) (k : Nat) :
    (l.foldl (fun t p => t.enter p.1 p.2) t).idoms.getD k 0 = (l.lookup k).getD
      (t.idoms.getD k 0) := by
  induction l generalizing t with
  | nil => simp
  | cons p l ih =>
    obtain ⟨hp, hnd⟩ := List.nodup_cons.1 hl
    have hsize : (t.enter p.1 p.2).idoms.size = t.idoms.size := Array.size_setIfInBounds ..
    have hget : (t.enter p.1 p.2).idoms.getD k 0 = if p.1 = k then p.2 else t.idoms.getD k 0 :=
      getD_setIfInBounds (hlt p List.mem_cons_self) k _ _
    rw [List.foldl_cons, ih hnd _ (fun q hq => hsize ▸ hlt q (List.mem_cons_of_mem p hq)), hget]
    by_cases hk : p.1 = k
    · have hnone : l.lookup k = none := by
        rw [List.lookup_eq_none_iff]
        intro q hq
        simp only [bne_iff_ne, ne_eq]
        exact fun heq => hp (List.mem_map.2 ⟨q, hq, heq.symm.trans hk.symm⟩)
      simp [hnone, hk, List.lookup]
    · have hkp : (k == p.1) = false := by simpa using fun heq => hk heq.symm
      simp only [if_neg hk, List.lookup, hkp]

/-- Each block is added at the end of those that its immediate dominator has. -/
theorem subs_foldl_enter (l : List (Nat × Nat)) (t : DomTree) (hlt : ∀ p ∈ l, p.2 < t.subs.size)
    (k : Nat) :
    (l.foldl (fun t p => t.enter p.1 p.2) t).subs.getD k [] =
      t.subs.getD k [] ++ (l.filter (·.2 == k)).map (·.1) := by
  induction l generalizing t with
  | nil => simp
  | cons p l ih =>
    have hsize : (t.enter p.1 p.2).subs.size = t.subs.size := Array.size_modify ..
    have hget : (t.enter p.1 p.2).subs.getD k [] =
        if p.2 = k then t.subs.getD k [] ++ [p.1] else t.subs.getD k [] :=
      getD_modify (hlt p List.mem_cons_self) k _ _
    rw [List.foldl_cons, ih _ (fun q hq => hsize ▸ hlt q (List.mem_cons_of_mem p hq)), hget]
    by_cases hk : p.2 = k
    · simp [hk]
    · simp [hk]

theorem lookup_of_mem {l : List (Nat × Nat)} (hl : (l.map (·.1)).Nodup) {k v : Nat}
    (h : (k, v) ∈ l) : l.lookup k = some v := by
  induction l with
  | nil => simp at h
  | cons p t ih =>
    obtain ⟨hp, ht⟩ := List.nodup_cons.1 hl
    rcases List.mem_cons.1 h with rfl | h
    · simp [List.lookup]
    · have hne : (k == p.1) = false := by
        simp only [beq_eq_false_iff_ne]
        exact fun heq => hp (List.mem_map.2 ⟨(k, v), h, heq⟩)
      simp only [List.lookup, hne]
      exact ih ht h

def parents (fn : Func) : List (Nat × Nat) :=
  ((Search.ofFunc fn).nodes.zipIdx.drop 1).map fun (b, i) =>
    (b, (Search.ofFunc fn).nodes.getD ((Forest.ofSearch (.ofFunc fn)).idoms.getD i 0) 0)

theorem ofFunc_eq (fn : Func) : ofFunc fn = (parents fn).foldl (fun t p => t.enter p.1 p.2)
    { root := fn.entry?
      idoms := .replicate (fn.blocks.size + 1) 0
      subs := .replicate (fn.blocks.size + 1) [] } := by
  rw [parents, List.foldl_map]
  rfl

theorem mem_parents {b d : BlockId} :
    (b, d) ∈ parents fn ↔ ∃ i, i ≠ 0 ∧ (Search.ofFunc fn).nodes[i]? = some b ∧
    d = (Search.ofFunc fn).nodes.getD ((Forest.ofSearch (.ofFunc fn)).idoms.getD i 0) 0 := by
  simp only [parents, List.mem_map, Prod.exists, Prod.mk.injEq]
  constructor
  · rintro ⟨b', i, hm, rfl, rfl⟩
    obtain ⟨n, hn⟩ := List.getElem?_of_mem hm
    rw [List.getElem?_drop, List.getElem?_zipIdx, Option.map_eq_some_iff] at hn
    obtain ⟨a, ha, heq⟩ := hn
    cases heq
    exact ⟨_, by omega, by simpa using ha, rfl⟩
  · rintro ⟨i, h0, hb, rfl⟩
    refine ⟨b, i, ?_, rfl, rfl⟩
    refine List.mem_of_getElem? (i := i - 1) ?_
    rw [List.getElem?_drop, List.getElem?_zipIdx, Option.map_eq_some_iff]
    have hi : 1 + (i - 1) = i := by omega
    exact ⟨b, by rw [hi]; exact hb, by simp [hi]⟩

theorem nodup_parents (fn : Func) : ((parents fn).map (·.1)).Nodup := by
  have hkeys : (parents fn).map (·.1) = (Search.ofFunc fn).nodes.drop 1 := by
    rw [parents, List.map_map]
    show List.map (fun p : Nat × Nat => p.1) _ = _
    rw [List.map_drop, List.zipIdx_map_fst]
  rw [hkeys]
  exact (Search.ofFunc_sound fn).nodup.sublist (List.drop_sublist _ _)

def Solid (fn : Func) : Prop := ∀ b ∈ fn.preOrder, fn.hasBlock b = true

theorem Solid.pos {b : Nat} (h : Solid fn) (hb : b ∈ fn.preOrder) : 0 < b ∧ b ≤ fn.blocks.size :=
  (Table.get?_isSome fn.blocks b).1 (h b hb)

theorem Solid.pos_of_number {b : Nat} (h : Solid fn) (hb : (Search.ofFunc fn).nodes[i]? = some b) :
    0 < b ∧ b ≤ fn.blocks.size := h.pos (mem_nodes.1 (List.mem_of_getElem? hb))

theorem idoms_eq (hs : Solid fn) (b : BlockId) :
    (ofFunc fn).idoms.getD b 0 = ((parents fn).lookup b).getD 0 := by
  rw [ofFunc_eq, idoms_foldl_enter (parents fn) (nodup_parents fn)]
  · by_cases h : b < fn.blocks.size + 1 <;> simp [Array.getD, h]
  · intro p hp
    obtain ⟨i, -, hb, -⟩ := mem_parents.1 (show (p.1, p.2) ∈ parents fn from hp)
    simpa using Nat.lt_succ_of_le (hs.pos_of_number hb).2

theorem idom?_of_mem (hs : Solid fn) {b d : BlockId} (hi : (Search.ofFunc fn).nodes[i]? = some b)
    (h0 : i ≠ 0)
    (hd : (Search.ofFunc fn).nodes[(Forest.ofSearch (.ofFunc fn)).idoms.getD i 0]? = some d) :
    (ofFunc fn).idom? b = some d := by
  have hm : (b, d) ∈ parents fn :=
    mem_parents.2 ⟨i, h0, hi, by rw [List.getD_eq_getElem?_getD, hd]; rfl⟩
  have hpos := (hs.pos_of_number hd).1
  unfold idom?
  rw [idoms_eq hs, lookup_of_mem (nodup_parents fn) hm]
  cases d with
  | zero => exact absurd hpos (Nat.lt_irrefl 0)
  | succ d => rfl

theorem idom?_eq_none (hs : Solid fn) {b : BlockId}
    (h : ∀ i, (Search.ofFunc fn).nodes[i]? = some b → i = 0) : (ofFunc fn).idom? b = none := by
  have hnone : (parents fn).lookup b = none := by
    rw [List.lookup_eq_none_iff]
    intro p hp
    simp only [bne_iff_ne, ne_eq]
    rintro rfl
    obtain ⟨i, h0, hb, -⟩ := mem_parents.1 (show (p.1, p.2) ∈ parents fn from hp)
    exact h0 (h i hb)
  unfold idom?
  rw [idoms_eq hs, hnone]
  rfl

theorem size_idoms (fn : Func) : (ofFunc fn).idoms.size = fn.blocks.size + 1 := by
  rw [ofFunc_eq, size_idoms_foldl_enter]
  exact Array.size_replicate

theorem root_ofFunc (fn : Func) : (ofFunc fn).root = fn.entry? := by
  rw [ofFunc_eq, root_foldl_enter]

theorem length_nodes_le (hs : Solid fn) : (Search.ofFunc fn).nodes.length ≤ fn.blocks.size := by
  have hsub : (Search.ofFunc fn).nodes ⊆ (List.range fn.blocks.size).map (· + 1) := by
    intro (b : Nat) hb
    obtain ⟨h1, h2⟩ := hs.pos (mem_nodes.1 hb)
    exact List.mem_map.2 ⟨b - 1, List.mem_range.2 (by omega), Nat.sub_add_cancel h1⟩
  simpa using ((Search.ofFunc_sound fn).nodup.subperm hsub).length_le

theorem idom?_iff (hs : Solid fn) {b d : BlockId} : (ofFunc fn).idom? b = some d ↔
    ∃ i, i ≠ 0 ∧ (Search.ofFunc fn).nodes[i]? = some b ∧
      (Search.ofFunc fn).nodes[(Forest.ofSearch (.ofFunc fn)).idoms.getD i 0]? = some d := by
  constructor
  · intro h
    obtain ⟨i, hi, h0⟩ : ∃ i, (Search.ofFunc fn).nodes[i]? = some b ∧ i ≠ 0 := by
      by_contra hno
      push Not at hno
      rw [idom?_eq_none hs hno] at h
      cases h
    obtain ⟨-, d', hd, -⟩ := Search.idoms_spec hi h0
    rw [idom?_of_mem hs hi h0 hd] at h
    exact ⟨i, h0, hi, h ▸ hd⟩
  · rintro ⟨i, h0, hi, hd⟩
    exact idom?_of_mem hs hi h0 hd

theorem entry?_eq_iff {b : BlockId} (hi : (Search.ofFunc fn).nodes[i]? = some b) :
    fn.entry? = some b ↔ i = 0 := by
  constructor
  · exact fun he => (Search.ofFunc_sound fn).getElem?_inj hi (entry_nodes he)
  · rintro rfl
    obtain ⟨e, he⟩ := Search.entry_of_mem (List.mem_of_getElem? hi)
    rw [entry_nodes he] at hi
    exact he.trans hi

theorem idom?_isSome_iff (hs : Solid fn) {b : BlockId} :
    (∃ d, (ofFunc fn).idom? b = some d) ↔ b ∈ fn.preOrder ∧ fn.entry? ≠ some b := by
  constructor
  · rintro ⟨d, hd⟩
    obtain ⟨i, h0, hi, -⟩ := (idom?_iff hs).1 hd
    exact ⟨mem_nodes.1 (List.mem_of_getElem? hi), fun he => h0 ((entry?_eq_iff hi).1 he)⟩
  · rintro ⟨hb, hne⟩
    obtain ⟨i, hi⟩ := List.getElem?_of_mem (mem_nodes.2 hb)
    have h0 : i ≠ 0 := fun h0 => hne ((entry?_eq_iff hi).2 h0)
    obtain ⟨-, d, hd, -⟩ := Search.idoms_spec hi h0
    exact ⟨d, idom?_of_mem hs hi h0 hd⟩

theorem idom?_spec (hs : Solid fn) {b d : BlockId} (h : (ofFunc fn).idom? b = some d) :
    fn.Precedes d b ∧ ∀ a, fn.Precedes a b → a = d ∨ fn.Precedes a d := by
  obtain ⟨i, h0, hi, hd⟩ := (idom?_iff hs).1 h
  obtain ⟨-, d', hd', hspec⟩ := Search.idoms_spec hi h0
  rw [hd, Option.some.injEq] at hd'
  exact hd' ▸ hspec

/-! The way up. -/

def up (t : DomTree) (o : Option BlockId) : Option BlockId := o.bind t.idom?

theorem up_iterate_none (t : DomTree) (n : Nat) : t.up^[n] none = none :=
  Function.iterate_fixed rfl n

theorem up_iterate_succ (t : DomTree) (n : Nat) (b : BlockId) :
    t.up^[n + 1] (some b) = t.up^[n] (t.idom? b) := rfl

theorem climb_iff (t : DomTree) (a : BlockId) (fuel : Nat) (b : BlockId) :
    t.climb a fuel b = true ↔ ∃ n ≤ fuel, t.up^[n] (some b) = some a := by
  induction fuel generalizing b with
  | zero =>
    rw [climb, beq_iff_eq]
    constructor
    · exact fun hab => ⟨0, Nat.le_refl 0, congrArg some hab.symm⟩
    · rintro ⟨n, hn, hup⟩
      rw [Nat.le_zero.1 hn] at hup
      exact (Option.some.inj hup).symm
  | succ fuel ih =>
    rw [climb, Bool.or_eq_true, beq_iff_eq, Option.any_eq_true]
    constructor
    · rintro (rfl | ⟨d, hd, hc⟩)
      · exact ⟨0, Nat.zero_le _, rfl⟩
      · obtain ⟨n, hn, hup⟩ := (ih d).1 hc
        exact ⟨n + 1, Nat.succ_le_succ hn, by rw [up_iterate_succ, hd, hup]⟩
    · rintro ⟨n, hn, hup⟩
      cases n with
      | zero => exact Or.inl (Option.some.inj hup).symm
      | succ n =>
        rw [up_iterate_succ] at hup
        cases hd : t.idom? b with
        | none =>
          rw [hd, up_iterate_none] at hup
          cases hup
        | some d => exact Or.inr ⟨d, rfl, (ih d).2 ⟨n, Nat.le_of_succ_le_succ hn, hd ▸ hup⟩⟩

/-- The way up from a block ends: the numbers go down. -/
theorem exists_up_eq_none (hs : Solid fn) (b : BlockId) :
    ∃ n ≤ fn.blocks.size + 1, (ofFunc fn).up^[n] (some b) = none := by
  have hnum : ∀ i b, (Search.ofFunc fn).nodes[i]? = some b →
      ∃ n ≤ i + 1, (ofFunc fn).up^[n] (some b) = none := by
    intro i
    induction i using Nat.strong_induction_on with
    | _ i ih =>
      intro b hi
      cases hd : (ofFunc fn).idom? b with
      | none => exact ⟨1, Nat.le_add_left 1 i, hd⟩
      | some d =>
        obtain ⟨j, h0, hj, hdj⟩ := (idom?_iff hs).1 hd
        obtain rfl := (Search.ofFunc_sound fn).getElem?_inj hi hj
        obtain ⟨hlt, -⟩ := Search.idoms_spec hi h0
        obtain ⟨n, hn, hup⟩ := ih _ hlt d hdj
        exact ⟨n + 1, by omega, by rw [up_iterate_succ, hd, hup]⟩
  by_cases hb : b ∈ fn.preOrder
  · obtain ⟨i, hi⟩ := List.getElem?_of_mem (mem_nodes.2 hb)
    obtain ⟨n, hn, hup⟩ := hnum i b hi
    have hlt := (List.getElem?_eq_some_iff.1 hi).1
    have hlen := length_nodes_le hs
    exact ⟨n, by omega, hup⟩
  · refine ⟨1, Nat.le_add_left 1 _, ?_⟩
    exact idom?_eq_none hs fun i hi => absurd (mem_nodes.1 (List.mem_of_getElem? hi)) hb

/-- The fuel of the climb suffices. -/
theorem dominates_iff_up (hs : Solid fn) {a b : BlockId} :
    (ofFunc fn).dominates a b = true ↔ b ≠ 0 ∧ ∃ n, (ofFunc fn).up^[n] (some b) = some a := by
  rw [dominates, Bool.and_eq_true, bne_iff_ne, climb_iff, size_idoms]
  refine and_congr_right fun _ => ⟨fun ⟨n, _, hup⟩ => ⟨n, hup⟩, fun ⟨n, hup⟩ => ⟨n, ?_, hup⟩⟩
  obtain ⟨m, hm, hnone⟩ := exists_up_eq_none hs b
  by_contra hlt
  obtain ⟨k, rfl⟩ := Nat.exists_eq_add_of_le (show m ≤ n by omega)
  rw [Nat.add_comm, Function.iterate_add_apply, hnone, up_iterate_none] at hup
  cases hup

/-- The way up meets the blocks that every walk has left. -/
theorem exists_up_iff (hs : Solid fn) (a : BlockId) :
    ∀ (i : Nat) (b : BlockId), (Search.ofFunc fn).nodes[i]? = some b →
    ((∃ n, (ofFunc fn).up^[n] (some b) = some a) ↔ a = b ∨ fn.Precedes a b) := by
  intro i
  induction i using Nat.strong_induction_on with
  | _ i ih =>
    intro b hi
    have hstep : (∃ n, (ofFunc fn).up^[n] (some b) = some a) ↔ a = b ∨
        ∃ n, (ofFunc fn).up^[n] ((ofFunc fn).idom? b) = some a := by
      constructor
      · rintro ⟨_ | n, hup⟩
        · exact Or.inl (Option.some.inj hup).symm
        · exact Or.inr ⟨n, hup⟩
      · rintro (rfl | ⟨n, hup⟩)
        · exact ⟨0, rfl⟩
        · exact ⟨n + 1, hup⟩
    rw [hstep]
    refine or_congr_right ?_
    cases hd : (ofFunc fn).idom? b with
    | none =>
      have he : fn.entry? = some b := by
        by_contra hne
        obtain ⟨d, hd'⟩ := (idom?_isSome_iff hs).2 ⟨mem_nodes.1 (List.mem_of_getElem? hi), hne⟩
        rw [hd] at hd'
        cases hd'
      simp [up_iterate_none, Func.not_precedes_entry he]
    | some d =>
      obtain ⟨j, h0, hj, hdj⟩ := (idom?_iff hs).1 hd
      obtain rfl := (Search.ofFunc_sound fn).getElem?_inj hi hj
      obtain ⟨hpre, hall⟩ := idom?_spec hs hd
      rw [ih _ (Search.idoms_spec hi h0).1 d hdj]
      refine ⟨?_, hall a⟩
      rintro (rfl | h)
      · exact hpre
      · exact h.trans hpre

/-- The tree says what every walk passes. -/
theorem dominates_iff (hs : Solid fn) {a b : BlockId} (hb : b ∈ fn.preOrder) :
    (ofFunc fn).dominates a b = true ↔ a = b ∨ fn.Precedes a b := by
  obtain ⟨i, hi⟩ := List.getElem?_of_mem (mem_nodes.2 hb)
  have hne : b ≠ 0 := Nat.pos_iff_ne_zero.1 (hs.pos hb).1
  rw [dominates_iff_up hs, exists_up_iff hs a i b hi]
  exact and_iff_right hne

theorem isReachable_iff (hs : Solid fn) {b : BlockId} (hb : b ≠ 0) :
    (ofFunc fn).isReachable b = true ↔ b ∈ fn.preOrder := by
  have hroot : (ofFunc fn).root.getD 0 = b ↔ fn.entry? = some b := by
    rw [root_ofFunc]
    cases fn.entry? with
    | none => simpa using fun h => hb h.symm
    | some e => simp
  rw [isReachable, Bool.or_eq_true, beq_iff_eq, hroot, Option.isSome_iff_exists,
    idom?_isSome_iff hs]
  constructor
  · rintro (⟨h, -⟩ | he)
    · exact h
    · exact (Func.Walk.entry he).reachable
  · intro h
    by_cases he : fn.entry? = some b
    · exact Or.inr he
    · exact Or.inl ⟨h, he⟩

structure Describes (t : DomTree) (fn : Func) : Prop where
  root : t.root = fn.entry?
  dominates_iff : ∀ a b, (∃ l, fn.Walk l b) → (t.dominates a b = true ↔ fn.Dominates a b)
  idom_iff : ∀ b, (∃ d, t.idom? b = some d) ↔ (∃ l, fn.Walk l b) ∧ fn.entry? ≠ some b
  /-- The immediate dominator is another block, and all the others dominate it. -/
  nearest : ∀ b d, t.idom? b = some d → d ≠ b ∧ fn.Dominates d b ∧ ∀ a, a ≠ b → fn.Dominates a b →
    fn.Dominates a d
  children_iff : ∀ a b, b ∈ t.children a ↔ t.idom? b = some a
  children_nodup : ∀ a, (t.children a).Nodup
  /-- No climb stops on the way. -/
  climbs : ∀ a b, t.dominates a b = true ↔ b ≠ 0 ∧ ∃ n, t.up^[n] (some b) = some a
  ends : ∀ b, ∃ n, t.up^[n] (some b) = none

theorem children_eq (hs : Solid fn) (a : BlockId) :
    (ofFunc fn).children a = ((parents fn).filter (·.2 == a)).map (·.1) := by
  rw [children, ofFunc_eq, subs_foldl_enter]
  · have hnil : (Array.replicate (fn.blocks.size + 1) ([] : List BlockId)).getD a [] = [] := by
      by_cases h : a < fn.blocks.size + 1 <;> simp [Array.getD, h]
    rw [hnil, List.nil_append]
  · intro p hp
    obtain ⟨i, h0, hb, hd⟩ := mem_parents.1 (show (p.1, p.2) ∈ parents fn from hp)
    obtain ⟨-, d, hd', -⟩ := Search.idoms_spec hb h0
    rw [List.getD_eq_getElem?_getD, hd', Option.getD_some] at hd
    simpa [hd] using Nat.lt_succ_of_le (hs.pos_of_number hd').2

theorem mem_children (hs : Solid fn) {a b : BlockId} :
    b ∈ (ofFunc fn).children a ↔ (ofFunc fn).idom? b = some a := by
  have hmem : b ∈ (ofFunc fn).children a ↔ (b, a) ∈ parents fn := by simp [children_eq hs]
  rw [hmem, mem_parents, idom?_iff hs]
  refine exists_congr fun i => and_congr_right fun h0 => and_congr_right fun hi => ?_
  obtain ⟨-, d, hd, -⟩ := Search.idoms_spec hi h0
  rw [List.getD_eq_getElem?_getD, hd, Option.getD_some, Option.some.injEq, eq_comm]

theorem ofFunc_describes (hs : Solid fn) : (ofFunc fn).Describes fn where
  root := root_ofFunc fn
  dominates_iff a b hb := by
    obtain ⟨l, hl⟩ := hb
    rw [dominates_iff hs hl.reachable, Func.dominates_iff]
  idom_iff b := by
    rw [idom?_isSome_iff hs]
    exact and_congr_left fun _ => ⟨Func.exists_walk, fun ⟨l, hl⟩ => hl.reachable⟩
  nearest b d h := by
    obtain ⟨hpre, hall⟩ := idom?_spec hs h
    have hne : d ≠ b := by
      rintro rfl
      exact Func.not_precedes_self ((idom?_isSome_iff hs).1 ⟨d, h⟩).1 hpre
    refine ⟨hne, Func.dominates_iff.2 (Or.inr hpre), fun a hab ha => ?_⟩
    exact Func.dominates_iff.2 (hall a ((Func.dominates_iff.1 ha).resolve_left hab))
  children_iff a b := mem_children hs
  children_nodup a := by
    rw [children_eq hs]
    exact (nodup_parents fn).sublist (List.filter_sublist.map _)
  climbs a b := dominates_iff_up hs
  ends b := by
    obtain ⟨n, -, hup⟩ := exists_up_eq_none hs b
    exact ⟨n, hup⟩

/-- Blocks 3 to 5 form a loop that is entered in two places, and block 7 is not reached. The
semidominator of block 5 is block 2, which does not dominate it. -/
def crossed : Func where
  name := "f"
  params := ["c"]
  layout := [1, 2, 3, 4, 5, 6, 7]
  blocks := ⟨#[{ term := some 1 }, { term := some 2, preds := [1] },
    { term := some 3, preds := [1, 2, 5] },
    { term := some 4, preds := [3, 4] }, { term := some 5, preds := [2, 4] },
      { term := some 6, preds := [5, 7] }, { term := some 7 }]⟩
  instrs := ⟨#[
    { op := .branch, args := [.param 0 "c"], targets := [2, 3], block := some 1 },
    { op := .branch, args := [.param 0 "c"], targets := [3, 5], block := some 2 },
    { op := .jump, targets := [4], block := some 3 },
    { op := .branch, args := [.param 0 "c"], targets := [4, 5], block := some 4 },
    { op := .branch, args := [.param 0 "c"], targets := [3, 6], block := some 5 },
    { op := .ret, block := some 6 },
    { op := .jump, targets := [6], block := some 7 }]⟩

theorem ofFunc_describes_crossed : Solid crossed ∧ (ofFunc crossed).Describes crossed ∧
    [1, 2, 3, 4, 5, 6, 7].map (ofFunc crossed).idom? = [none, some 1, some 1, some 3, some 1,
      some 5, none] ∧
    [1, 2, 3, 4, 5, 6, 7].map (ofFunc crossed).children = [[2, 3, 5], [], [4], [], [6], [], []] :=
  have hs : Solid crossed := by unfold Solid; decide
  ⟨hs, ofFunc_describes hs, by decide +kernel, by decide +kernel⟩

end CodeMotion.DomTree
