import Mathlib
import CodeMotion.Proofs.Computations

/-! Copies are made in front of merges only: where one is needed on an edge, control can come to the
target of the edge in another way too. So no copy has to go to the start of a block. It goes into
the block that splits its edge, or to the end of the source if that leads nowhere else. -/

namespace CodeMotion

open Motion (State)

namespace Context

variable {fn : Func} {o : Options} {c : Context} {s : Sets}

theorem Answers.drafted (ha : Answers fn o c s) (h0 : ∀ x < c.edges.size, (c.edge x).target ≠ 0)
    (hp : ∀ b ∈ fn.layout, ∀ a, a ∈ (fn.block b).preds ↔ a ∈ fn.layout ∧ b ∈ fn.succs a) :
    Plan.Drafted ⟨fn, c, s⟩ := by
  obtain ⟨c₀, -, hsolved, hdecided⟩ := ha.solved
  obtain ⟨-, -, -, hsets⟩ := ha
  exact ⟨⟨c₀, hsolved⟩, hdecided, hsets, hp, fun {x} hx => h0 x hx⟩

end Context

/-- A block takes the copies of an edge: it was made to split the edge, or it is the source, has no
other successor, and the edge is not split. -/
def Motion.State.Takes (fn : Func) (c : Context) (st : State) (x : Nat) (b : BlockId) : Prop :=
  (st.context.edge x).split = some b ∧ fn.hasBlock b = false ∨
    (st.context.edge x).split = none ∧ b = (c.node (c.edge x).source).block ∧
      fn.succs b = [(c.node (c.edge x).target).block]

/-- The block that the plan names for a copy takes it. -/
theorem Plan.Drafted.takes_place {p : Plan} {st : State} (h : p.Drafted)
    (hi : p.Inserted p.copies p.cuts st) {q : Nat × Nat} (hq : q ∈ p.copies) :
    st.Takes p.func p.context q.1 (p.place q.1) := by
  obtain ⟨hx, he⟩ := Plan.mem_copies.1 hq
  have hsplit := congrArg Edge.split (hi.edge q.1)
  unfold Plan.place
  by_cases hc : p.isCut q.1 = true
  · rw [if_pos (Plan.mem_cuts.2 ⟨hx, hc⟩)] at hsplit
    rw [if_pos hc]
    refine Or.inl ⟨hsplit, Bool.eq_false_iff.2 fun hb => ?_⟩
    exact absurd (Func.hasBlock_iff.1 hb).2 (Nat.not_le_of_lt (p.lt_splitId q.1))
  · rw [if_neg fun hm => hc (Plan.mem_cuts.1 hm).2] at hsplit
    rw [if_neg hc]
    exact Or.inr ⟨hsplit, rfl, h.succs_source hx he (Bool.eq_false_iff.2 hc)⟩

namespace Context

variable {fn : Func} {o : Options} {c : Context} {s : Sets}

/-- If no edge leads to the entry, an edge with a copy ends where control comes from several nodes.
If the lists of predecessors are exact too, the motion puts every copy at the end of a block that
takes it, and then only rewires, deletes and attaches. -/
theorem insertions_at_merges (ha : Answers fn o c s)
    (h0 : ∀ x < c.edges.size, (c.edge x).target ≠ 0) :
    (∀ x < c.edges.size, (s.insert.of x).isEmpty = false → ∃ y < c.edges.size, ∃ z < c.edges.size,
      (c.edge y).target = (c.edge x).target ∧ (c.edge z).target = (c.edge x).target ∧
      (c.edge y).source ≠ (c.edge z).source ∧ c.Reach (c.edge y).source ∧
        c.Reach (c.edge z).source) ∧
    ((∀ b ∈ fn.layout, ∀ a, a ∈ (fn.block b).preds ↔ a ∈ fn.layout ∧ b ∈ fn.succs a) →
      ∃ (p : Plan) (st : State), p = ⟨fn, c, s⟩ ∧
        st = State.insertAll s { func := fn, context := c } ∧
        State.run { func := fn, context := c } =
          (do State.rewireAll; State.deleteAll s; State.spliceAll) st ∧
        st.clones = p.copies.map (fun q => (q.2, p.copyId q)) ∧
        (∀ b, (st.func.block b).body = (fn.block b).body ++ (p.copies.filter fun q => p.place q.1 ==
          b).map p.copyId) ∧
        ∀ q ∈ p.copies, st.Takes fn c q.1 (p.place q.1)) := by
  obtain ⟨c₀, -, hs, hd⟩ := ha.solved
  refine ⟨fun x hx hne => ?_, fun hp => ?_⟩
  · obtain ⟨e, he⟩ : ∃ e, e ∈ s.insert.of x := by
      rw [Bool.eq_false_iff, ne_eq, BitSet.isEmpty_iff] at hne
      push Not at hne
      exact hne
    have hon := ((hd.insert_iff x hx e).1 he).1
    obtain ⟨y, hy, ht, hyx, hr⟩ := hs.exists_other hx (h0 x hx) hon
    refine ⟨y, hy, x, hx, ht, rfl, fun hsource => hyx ?_, hr, ((hs.mem_insertOn hx).1 hon).1⟩
    exact (hs.charts (hs.enclosed h0)).edge_inj hy hx hsource ht
  · have hplan := ha.drafted h0 hp
    have hi := Plan.Inserted.insertAll hplan
    refine ⟨_, _, rfl, rfl, ?_, hi.clones, hi.body, fun q hq => hplan.takes_place hi hq⟩
    unfold State.run
    rw [Change.get_bind, sized_of_sets hplan.given, Change.check_bind, Change.modify_bind]

/-- The edge around the first store ends at a merge, and its copy goes into a new block. -/
theorem insertions_at_merges_partly : ∃ c s,
    Answers Workspace.partly { singleInsertion := false } c s ∧
      (∀ x < c.edges.size, (c.edge x).target ≠ 0) ∧
    (∀ b ∈ Workspace.partly.layout, ∀ a, a ∈ (Workspace.partly.block b).preds ↔
      a ∈ Workspace.partly.layout ∧ b ∈ Workspace.partly.succs a) ∧
    (∃ y < c.edges.size, ∃ z < c.edges.size, (c.edge y).target = (c.edge 1).target ∧
      (c.edge z).target = (c.edge 1).target ∧
      (c.edge y).source ≠ (c.edge z).source ∧ c.Reach (c.edge y).source ∧
        c.Reach (c.edge z).source) ∧
    ∃ p st, p = Plan.mk Workspace.partly c s ∧ (1, 0) ∈ p.copies ∧
      st = State.insertAll s { func := Workspace.partly, context := c } ∧
      State.Takes Workspace.partly c st 1 (p.place 1) := by
  have hb : Workspace.partly.Assembled := by decide +kernel
  obtain ⟨c, s, ha, hc⟩ := answers_of_answer? Workspace.partly { singleInsertion := false }
    (fun r => decide (1 < r.1.edges.size ∧ 0 ∈ r.2.insert.of 1 ∧
      ∀ x < r.1.edges.size, (r.1.edge x).target ≠ 0)) (by decide +kernel)
  obtain ⟨h1, hins, h0⟩ := of_decide_eq_true hc
  have hne : (s.insert.of 1).isEmpty = false := by
    rw [Bool.eq_false_iff, ne_eq, BitSet.isEmpty_iff]
    exact fun hall => hall 0 hins
  obtain ⟨hmerge, hplace⟩ := insertions_at_merges ha h0
  obtain ⟨p, st, hp, hst, -, -, -, htakes⟩ := hplace hb.preds
  have hq : (1, 0) ∈ p.copies := by
    rw [hp]
    exact Plan.mem_copies.2 ⟨h1, hins⟩
  exact ⟨c, s, ha, h0, hb.preds, hmerge 1 h1 hne, p, st, hp, hq, hst, htakes _ hq⟩

end Context
end CodeMotion
