import Mathlib
import CodeMotion.Proofs.Plan

/-! What a function is after all copies of a plan have been inserted: its blocks end with the copies
that were placed there, and nothing else of it has changed. -/

namespace CodeMotion.Plan

open Motion (State)

variable (p : Plan)

def copyInstr (q : Nat × Nat) : Instr :=
  { p.func.instr (p.origin q.2) with block := some (p.place q.1) }

def placed (done : List (Nat × Nat)) (b : BlockId) : List InstrId :=
  (done.filter fun q => p.place q.1 == b).map p.copyId

/-- A motion that has made the copies `done` and has split the edges `cut`. -/
structure Inserted (done : List (Nat × Nat)) (cut : List Nat) (st : State) : Prop where
  name : st.func.name = p.func.name
  isExternal : st.func.isExternal = p.func.isExternal
  layout : st.func.layout = p.func.layout
  instrs_size : st.func.instrs.size = p.func.instrs.size + done.length
  blocks_size : st.func.blocks.size = p.func.blocks.size + cut.length
  old : ∀ i ≤ p.func.instrs.size, st.func.instr i = p.func.instr i
  copy : ∀ q ∈ done, st.func.instr (p.copyId q) = p.copyInstr q
  phis : ∀ b, (st.func.block b).phis = (p.func.block b).phis
  body : ∀ b, (st.func.block b).body = (p.func.block b).body ++ p.placed done b
  term : ∀ b, (st.func.block b).term = (p.func.block b).term
  preds : ∀ b, (st.func.block b).preds = (p.func.block b).preds
  clones : st.clones = done.map fun q => (q.2, p.copyId q)
  splits : st.splits = cut.map p.splitId
  nodes : st.context.nodes = p.context.nodes
  catalog : st.context.catalog = p.context.catalog
  sets : st.context.sets = p.context.sets
  log : st.context.log = p.context.log
  edges_size : st.context.edges.size = p.context.edges.size
  edge : ∀ x, st.context.edge x =
    { p.context.edge x with split := if x ∈ cut then some (p.splitId x) else none }
  motion : st.done = { inserted := done.length }
  cut_known : cut <+: p.cuts
  made : ∀ q ∈ done, q ∈ p.copies ∧ (p.isCut q.1 = true → q.1 ∈ cut)

variable {p} {done : List (Nat × Nat)} {cut : List Nat} {st : State} {x e : Nat} {b : BlockId}

theorem edge_modify (c : Context) (f : Edge → Edge) (y : Nat) :
    { c with edges := c.edges.modify x f }.edge y = if x = y ∧ y < c.edges.size then f (c.edge y)
      else c.edge y := by
  by_cases hy : y < c.edges.size
  · simp [Context.edge, Array.getD, hy, Array.getElem_modify]
  · simp [Context.edge, Array.getD, hy]

theorem placed_append (done : List (Nat × Nat)) (q : Nat × Nat) (b : BlockId) :
    p.placed (done ++ [q]) b = p.placed done b ++ if p.place q.1 = b then [p.copyId q] else [] := by
  unfold placed
  rw [List.filter_append, List.map_append]
  by_cases h : p.place q.1 = b <;> simp [h]

theorem nodup_placed (p : Plan) (b : BlockId) : (p.placed p.copies b).Nodup :=
  List.Nodup.map_on (fun _ hq _ _ he => copyId_inj (List.mem_of_mem_filter hq) he)
    (p.nodup_copies.filter _)

theorem idxOf_next {α : Type} [BEq α] [LawfulBEq α] {l done : List α} {a : α} (hl : l.Nodup)
    (h : done ++ [a] <+: l) : l.idxOf a = done.length := by
  obtain ⟨t, rfl⟩ := h
  rw [List.append_assoc] at hl ⊢
  have : a ∉ done := fun ha => (List.nodup_append.1 hl).2.2 a ha a (by simp) rfl
  rw [List.idxOf_append_of_notMem this]
  simp

namespace Inserted

theorem hasBlock (hi : p.Inserted done cut st) (hb : p.func.hasBlock b = true) :
    st.func.hasBlock b = true := by
  rw [Func.hasBlock_iff] at hb ⊢
  rw [hi.blocks_size]
  omega

/-- On an edge that is still to be split there are no copies. -/
theorem placed_splitId (h : p.Drafted) (hi : p.Inserted done cut st) (hx : x ∈ p.cuts)
    (hcut : x ∉ cut) : p.placed done (p.splitId x) = [] := by
  unfold placed
  rw [List.map_eq_nil_iff, List.filter_eq_nil_iff]
  intro q hq hplace
  rw [beq_iff_eq] at hplace
  have hqx := h.place_eq_splitId hx (mem_copies.1 (hi.made q hq).1).1 hplace
  exact hcut (hqx ▸ (hi.made q hq).2 (hqx ▸ (mem_cuts.1 hx).2))

/-- An edge is split when its turn comes, before any copy is placed on it. -/
theorem splitEdge (h : p.Drafted) (hi : p.Inserted done cut st) (hc : cut ++ [x] <+: p.cuts) :
    p.Inserted done (cut ++ [x]) (st.splitEdge x) := by
  have hid : p.splitId x = st.func.blocks.size + 1 := by
    rw [splitId, idxOf_next p.nodup_cuts hc, hi.blocks_size]
    ring
  have hx : x ∈ p.cuts := hc.subset (by simp)
  have hxcut : x ∉ cut := fun hx => by
    have := (hc.sublist.nodup p.nodup_cuts)
    rw [List.nodup_append] at this
    exact this.2.2 x hx x (by simp) rfl
  have hblock : ∀ b, (st.splitEdge x).func.block b =
      if b = p.splitId x then { name := st.context.options.splitName ++ toString st.splits.length }
        else st.func.block b := by
    intro b
    rw [hid]
    exact Func.block_newBlock _
  have hnone := p.block_splitId x
  have hcases : ∀ b, b = p.splitId x ∨ (st.splitEdge x).func.block b = st.func.block b := by
    intro b
    by_cases hb : b = p.splitId x
    · exact Or.inl hb
    · exact Or.inr (by rw [hblock, if_neg hb])
  refine ⟨hi.name, hi.isExternal, hi.layout, hi.instrs_size, ?_, hi.old, hi.copy, ?_, ?_, ?_, ?_,
    hi.clones, ?_, hi.nodes, hi.catalog, hi.sets, hi.log, ?_, ?_, hi.motion, hc, ?_⟩
  · show (st.func.blocks.push _).size = _
    rw [Table.size_push, hi.blocks_size, List.length_append]
    rfl
  · intro b
    rcases hcases b with rfl | hb
    · rw [hblock, if_pos rfl, hnone]
    · rw [hb, hi.phis]
  · intro b
    rcases hcases b with rfl | hb
    · rw [hblock, if_pos rfl, hnone, hi.placed_splitId h hx hxcut]
      rfl
    · rw [hb, hi.body]
  · intro b
    rcases hcases b with rfl | hb
    · rw [hblock, if_pos rfl, hnone]
    · rw [hb, hi.term]
  · intro b
    rcases hcases b with rfl | hb
    · rw [hblock, if_pos rfl, hnone]
    · rw [hb, hi.preds]
  · show st.splits ++ [st.func.blocks.size + 1] = _
    rw [hi.splits, List.map_append, ← hid]
    rfl
  · show (st.context.edges.modify _ _).size = _
    rw [Array.size_modify, hi.edges_size]
  · intro y
    have : (st.splitEdge x).context.edge y = if x = y ∧ y < st.context.edges.size then
        { st.context.edge y with split := some (p.splitId x) } else st.context.edge y := by
      rw [hid]
      exact edge_modify _ _ y
    rw [this, hi.edge, hi.edges_size]
    by_cases hxy : x = y
    · subst hxy
      simp [(mem_cuts.1 hx).1]
    · have hiff : y ∈ cut ++ [x] ↔ y ∈ cut := by simp [Ne.symm hxy]
      rw [if_neg fun hh => hxy hh.1, if_congr hiff rfl rfl]
  · intro q hq
    exact ⟨(hi.made q hq).1, fun hcut => List.mem_append_left _ ((hi.made q hq).2 hcut)⟩

theorem hasBlock_place (h : p.Drafted) (hi : p.Inserted done cut st) (hx : x < p.context.edges.size)
    (hcut : p.isCut x = true ↔ x ∈ cut) : st.func.hasBlock (p.place x) = true := by
  unfold place
  split
  · next hc =>
    have hxc := hcut.1 hc
    have hlt := List.idxOf_lt_length_of_mem hxc
    obtain ⟨t, ht⟩ := hi.cut_known
    rw [Func.hasBlock_iff, hi.blocks_size]
    show 0 < p.func.blocks.size + 1 + p.cuts.idxOf x ∧ p.func.blocks.size + 1 + p.cuts.idxOf x ≤ _
    rw [← ht, List.idxOf_append_of_mem hxc]
    omega
  · exact hi.hasBlock (h.hasBlock (h.source_mem hx))

/-- A copy goes to the end of the block that the plan names. -/
theorem placeCopy_eq (h : p.Drafted) (hi : p.Inserted done cut st) (hx : x < p.context.edges.size)
    (he : e ∈ p.sets.insert.of x) (hcut : p.isCut x = true ↔ x ∈ cut) (n : Nat) (i j : InstrId) :
    State.placeCopy (st.func.clone j).2 (st.context.edge x).split (p.source x) (p.target x) n i =
      (st.func.clone j).2.append (p.place x) i := by
  rw [hi.edge]
  unfold place
  by_cases hc : p.isCut x = true
  · rw [if_pos hc, if_pos (hcut.1 hc)]
    rfl
  · rw [if_neg hc, if_neg fun hx => hc (hcut.2 hx)]
    have htargets : (st.func.clone j).2.targets (p.source x) = p.func.targets (p.source x) := by
      refine Func.targets_congr (hi.term _) fun t ht => ?_
      have hle := h.term_le hx t ht
      have hne : t ≠ st.func.instrs.size + 1 := by
        rw [hi.instrs_size]
        exact Nat.ne_of_lt (Nat.lt_succ_of_le (hle.trans (Nat.le_add_right _ _)))
      rw [Func.instr_clone, if_neg hne, hi.old t hle]
    have hsucc : (st.func.clone j).2.singleSucc? (p.source x) = some (p.target x) := by
      have hhas : (st.func.clone j).2.hasBlock (p.target x) = true :=
        hi.hasBlock (h.hasBlock (h.target_mem hx))
      unfold Func.singleSucc? Func.succs
      rw [htargets]
      have := h.succs_source hx he (Bool.eq_false_iff.2 hc)
      unfold Func.succs at this
      rw [this, Func.only?, Option.filter_some, hhas, if_pos rfl]
    unfold State.placeCopy
    rw [hsucc]

section Copy

variable (h : p.Drafted) (hi : p.Inserted done cut st) (hnext : done ++ [(x, e)] <+: p.copies)

include hnext in
theorem mem_next : x < p.context.edges.size ∧ e ∈ p.sets.insert.of x :=
  mem_copies.1 (hnext.subset (by simp : (x, e) ∈ done ++ [(x, e)]))

include hi hnext in
theorem copyId_next : p.copyId (x, e) = st.func.instrs.size + 1 := by
  rw [copyId, idxOf_next p.nodup_copies hnext, hi.instrs_size]
  ring

variable (hcut : p.isCut x = true ↔ x ∈ cut) (n : Nat)
include h hi hnext hcut

/-- What the state is after one more copy. -/
theorem insertCopy_eq : st.insertCopy x (e, n) = { st with
    func := (st.func.clone (p.origin e)).2.append (p.place x) (p.copyId (x, e))
    clones := st.clones ++ [(e, p.copyId (x, e))]
    done := { st.done with inserted := st.done.inserted + 1 } } := by
  obtain ⟨hx, he⟩ := mem_next hnext
  obtain ⟨m, hm, horigin⟩ := h.exists_entry he hx
  have hnode : ∀ k, (st.context.node k).block = p.blockAt k := fun k => by
    unfold Context.node blockAt Context.node
    rw [hi.nodes]
  have hsource : (st.context.edge x).source = (p.context.edge x).source := by rw [hi.edge]
  have htarget : (st.context.edge x).target = (p.context.edge x).target := by rw [hi.edge]
  have hclone : (st.func.clone m.instr).1 = p.copyId (x, e) := (hi.copyId_next hnext).symm
  have hplace := hi.placeCopy_eq h hx he hcut n (p.copyId (x, e)) m.instr
  unfold State.insertCopy
  rw [hi.catalog, horigin]
  simp only [hm, hnode, hsource, htarget, hclone]
  rw [← hplace]
  rfl

theorem instr_insertCopy (j : InstrId) : (st.insertCopy x (e, n)).func.instr j =
    if j = p.copyId (x, e) then p.copyInstr (x, e) else st.func.instr j := by
  obtain ⟨hx, he⟩ := mem_next hnext
  have hid := hi.copyId_next hnext
  have hle := h.origin_le hx he
  have hhas : (st.func.clone (p.origin e)).2.hasInstr (p.copyId (x, e)) = true := by
    rw [hid]
    refine Func.hasInstr_iff.2 ⟨Nat.succ_pos _, ?_⟩
    exact Nat.le_of_eq (Table.size_push _ _).symm
  rw [hi.insertCopy_eq h hnext hcut, Func.instr_append, Func.instr_clone, ← hid]
  by_cases hj : j = p.copyId (x, e)
  · subst hj
    rw [if_pos ⟨rfl, hhas⟩, if_pos rfl, if_pos rfl, hi.old _ hle, copyInstr]
  · rw [if_neg fun hh => hj hh.1.symm, if_neg hj, if_neg hj]

theorem block_insertCopy (b : BlockId) :
    (st.insertCopy x (e, n)).func.block b = if p.place x = b then
    { st.func.block b with body := (st.func.block b).body ++ [p.copyId (x, e)] }
      else st.func.block b := by
  rw [hi.insertCopy_eq h hnext hcut]
  exact Func.block_append (hi.hasBlock_place h (mem_next hnext).1 hcut)

/-- One copy is made and put at the end of its block. -/
theorem insertCopy : p.Inserted (done ++ [(x, e)]) cut (st.insertCopy x (e, n)) := by
  have hstep := hi.insertCopy_eq h hnext hcut n
  have hinstr := hi.instr_insertCopy h hnext hcut n
  have hblock := hi.block_insertCopy h hnext hcut n
  refine ⟨?_, ?_, ?_, ?_, ?_, ?_, ?_, ?_, ?_, ?_, ?_, ?_, ?_, ?_, ?_, ?_, ?_, ?_, ?_, ?_,
    hi.cut_known, ?_⟩
  · rw [hstep, ← hi.name]
    rfl
  · rw [hstep, ← hi.isExternal]
    rfl
  · rw [hstep, ← hi.layout]
    rfl
  · rw [hstep]
    show ((st.func.instrs.push _).modify _ _).size = _
    rw [Table.size_modify, Table.size_push, hi.instrs_size, List.length_append]
    rfl
  · rw [hstep]
    show (st.func.blocks.modify _ _).size = _
    rw [Table.size_modify, hi.blocks_size]
  · intro j hj
    have hne : j ≠ p.copyId (x, e) :=
      fun hh => absurd (p.lt_copyId (x, e)) (Nat.not_lt_of_le (hh ▸ hj))
    rw [hinstr, if_neg hne, hi.old j hj]
  · intro r hr
    rw [hinstr]
    by_cases hrq : r = (x, e)
    · rw [if_pos (by rw [hrq]), hrq]
    · have hr' : r ∈ done := by simpa [hrq] using hr
      rw [if_neg fun hh => hrq (copyId_inj (hi.made r hr').1 hh), hi.copy r hr']
  · intro b
    rw [hblock, ← hi.phis b]
    split <;> rfl
  · intro b
    rw [hblock, placed_append, ← List.append_assoc, ← hi.body b]
    split <;> simp
  · intro b
    rw [hblock, ← hi.term b]
    split <;> rfl
  · intro b
    rw [hblock, ← hi.preds b]
    split <;> rfl
  · rw [hstep, List.map_append, ← hi.clones]
    rfl
  · rw [hstep, ← hi.splits]
  · rw [hstep, ← hi.nodes]
  · rw [hstep, ← hi.catalog]
  · rw [hstep, ← hi.sets]
  · rw [hstep, ← hi.log]
  · rw [hstep, ← hi.edges_size]
  · rw [hstep]
    exact hi.edge
  · rw [hstep, hi.motion, List.length_append]
    rfl
  · intro r hr
    rcases List.mem_append.1 hr with hr | hr
    · exact hi.made r hr
    · rw [List.mem_singleton.1 hr]
      exact ⟨hnext.subset (by simp), hcut.1⟩

end Copy

/-- The copies of one edge are made in their order. -/
theorem foldl_insertCopy (h : p.Drafted) (hcut : p.isCut x = true ↔ x ∈ cut) (l : List Nat) :
    ∀ (done : List (Nat × Nat)) (st : State) (n : Nat),
    p.Inserted done cut st → done ++ l.map (x, ·) <+: p.copies →
      p.Inserted (done ++ l.map (x, ·)) cut ((l.zipIdx n).foldl (State.insertCopy x) st) := by
  induction l with
  | nil =>
    intro done st n hi _
    simpa using hi
  | cons e t ih =>
    intro done st n hi hpre
    have hsplit : done ++ (e :: t).map (x, ·) = done ++ [(x, e)] ++ t.map (x, ·) := by simp
    rw [hsplit] at hpre ⊢
    rw [List.zipIdx_cons, List.foldl_cons]
    exact ih _ _ _ (hi.insertCopy h ((List.prefix_append _ _).trans hpre) hcut n) hpre

theorem isCritical_eq (h : p.Drafted) (hi : p.Inserted done cut st)
    (hx : x < p.context.edges.size) :
    State.isCritical st.func (p.source x) (p.target x) = State.isCritical p.func (p.source x)
      (p.target x) := by
  have hsuccs := h.hasBlock_succ hx
  have hpreds := h.hasBlock_pred hx
  have htargets : st.func.targets (p.source x) = p.func.targets (p.source x) := by
    refine Func.targets_congr (hi.term _) fun t ht => ?_
    rw [hi.old t (h.term_le hx t ht)]
  have hsucc : st.func.singleSucc? (p.source x) = p.func.singleSucc? (p.source x) := by
    have heq : st.func.succs (p.source x) = p.func.succs (p.source x) := by
      unfold Func.succs
      rw [htargets]
    unfold Func.singleSucc?
    rw [heq, Func.filter_only? fun a ha => hi.hasBlock (hsuccs a ha), Func.filter_only? hsuccs]
  have hpred : st.func.singlePred? (p.target x) = p.func.singlePred? (p.target x) := by
    unfold Func.singlePred?
    rw [hi.preds, Func.filter_only? fun a ha => hi.hasBlock (hpreds a ha), Func.filter_only? hpreds]
  unfold State.isCritical
  rw [hsucc, hpred]

theorem range_initial {m n : Nat} (h : m ≤ n) : List.range m <+: List.range n := by
  obtain ⟨d, rfl⟩ := Nat.exists_eq_add_of_le h
  rw [List.range_add]
  exact List.prefix_append _ _

/-- The turn of one edge. -/
theorem insertEdge (h : p.Drafted) (hx : x < p.context.edges.size)
    (hi : p.Inserted ((List.range x).flatMap p.copiesOn) ((List.range x).filter p.isCut) st) :
    p.Inserted ((List.range (x + 1)).flatMap p.copiesOn) ((List.range (x + 1)).filter p.isCut)
      (st.insertEdge x (p.sets.insert.of x)) := by
  have hcopies : (List.range (x + 1)).flatMap p.copiesOn = (List.range x).flatMap p.copiesOn ++
      p.copiesOn x := by
    simp [List.range_succ]
  have hcuts : (List.range (x + 1)).filter p.isCut = (List.range x).filter p.isCut ++ if p.isCut x
      then [x] else [] := by
    rw [List.range_succ, List.filter_append]
    cases hc : p.isCut x <;> simp [hc]
  have hprefix : (List.range (x + 1)).flatMap p.copiesOn <+: p.copies :=
    (range_initial hx).flatMap _
  have hprefix' : (List.range (x + 1)).filter p.isCut <+: p.cuts := (range_initial hx).filter _
  rw [hcopies] at hprefix ⊢
  unfold State.insertEdge
  cases hempty : (p.sets.insert.of x).isEmpty with
  | true =>
    have hnone : p.copiesOn x = [] := List.eq_nil_iff_forall_not_mem.2 fun q hq =>
      (BitSet.isEmpty_iff.1 hempty) q.2 (mem_copiesOn.1 hq).2
    have hcut : p.isCut x = false := by
      unfold isCut
      rw [hempty]
      rfl
    rw [hcuts, hcut, hnone]
    simpa using hi
  | false =>
    have hcut : State.isCritical st.func (p.source x) (p.target x) = p.isCut x := by
      rw [hi.isCritical_eq h hx]
      unfold isCut
      rw [hempty]
      rfl
    have hblocks : (st.context.node (st.context.edge x).source).block = p.source x ∧
        (st.context.node (st.context.edge x).target).block = p.target x := by
      rw [hi.edge]
      unfold Context.node
      rw [hi.nodes]
      exact ⟨rfl, rfl⟩
    have hopen : p.Inserted ((List.range x).flatMap p.copiesOn)
      ((List.range (x + 1)).filter p.isCut)
        (if p.isCut x then st.splitEdge x else st) := by
      rw [hcuts] at hprefix' ⊢
      cases hc : p.isCut x with
      | true =>
        rw [hc, if_pos rfl] at hprefix'
        exact hi.splitEdge h hprefix'
      | false => simpa using hi
    rw [if_neg Bool.false_ne_true]
    have hstart : (if State.isCritical st.func (st.context.node (st.context.edge x).source).block
        (st.context.node (st.context.edge x).target).block then st.splitEdge x else st) =
          if p.isCut x then st.splitEdge x else st := by
      rw [hblocks.1, hblocks.2, hcut]
    show p.Inserted _ _ ((p.sets.insert.of x).toList.zipIdx.foldl (State.insertCopy x) _)
    rw [hstart]
    refine foldl_insertCopy h ?_ _ _ _ _ hopen hprefix
    simp

/-- All copies are made, and all critical edges that get one are split. -/
theorem insertAll (h : p.Drafted) :
    p.Inserted p.copies p.cuts
      (State.insertAll p.sets { func := p.func, context := p.context }) := by
  have hall : ∀ n ≤ p.context.edges.size, p.Inserted ((List.range n).flatMap p.copiesOn)
      ((List.range n).filter p.isCut)
      ((List.range n).foldl (fun st x => st.insertEdge x (p.sets.insert.of x))
        { func := p.func, context := p.context }) := by
    intro n hn
    induction n with
    | zero =>
      refine ⟨rfl, rfl, rfl, rfl, rfl, fun _ _ => rfl, by simp, fun _ => rfl, ?_, fun _ => rfl,
        fun _ => rfl, rfl, rfl, rfl, rfl, rfl, rfl, rfl, ?_, rfl, List.nil_prefix, by simp⟩
      · intro b
        simp [placed]
      · intro x
        have := h.split_eq_none x
        cases hx : p.context.edge x
        simp_all
    | succ n ih =>
      rw [List.range_succ, List.foldl_append, ← List.range_succ]
      exact (ih (by omega)).insertEdge h (by omega)
  exact hall _ le_rfl

end Inserted
end CodeMotion.Plan
