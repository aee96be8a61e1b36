import Mathlib
import CodeMotion.Proofs.FinishOrder
import CodeMotion.Proofs.Keys
import CodeMotion.Proofs.LocalSets
import CodeMotion.Proofs.SingleCopy

/-! The expressions of a function are numbered by their first occurrence in reverse post-order, and
there every definition comes before its uses. So an operand has a smaller number than what it is
used for, and of the copies on one edge, which are made in the order of their numbers, each finds
its operands among those before it. -/

namespace CodeMotion

theorem lt_of_getElem?_eraseDups {α : Type} [DecidableEq α] {l r : List α} {x y : α} {u v : Nat}
    (hy : y ∈ l) (hx : x ∉ l) (hu : (l ++ r).eraseDups[u]? = some y)
    (hv : (l ++ r).eraseDups[v]? = some x) : u < v := by
  obtain ⟨w, hw⟩ := List.mem_iff_getElem?.1 (List.mem_eraseDups.2 hy)
  have hwlt : w < l.eraseDups.length := (List.getElem?_eq_some_iff.1 hw).1
  have hnodup := Func.nodup_eraseDups (l ++ r)
  have hlt := (List.getElem?_eq_some_iff.1 hu).1
  rw [List.eraseDups_append] at hu hv hnodup hlt
  have huw : u = w :=
    (List.getElem?_inj hlt hnodup).1 (by rw [hu, List.getElem?_append_left hwlt, hw])
  have hle : l.eraseDups.length ≤ v := by
    by_contra hvlt
    rw [List.getElem?_append_left (Nat.lt_of_not_le hvlt)] at hv
    exact hx (List.mem_eraseDups.1 (List.mem_of_getElem? hv))
  omega

namespace Func

variable {fn : Func} {cat : Catalog Value InstrId} {b : BlockId} {bs bs₁ bs₂ : List BlockId}
  {pre : List InstrId}
  {e u v : Nat} {f g i j : InstrId}

/-- Of some blocks, the first with an expression has a first occurrence of it. -/
theorem exists_firstAt_block (h : ∃ b ∈ bs, fn.Occurs cat (fn.block b).body e) :
    ∃ bs₁ b bs₂ pre i, bs = bs₁ ++ b :: bs₂ ∧
    fn.FirstAt cat (fn.block b).body e pre i ∧ ∀ a ∈ bs₁, ¬ fn.Occurs cat (fn.block a).body e := by
  induction bs with
  | nil => simp at h
  | cons a t ih =>
    by_cases ha : fn.Occurs cat (fn.block a).body e
    · obtain ⟨pre, i, hi⟩ := ha.exists_firstAt
      exact ⟨[], a, t, pre, i, rfl, hi, by simp⟩
    · obtain ⟨b, hb, hocc⟩ := h
      have hbt := (List.mem_cons.1 hb).resolve_left fun he => ha (he ▸ hocc)
      obtain ⟨bs₁, b', bs₂, pre, i, rfl, hi, hno⟩ := ih ⟨b, hbt, hocc⟩
      exact ⟨a :: bs₁, b', bs₂, pre, i, rfl, hi, List.forall_mem_cons.2 ⟨ha, hno⟩⟩

/-- What occurs before the first occurrence of an expression has a smaller number. -/
theorem Cataloged.lt_of_firstAt (hc : fn.Cataloged cat)
    (hbs : fn.reversePostOrder = bs₁ ++ b :: bs₂) (hi : fn.FirstAt cat (fn.block b).body v pre i)
    (hno : ∀ a ∈ bs₁, ¬ fn.Occurs cat (fn.block a).body v)
    (hf : (∃ a ∈ bs₁, f ∈ (fn.block a).body) ∨ f ∈ pre) (hu : fn.exprAt cat f = some u) :
    u < v := by
  obtain ⟨post, hbody, hiv, hpre⟩ := hi
  obtain ⟨y, hy, hyu⟩ := hc.lawful.exprAt_iff_key.1 hu
  obtain ⟨x, hx, hxv⟩ := hc.lawful.exprAt_iff_key.1 hiv
  have hkeys : fn.keysIn fn.visited = (fn.keysIn bs₁ ++ pre.filterMap fn.key?) ++
      ((i :: post).filterMap fn.key? ++ fn.keysIn (bs₂ ++ fn.layout.filter (· ∉ fn.preOrder))) := by
    rw [visited, hbs]
    simp [keysIn, hbody, hx]
  rw [hc.keys, hkeys] at hyu hxv
  refine lt_of_getElem?_eraseDups ?_ ?_ hyu hxv
  · rcases hf with ⟨a, ha, hf⟩ | hf
    · exact List.mem_append_left _ (mem_keysIn.2 ⟨a, ha, f, hf, hy⟩)
    · exact List.mem_append_right _ (List.mem_filterMap.2 ⟨f, hf, hy⟩)
  · have hnum : ∀ j, fn.key? j = some x → fn.exprAt cat j = some v := fun j hj =>
      hc.lawful.exprAt_iff_key.2 ⟨x, hj, by rw [hc.keys, hkeys, hxv]⟩
    intro hmem
    rcases List.mem_append.1 hmem with hmem | hmem
    · obtain ⟨a, ha, j, hj, hjx⟩ := mem_keysIn.1 hmem
      exact hno a ha ⟨j, hj, hnum j hjx⟩
    · obtain ⟨j, hj, hjx⟩ := List.mem_filterMap.1 hmem
      exact hpre j hj (hnum j hjx)

theorem Cataloged.exists_exprAt (hc : fn.Cataloged cat) (he : fn.Enclosed) (hb : b ∈ fn.layout)
    (hi : i ∈ (fn.block b).body) (hm : (fn.instr i).op.isMovable = true) :
    ∃ e, fn.exprAt cat i = some e := by
  obtain ⟨x, hx⟩ := hc.movable b hb i hi hm
  have hmem : x ∈ cat.keys fn.reader := by
    rw [hc.keys, List.mem_eraseDups, mem_keysIn]
    exact ⟨b, he.mem_visited.2 hb, i, hi, hx⟩
  obtain ⟨e, he⟩ := List.mem_iff_getElem?.1 hmem
  exact ⟨e, hc.lawful.exprAt_iff_key.2 ⟨x, hx, he⟩⟩

/-- Instructions of one number have the same operands, the address of a store included. -/
theorem Built.args_of_exprAt (h : fn.Built) (hc : cat.Lawful fn) {a : BlockId} (ha : a ∈ fn.layout)
    (hb : b ∈ fn.layout) (hi : i ∈ (fn.block a).body) (hj : j ∈ (fn.block b).body)
    (hie : fn.exprAt cat i = some e) (hje : fn.exprAt cat j = some e) :
    (fn.instr i).args = (fn.instr j).args := by
  obtain ⟨n, hn, hxi⟩ := Catalog.exprAt_entry hie
  have hxj := ((hc.exprAt_iff_entry hn).1 hje).2
  have hop : fn.reader.op i = fn.reader.op j :=
    (Reader.expression_op hxi).symm.trans (Reader.expression_op hxj)
  by_cases hs : fn.reader.op i = .store
  · have hs' : fn.reader.op j = .store := hop.symm.trans hs
    obtain ⟨v, hv, hargs⟩ :=
      args_of_store hxi hs (h.arity a ha i (mem_listed_of_body hi) 2
        (Option.mem_def.2 (congrArg _ hs)))
    obtain ⟨w, hw, hargs'⟩ :=
      args_of_store hxj hs' (h.arity b hb j (mem_listed_of_body hj) 2
        (Option.mem_def.2 (congrArg _ hs')))
    rw [hv, List.cons.injEq] at hw
    rw [hargs, hargs', hw.1]
  · rw [Reader.expression_of_ne_store hs] at hxi
    rw [Reader.expression_of_ne_store fun hj => hs (hop.trans hj)] at hxj
    exact congrArg Expression.operands (Except.ok.inj (hxi.trans hxj.symm))

/-- A movable instruction stands in a body. -/
theorem Fitting.mem_body (h : fn.Fitting b) (hi : i ∈ fn.listed b)
    (hm : (fn.instr i).op.isMovable = true) : i ∈ (fn.block b).body := by
  rcases List.mem_append.1 hi with hi | hi
  · refine (List.mem_append.1 hi).resolve_left fun hi => ?_
    rw [(h.phis i hi).1] at hm
    cases hm
  · obtain ⟨t, ht, hterm⟩ := h.term
    rw [ht, Option.toList_some, List.mem_singleton] at hi
    rw [← hi] at hterm
    cases hop : (fn.instr i).op <;> simp [hop, Op.isMovable, Op.isTerminator] at hm hterm

theorem mem_of_precedes {d : BlockId} (hbs : fn.reversePostOrder = bs₁ ++ b :: bs₂)
    (h : fn.Precedes d b) : d ∈ bs₁ := by
  have hb : b ∉ bs₁ := by
    have hnodup := fn.nodup_reversePostOrder
    rw [hbs, List.nodup_append] at hnodup
    exact fun hm => hnodup.2.2 b hm b List.mem_cons_self rfl
  have hlt := idxOf_lt_of_precedes (by simp [hbs]) h
  by_contra hd
  rw [hbs, List.idxOf_append_of_notMem hd, List.idxOf_append_of_notMem hb, List.idxOf_cons_self]
    at hlt
  omega

def OperandsListed (fn : Func) : Prop :=
  ∀ b ∈ fn.layout, ∀ i ∈ fn.listed b, ∀ v ∈ (fn.instr i).args, ∀ d ∈ v.instr?,
  ∀ home ∈ fn.layout, (fn.instr d).block = some home → d ∈ fn.listed home

instance : Decidable fn.OperandsListed :=
  inferInstanceAs (Decidable (∀ b ∈ fn.layout, ∀ i ∈ fn.listed b, _))

/-- An operand has a smaller number than the instruction that takes it. -/
theorem Verified.exprAt_lt (h : fn.Verified) (hbuilt : fn.Built) (hlisted : fn.OperandsListed)
    (hc : fn.Cataloged cat) (hb : b ∈ fn.preOrder) (hg : g ∈ (fn.block b).body)
    (hgm : (fn.instr g).op.isMovable = true) (hfm : (fn.instr f).op.isMovable = true)
    (hf : .instr f ∈ (fn.instr g).args) :
    ∃ u v, fn.exprAt cat f = some u ∧ fn.exprAt cat g = some v ∧ u < v := by
  have hbl := h.attached hb
  obtain ⟨v, hv⟩ := hc.exists_exprAt hbuilt.enclosed hbl hg hgm
  obtain ⟨bs₁, b₀, bs₂, pre, i, hbs, hi, hno⟩ :=
    exists_firstAt_block ⟨b, mem_reversePostOrder.2 hb, g, hg, hv⟩
  have hb₀ : b₀ ∈ fn.reversePostOrder := by simp [hbs]
  have hl₀ := h.attached (mem_reversePostOrder.1 hb₀)
  obtain ⟨post, hbody, hiv, hpre⟩ := hi
  have hib : i ∈ (fn.block b₀).body := by simp [hbody]
  -- the first occurrence takes the same operands, so they are defined before it
  have hfi : .instr f ∈ (fn.instr i).args := by
    rwa [hbuilt.args_of_exprAt hc.lawful hl₀ hbl hib hg hiv hv]
  have hready :=
    (h.supplied _ (mem_reversePostOrder.1 hb₀)).uses i pre.length (by simp [hbody]) f hfi
  obtain ⟨home, hblock, hhome, hplace⟩ := ready_iff.1 hready
  have hfl := hlisted b₀ hl₀ i (mem_listed_of_body hib) _ hfi f rfl home hhome hblock
  have hfb := (h.fitting home hhome).mem_body hfl hfm
  obtain ⟨u, hu⟩ := hc.exists_exprAt hbuilt.enclosed hhome hfb hfm
  refine ⟨u, v, hu, hv, hc.lt_of_firstAt hbs ⟨post, hbody, hiv, hpre⟩ hno ?_ hu⟩
  by_cases heq : home = b₀
  · rw [if_pos heq, hbody, List.drop_left] at hplace
    rw [heq, hbody, List.mem_append] at hfb
    exact Or.inr (hfb.resolve_right hplace)
  · rw [if_neg heq] at hplace
    exact Or.inl ⟨home, mem_of_precedes hbs hplace, hfb⟩

theorem Verified.operand_le (h : fn.Verified) {d : Nat} (hb : b ∈ fn.preOrder)
    (hi : i ∈ (fn.block b).body) (hd : .instr d ∈ (fn.instr i).args) : d ≤ fn.instrs.size := by
  obtain ⟨n, hn⟩ := List.getElem?_of_mem hi
  obtain ⟨home, hblock, -⟩ := (h.supplied b hb).uses i n (place_of_body hn) d hd
  exact (hasInstr_iff.1 (hasInstr_of_block hblock)).2

end Func

namespace Plan

variable {p : Plan} {g : Func} {q r : Nat × Nat}

/-- The copies of one edge are made in the order of their numbers. -/
theorem pair_sublist_copies (hq : q ∈ p.copies) (hr : r ∈ p.copies) (he : q.1 = r.1)
    (hlt : q.2 < r.2) : [q, r].Sublist p.copies := by
  have hpw := p.pairwise_copies
  obtain ⟨l, l', hl⟩ := List.append_of_mem hr
  rw [hl] at hpw hq ⊢
  have hback := (List.pairwise_cons.1 (List.pairwise_append.1 hpw).2.1).1
  have hql : q ∈ l := by
    refine (List.mem_append.1 hq).resolve_right fun hq => ?_
    rcases List.mem_cons.1 hq with rfl | hq
    · exact absurd hlt (Nat.lt_irrefl _)
    · have := hback q hq
      omega
  exact (List.singleton_sublist.2 hql).append (List.singleton_sublist.2 List.mem_cons_self)

theorem Moved.copies_in_order (hm : p.Moved g) (h : p.Drafted) (hq : q ∈ p.copies)
    (hr : r ∈ p.copies) (he : q.1 = r.1) (hlt : q.2 < r.2) :
    [p.copyId q, p.copyId r].Sublist (g.block (p.place r.1)).body := by
  have hplaced : [q, r].Sublist (p.copies.filter fun s => p.place s.1 == p.place r.1) := by
    simpa [he] using (pair_sublist_copies hq hr he hlt).filter fun s => p.place s.1 == p.place r.1
  rw [hm.body _ (h.place_mem (mem_copies.1 hr).1)]
  exact (hplaced.map p.copyId).trans (List.sublist_append_right _ _)

/-- A copy takes copies of smaller numbers only. -/
theorem Moved.copy_operand_lt (hm : p.Moved g) (h : p.Feasible) (hv : p.func.Verified)
    (hbuilt : p.func.Built) (hlisted : p.func.OperandsListed)
    (hc : p.func.Cataloged p.context.catalog) (hq : q ∈ p.copies) (hr : r ∈ p.copies)
    (hu : .instr (p.copyId q) ∈ (g.instr (p.copyId r)).args) : q.2 < r.2 := by
  have horigin : ∀ {s}, s ∈ p.copies → ∃ b ∈ p.func.layout, p.origin s.2 ∈ (p.func.block b).body ∧
      p.func.exprAt p.context.catalog (p.origin s.2) = some s.2 := by
    intro s hs
    obtain ⟨n, hn, -⟩ := h.exists_entry (mem_copies.1 hs).2 (mem_copies.1 hs).1
    obtain ⟨ho, -, b, hb, hbody⟩ := h.origin_of_entry hn
    exact ⟨b, hb, hbody, by rw [ho]; exact hc.lawful.exprAt_instr hn⟩
  obtain ⟨b, hb, hbody, hbe⟩ := horigin hr
  obtain ⟨k, i, ⟨π, hπ⟩, hi, hie⟩ := h.exists_occurrence hr
  have hreach := (h.walk hπ).reachable
  rw [(hm.copy r hr).2.1, hbuilt.args_of_exprAt hc.lawful hb (hv.attached hreach) hbody hi hbe hie,
    List.mem_map] at hu
  obtain ⟨a, ha, hren⟩ := hu
  obtain ⟨d, rfl, ⟨s, -, rfl, hid⟩ | ⟨-, hid⟩⟩ := h.rename_eq_instr hren
  · have := copyId_inj hq hid
    subst this
    obtain ⟨-, -, -, hqe⟩ := horigin hq
    obtain ⟨u, w, hu, hw, hlt⟩ :=
      hv.exprAt_lt hbuilt hlisted hc hreach hi (Catalog.exprAt_iff.1 hie).1
      (Catalog.exprAt_iff.1 hqe).1 ha
    rw [hqe, Option.some.injEq] at hu
    rw [hie, Option.some.injEq] at hw
    omega
  · -- what was there before the motion is older than all copies
    exact absurd (hid ▸ p.lt_copyId q) (Nat.not_lt_of_le (hv.operand_le hreach hi ha))

end Plan

namespace Context

variable {fn : Func} {o : Options}

/-- Where the verifier accepts what a builder made, definitions are numbered before their uses. A
copy takes copies of smaller numbers only, and those of its own edge are put in front of it. -/
theorem definitions_before_uses (hv : fn.verify = .ok none)
    (hx : fn.isExternal = true → fn.layout = []) (hbuilt : fn.Built) (hlisted : fn.OperandsListed) :
    ∃ c₀ c, ofFunc fn o = .ok c₀ ∧ numberExpressions fn c₀ = .ok ⟨⟩ c ∧
      (∀ b l, fn.Walk l b → ∀ g ∈ (fn.block b).body, ∀ f, (fn.instr g).op.isMovable = true →
        (fn.instr f).op.isMovable = true →
        .instr f ∈ (fn.instr g).args → ∃ u v, c.catalog.index fn.reader f = .ok u ∧
          c.catalog.index fn.reader g = .ok v ∧ u < v) ∧
      ∀ p : Plan, p.func = fn → Answers fn o p.context p.sets → p.context.catalog = c.catalog ∧
        ∃ st, Motion.State.run { func := fn, context := p.context } = .ok ⟨⟩ st ∧
          st.clones = p.copies.map (fun q => (q.2, p.copyId q)) ∧
          ∀ q ∈ p.copies, ∀ r ∈ p.copies,
            (.instr (p.copyId q) ∈ (st.func.instr (p.copyId r)).args → q.2 < r.2) ∧
            (q.1 = r.1 → q.2 < r.2 →
              [p.copyId q, p.copyId r].Sublist (st.func.block (p.place r.1)).body) := by
  have h := Func.verified_of_verify hv hx
  obtain ⟨c₀, h₀⟩ := ofFunc_ok hbuilt.enclosed.drawable o
  obtain ⟨hf, -⟩ := ofFunc_fresh h₀
  obtain ⟨c, hc⟩ :=
    hf.numberExpressions_ok hbuilt.readable.attached fun k => hf.expression_movables hbuilt.readable
  have hcat := hf.cataloged hbuilt.enclosed hc
  refine ⟨c₀, c, h₀, hc, fun b l hw g hg f hgm hfm harg => ?_, fun p hp ha => ?_⟩
  · obtain ⟨u, v, hu, hv, hlt⟩ := h.exprAt_lt hbuilt hlisted hcat hw.reachable hg hgm hfm harg
    exact ⟨u, v, index_of_exprAt hu, index_of_exprAt hv, hlt⟩
  · subst hp
    have hplan : p.Feasible := ha.feasible hbuilt.toAssembled
    have hsame : p.context.catalog = c.catalog := by
      obtain ⟨c₁, h₁, hanalyze, -⟩ := ha
      obtain rfl := Except.ok.inj (h₀.symm.trans h₁)
      obtain ⟨d, hd, hsame, -⟩ := analyze_cases hf hanalyze
      rw [hc] at hd
      cases hd
      exact hsame
    obtain ⟨st, hrun, hm, hclones, -⟩ := hplan.run_ok
    refine ⟨hsame, st, hrun, hclones, fun q hq r hr => ⟨fun huse => ?_, fun he hlt => ?_⟩⟩
    · exact hm.copy_operand_lt hplan h hbuilt hlisted (hsame ▸ hcat) hq hr huse
    · exact hm.copies_in_order hplan.toDrafted hq hr he hlt

/-- A loop computes an address and stores to it; the same store is repeated behind the loop. -/
def lane : Func where
  name := "f"
  params := ["p", "c"]
  layout := [1, 2, 3]
  blocks := ⟨#[{ term := some 1 }, { body := [2, 3], term := some 4, preds := [1, 2] },
    { body := [5], term := some 6, preds := [2] }]⟩
  instrs := ⟨#[
    { op := .jump, targets := [2], block := some 1 },
    { op := .lea, args := [.param 0 "p", .param 1 "c"], block := some 2 },
    { op := .store, args := [.const 1, .instr 2], block := some 2 },
    { op := .branch, args := [.param 1 "c"], targets := [2, 3], block := some 2 },
    { op := .store, args := [.const 1, .instr 2], block := some 3 },
    { op := .ret, block := some 3 }]⟩

/-- The address is numbered before both stores, and of the copies on the way into the loop that of
the store takes that of the address. -/
theorem definitions_before_uses_lane :
    (lane.verify = .ok none ∧ (lane.isExternal = true → lane.layout = []) ∧
    lane.Built ∧ lane.OperandsListed) ∧
    ∃ p : Plan, p.func = lane ∧ Answers lane {} p.context p.sets ∧
      (∃ u v, p.context.catalog.index lane.reader 2 = .ok u ∧
        p.context.catalog.index lane.reader 5 = .ok v ∧ u < v) ∧
      (0, 0) ∈ p.copies ∧ (0, 1) ∈ p.copies ∧
      ∃ st, Motion.State.run { func := lane, context := p.context } = .ok ⟨⟩ st ∧
        .instr (p.copyId (0, 0)) ∈ (st.func.instr (p.copyId (0, 1))).args ∧
        [p.copyId (0, 0), p.copyId (0, 1)].Sublist (st.func.block (p.place 0)).body := by
  have hv : lane.verify = .ok none := by decide +kernel
  have hx : lane.isExternal = true → lane.layout = [] := by decide
  have hbuilt : lane.Built := by decide +kernel
  have hlisted : lane.OperandsListed := by decide +kernel
  obtain ⟨c, s, st, ha, hrun, hst⟩ := exists_of_moved? lane {}
    (fun r => decide ((0, 0) ∈ (Plan.mk lane r.1 r.2.1).copies ∧
      (0, 1) ∈ (Plan.mk lane r.1 r.2.1).copies ∧
      .instr ((Plan.mk lane r.1 r.2.1).copyId (0, 0)) ∈
        (r.2.2.func.instr ((Plan.mk lane r.1 r.2.1).copyId (0, 1))).args))
    (by decide +kernel)
  obtain ⟨hq, hr, huse⟩ := of_decide_eq_true hst
  obtain ⟨c₀, d, -, -, hnum, hplan⟩ := definitions_before_uses (o := {}) hv hx hbuilt hlisted
  obtain ⟨hcat, st', hrun', -, hcopies⟩ := hplan ⟨lane, c, s⟩ rfl ha
  rw [hrun] at hrun'
  cases hrun'
  obtain ⟨hlt, hsub⟩ := hcopies _ hq _ hr
  obtain ⟨l, hwalk⟩ := Func.exists_walk (by decide +kernel : 3 ∈ lane.preOrder)
  refine ⟨⟨hv, hx, hbuilt, hlisted⟩, ⟨lane, c, s⟩, rfl, ha, ?_, hq, hr, st, hrun, huse,
    hsub rfl (hlt huse)⟩
  rw [hcat]
  exact hnum 3 l hwalk 5 (by decide) 2 (by decide) (by decide) (by decide)

end Context
end CodeMotion
