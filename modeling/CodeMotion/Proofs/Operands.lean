import Mathlib
import CodeMotion.Proofs.Computations

/-! After a motion no operand dangles: what an attached block takes as an operand is listed in an
attached block, also where a value has several copies. -/

namespace CodeMotion

namespace Func

variable {fn : Func} {b : BlockId} {d i : InstrId}

def used (fn : Func) : List InstrId :=
  (fn.layout.flatMap fn.listed).flatMap fun i => (fn.instr i).args.filterMap Value.instr?

def results (fn : Func) (b : BlockId) : List InstrId := (fn.block b).phis ++ (fn.block b).body

theorem mem_listed_of_results (h : i ∈ fn.results b) : i ∈ fn.listed b := List.mem_append_left _ h

theorem mem_used : d ∈ fn.used ↔ ∃ b ∈ fn.layout, ∃ i ∈ fn.listed b,
    .instr d ∈ (fn.instr i).args := by
  have harg : ∀ v : Value, v.instr? = some d ↔ v = .instr d := by
    intro v
    cases v <;> simp [Value.instr?]
  unfold used
  simp only [List.mem_flatMap, List.mem_filterMap, harg, exists_eq_right]
  constructor
  · rintro ⟨i, ⟨b, hb, hi⟩, hd⟩
    exact ⟨b, hb, i, hi, hd⟩
  · rintro ⟨b, hb, i, hi, hd⟩
    exact ⟨i, ⟨b, hb, hi⟩, hd⟩

end Func

namespace Plan

variable {p : Plan} {g : Func} {b : BlockId} {d i : InstrId} {q : Nat × Nat}

namespace Moved

variable (hm : p.Moved g) (h : p.Feasible)
include hm h

/-- The operands of an attached instruction are renamed operands of an old one. -/
theorem exists_old_use (hb : b ∈ g.layout) (hi : i ∈ g.listed b) {v : Value}
    (hv : v ∈ (g.instr i).args) :
    ∃ a ∈ p.func.layout, ∃ j ∈ p.func.listed a, ∃ u ∈ (p.func.instr j).args, p.rename u = v := by
  rcases hm.listed_cases h ((hm.mem_layout b).1 hb) hi with ⟨hold, hi⟩ | ⟨q, hq, rfl⟩ | ⟨x, hx, rfl⟩
  · rw [(hm.old b hold i hi).2.1, List.mem_map] at hv
    exact ⟨b, hold, i, hi, hv⟩
  · obtain ⟨n, hn, -⟩ := h.exists_entry (mem_copies.1 hq).2 (mem_copies.1 hq).1
    obtain ⟨-, -, a, ha, hbody⟩ := h.origin_of_entry hn
    rw [(hm.copy q hq).2.1, List.mem_map] at hv
    exact ⟨a, ha, _, Func.mem_listed_of_body hbody, hv⟩
  · rw [hm.jump x hx] at hv
    cases hv

/-- A copy is a result of the block that it was put into. -/
theorem copyId_mem_results (hq : q ∈ p.copies) :
    p.place q.1 ∈ g.layout ∧ p.copyId q ∈ g.results (p.place q.1) := by
  have hplace := h.place_mem (mem_copies.1 hq).1
  refine ⟨(hm.mem_layout _).2 hplace, List.mem_append_right _ ?_⟩
  rw [hm.body _ hplace]
  exact List.mem_append_right _ (List.mem_map_of_mem (List.mem_filter.2 ⟨hq, by simp⟩))

omit h in
/-- A result that is not taken away stays in its block. -/
theorem mem_results (hb : b ∈ p.func.layout) (hd : d ∈ p.func.results b) (hno : d ∉ p.gone) :
    d ∈ g.results b := by
  unfold Func.results at hd ⊢
  rw [hm.phis, hm.body b (List.mem_append_left _ hb)]
  rcases List.mem_append.1 hd with hd | hd
  · exact List.mem_append_left _ hd
  · exact List.mem_append_right _ (List.mem_append_left _ (List.mem_filter.2 ⟨hd,
      by simpa using hno⟩))

theorem exists_result (hres : ∀ d ∈ p.func.used, (p.func.instr d).op.hasResult = true)
    (hdef : ∀ d ∈ p.func.used, ∃ a ∈ p.func.layout, d ∈ p.func.results a) (hd : d ∈ g.used) :
    ∃ a ∈ g.layout, d ∈ g.results a ∧
      ((∀ b ∈ p.func.layout, ∀ i ∈ p.func.results b, (p.func.instr i).block = some b) →
        (g.instr d).block = some a) := by
  obtain ⟨b, hb, i, hi, harg⟩ := Func.mem_used.1 hd
  obtain ⟨a, ha, j, hj, u, hu, hr⟩ := hm.exists_old_use h hb hi harg
  obtain ⟨d₀, rfl, ⟨q, hq, -, rfl⟩ | ⟨hunmoved, rfl⟩⟩ := h.rename_eq_instr hr
  · obtain ⟨hplace, hcopy⟩ := hm.copyId_mem_results h hq.1
    exact ⟨_, hplace, hcopy, fun _ => (hm.copy q hq.1).2.2.2⟩
  · -- without a copy it is still where it was
    have hold := Func.mem_used.2 ⟨a, ha, j, hj, hu⟩
    have hno := h.notMem_gone (hres d hold) hunmoved
    obtain ⟨home, hl, hhome⟩ := hdef d hold
    refine ⟨home, (hm.mem_layout _).2 (List.mem_append_left _ hl), hm.mem_results hl hhome hno,
      fun hblock => ?_⟩
    rw [(hm.old home hl d (Func.mem_listed_of_results hhome)).2.2.2, if_neg hno,
      hblock home hl d hhome]

end Moved
end Plan

namespace Motion.State

/-- Where every operand is the result of an attached block, the motion runs and leaves it so. -/
theorem run_operands {fn : Func} {o : Options} {c : Context} {s : Sets} (h : fn.Assembled)
    (hres : ∀ d ∈ fn.used, (fn.instr d).op.hasResult = true)
    (hdef : ∀ d ∈ fn.used, ∃ a ∈ fn.layout, d ∈ fn.results a) (ha : Context.Answers fn o c s) :
    ∃ st, run { func := fn, context := c } = .ok ⟨⟩ st ∧
      ∀ d ∈ st.func.used, ∃ a ∈ st.func.layout, d ∈ st.func.results a ∧
        ((∀ b ∈ fn.layout, ∀ i ∈ fn.results b, (fn.instr i).block = some b) →
          (st.func.instr d).block = some a) := by
  have hplan := ha.feasible h
  obtain ⟨st, hrun, hm, -⟩ := hplan.run_ok
  exact ⟨st, hrun, fun d hd => hm.exists_result hplan hres hdef hd⟩

/-- A value that does not change in a loop with two ways into it. A phi, a branch and a return
take it. -/
def twofold : Func where
  name := "f"
  params := ["c"]
  layout := [1, 2, 3, 4, 5]
  blocks := ⟨#[{ term := some 1 }, { term := some 2, preds := [1] },
    { term := some 3, preds := [1] },
    { phis := [4], body := [5], term := some 6, preds := [2, 3, 4] },
      { term := some 7, preds := [4] }]⟩
  instrs := ⟨#[
    { op := .branch, args := [.param 0 "c"], targets := [2, 3], block := some 1 },
    { op := .jump, targets := [4], block := some 2 },
    { op := .jump, targets := [4], block := some 3 },
    { op := .phi, args := [.param 0 "c", .const 1, .instr 5], incoming := [2, 3, 4],
      block := some 4 },
    { op := .binary .add, args := [.param 0 "c", .const 1], block := some 4 },
    { op := .branch, args := [.instr 5], targets := [4, 5], block := some 4 },
    { op := .ret, args := [.instr 5], block := some 5 }]⟩

/-- Both ways get a copy, and the three operands are the later one. -/
theorem run_operands_twofold :
    twofold.Assembled ∧ (∀ d ∈ twofold.used, (twofold.instr d).op.hasResult = true) ∧
    (∀ d ∈ twofold.used, ∃ a ∈ twofold.layout, d ∈ twofold.results a) ∧ ∃ c s,
    (Context.Answers twofold { singleInsertion := false } c s ∧ 0 ∈ s.insert.of 2 ∧
      0 ∈ s.insert.of 3) ∧
    ∃ st, run { func := twofold, context := c } = .ok ⟨⟩ st ∧
      ∀ d ∈ st.func.used, ∃ a ∈ st.func.layout, d ∈ st.func.results a ∧
        (st.func.instr d).block = some a := by
  have h : twofold.Assembled := by decide +kernel
  have hres : ∀ d ∈ twofold.used, (twofold.instr d).op.hasResult = true := by decide +kernel
  have hdef : ∀ d ∈ twofold.used, ∃ a ∈ twofold.layout, d ∈ twofold.results a := by decide +kernel
  have hblock : ∀ b ∈ twofold.layout, ∀ i ∈ twofold.results b,
      (twofold.instr i).block = some b := by
    decide +kernel
  obtain ⟨c, s, ha, hins⟩ := Context.answers_of_answer? twofold { singleInsertion := false }
    (fun r => decide (0 ∈ r.2.insert.of 2 ∧ 0 ∈ r.2.insert.of 3)) (by decide +kernel)
  obtain ⟨st, hrun, hall⟩ := run_operands h hres hdef ha
  refine ⟨h, hres, hdef, c, s, ⟨ha, of_decide_eq_true hins⟩, st, hrun, fun d hd => ?_⟩
  obtain ⟨a, hl, hd, hb⟩ := hall d hd
  exact ⟨a, hl, hd, hb hblock⟩

end Motion.State
end CodeMotion
