import Mathlib
import CodeMotion.Proofs.Addresses
import CodeMotion.Proofs.Deletion

/-! With a single insertion a moved value has one copy, which stands on every path to the uses of
the value, and the operands of copies are defined before them. The address of a store that was moved
is left out of this: what holds of it is said exactly. -/

namespace CodeMotion

/-- Control has come past a definition wherever it is used, for a phi at the end of the block that
the operand comes from. -/
def Func.ReadyAtUses (fn : Func) (d : InstrId) : Prop := ∀ b ∈ fn.preOrder,
  (∀ i n, ((fn.block b).body ++ (fn.block b).term.toList)[n]? = some i →
    .instr d ∈ (fn.instr i).args → fn.Ready b n d) ∧
  ∀ i ∈ (fn.block b).phis, ∀ source, (Value.instr d, source) ∈ (fn.instr i).args.zip
    (fn.instr i).incoming →
    source ∈ fn.preOrder → fn.Ready source ((fn.block source).body.length + 1) d

theorem Context.Answers.feasible {fn : Func} {o : Options} {c : Context} {s : Sets}
    (ha : Answers fn o c s) (hs : fn.Assembled) : Plan.Feasible ⟨fn, c, s⟩ := by
  obtain ⟨c₀, -, hsolved, hdecided⟩ := ha.solved
  obtain ⟨-, -, -, hsets⟩ := ha
  exact .of_assembled hs ⟨c₀, hsolved⟩ hdecided hsets

theorem Context.Answers.valid {fn : Func} {o : Options} {c : Context} {s : Sets}
    (ha : Answers fn o c s) (hs : fn.Sound) (ho : o.singleInsertion = true) :
    Plan.Valid ⟨fn, c, s⟩ := by
  obtain ⟨c₀, hopt, -⟩ := ha.solved
  exact ⟨ha.feasible hs.assembled, hs, hopt ▸ ho⟩

namespace Plan

variable {p : Plan} {g : Func} {q r : Nat × Nat}

/-- The copy of a value is defined at all its uses exactly if it is at the addresses of copied
stores. -/
theorem Moved.readyAtUses_iff (hm : p.Moved g) (h : p.Valid) (hr : p.Moves r) :
    g.ReadyAtUses (p.copyId r) ↔
    ∀ q ∈ p.copies, ∀ m, p.context.catalog.entries[q.2]? = some m → m.op = .store →
      m.dest = .instr (p.origin r.2) →
      r.1 = q.1 ∧ r.2 < q.2 ∨ ∀ π, p.context.Path π (p.context.edge q.1).source → r.1 ∈ π := by
  constructor
  · intro hall q hq m hm' hop hdest
    obtain ⟨hreach, n, hn⟩ := hm.exists_place h hq
    obtain ⟨-, v, hargs⟩ := hm.store_copy_args h hq hm' hop
    refine (hm.ready_copy_iff h hq hr hn).1 ((hall _ hreach).1 (p.copyId q) n
      (Func.place_of_body hn) ?_)
    rw [hargs, hdest, h.rename_moved hr]
    exact List.mem_cons_of_mem _ List.mem_cons_self
  · intro hall b hb
    refine ⟨fun i n hi hd => ?_, fun i hi source hz hs => ?_⟩
    · rcases hm.ready_or_address h hb hi hd with hready | ⟨q, hq, m, d, rfl, hn, hm',
        hop, hdest, hren⟩
      · exact hready
      · obtain ⟨_, hv, ⟨r', hr', rfl, hcopy⟩ | ⟨-, hcopy⟩⟩ := h.rename_eq_instr hren
        · have := copyId_inj hr.1 hcopy
          subst this
          exact (hm.ready_copy_iff h hq hr hn).2 (hall q hq m hm' hop (hdest.trans hv))
        · -- the address keeps its place, so it is no copy
          rw [Value.instr.injEq] at hv
          obtain ⟨-, home, hl, hdl⟩ := h.exists_home_of_address hq hm' hop hdest
          rw [hv, ← hcopy] at hdl
          exact absurd (p.lt_copyId r) (Nat.not_lt_of_le (h.sound.listed_le hl hdl))
    · obtain ⟨hl, hi⟩ := hm.mem_layout_of_phi (hm.mem_attached h hb) hi
      exact hm.ready_phi h hl hi hz hs

end Plan

namespace Context

open Motion (State)

/-- After a motion with single insertion the copies of a moved value are on one edge, which is on
every path to the block of the value. All operands of a copy are defined at the copy, except perhaps
the address of a store. So the copy of a value is defined at all its uses exactly if, for every
copied store that has the value as its address, it stands in front of the copy of the store or its
edge is on every path there. -/
theorem single_copy {fn : Func} {o : Options} {c : Context} {s : Sets} (hv : fn.verify = .ok none)
    (hne : fn.isEmpty = false) (ht : fn.Tidy) (ho : o.singleInsertion = true)
    (ha : Answers fn o c s) :
    ∃ st, State.run { func := fn, context := c } = .ok ⟨⟩ st ∧
      (∀ e n x, c.catalog.entries[e]? = some n → n.op.hasResult = true → x < c.edges.size →
        e ∈ s.insert.of x →
        (∀ y < c.edges.size, e ∈ s.insert.of y → y = x) ∧
        (∀ k π, n.instr ∈ (fn.block (c.node k).block).body → c.Path π k → x ∈ π) ∧
        ∃ d, (∀ i, (e, i) ∈ st.clones ↔ i = d) ∧
          (st.func.ReadyAtUses d ↔ ∀ f m y, c.catalog.entries[f]? = some m → m.op = .store →
            m.dest = .instr n.instr →
            y < c.edges.size → f ∈ s.insert.of y → x = y ∧ e < f ∨
              ∀ π, c.Path π (c.edge y).source → x ∈ π)) ∧
      ∀ f i, (f, i) ∈ st.clones → ∃ b n, b ∈ st.func.preOrder ∧
        (st.func.block b).body[n]? = some i ∧
        ∀ d, .instr d ∈ st.func.operands i → st.func.Ready b n d := by
  have h : Plan.Valid ⟨fn, c, s⟩ := ha.valid (ht.sound hv hne) ho
  obtain ⟨st, hrun, hm, hclones, -⟩ := h.run_ok
  refine ⟨st, hrun, fun e n x hn hres hx he => ?_, fun f i hi => ?_⟩
  · obtain ⟨horigin, hop, -⟩ := h.origin_of_entry hn
    have hq : (x, e) ∈ (Plan.mk fn c s).copies := Plan.mem_copies.2 ⟨hx, he⟩
    have hmoves : (Plan.mk fn c s).Moves (x, e) := ⟨hq, by rw [hop, hres]⟩
    refine ⟨fun y hy hey => ?_, fun k π hk hπ => ?_, (Plan.mk fn c s).copyId (x, e),
      fun i => ?_, ?_⟩
    · have hr : (y, e) ∈ (Plan.mk fn c s).copies := Plan.mem_copies.2 ⟨hy, hey⟩
      exact congrArg Prod.fst (h.copy_unique hmoves hr rfl)
    · rw [← horigin] at hk
      exact h.edge_mem_path hmoves (hπ.lt h.wired) hk hπ
    · rw [hclones, List.mem_map]
      constructor
      · rintro ⟨r, hr, heq⟩
        obtain ⟨h1, rfl⟩ := Prod.mk.inj heq
        rw [h.copy_unique hmoves hr h1]
      · rintro rfl
        exact ⟨(x, e), hq, rfl⟩
    · rw [hm.readyAtUses_iff h hmoves, horigin]
      constructor
      · intro hall f m y hm' hst hdest hy hf
        exact hall (y, f) (Plan.mem_copies.2 ⟨hy, hf⟩) m hm' hst hdest
      · rintro hall ⟨y, f⟩ hr m hm' hst hdest
        obtain ⟨hy, hf⟩ := Plan.mem_copies.1 hr
        exact hall f m y hm' hst hdest hy hf
  · rw [hclones, List.mem_map] at hi
    obtain ⟨q, hq, heq⟩ := hi
    obtain ⟨-, rfl⟩ := Prod.mk.inj heq
    obtain ⟨hreach, n, hn⟩ := hm.exists_place h hq
    refine ⟨_, n, hreach, hn, fun d hd => hm.ready_copy_use h hq hd fun d hd => ?_⟩
    exact hm.old_not_mem_drop h hq hn hd

/-- A loop inside a loop; the inner one stores to an address that is computed from the result of a
call in the outer one. -/
def nest : Func where
  name := "f"
  params := ["c"]
  layout := [1, 2, 3, 4, 5]
  blocks := ⟨#[{ term := some 1 }, { body := [2], term := some 3, preds := [1, 4] },
    { body := [4, 5], term := some 6, preds := [2, 3] }, { term := some 7, preds := [3] },
      { term := some 8, preds := [4] }]⟩
  instrs := ⟨#[
    { op := .jump, targets := [2], block := some 1 },
    { op := .call, callee := "g", block := some 2 },
    { op := .jump, targets := [3], block := some 2 },
    { op := .lea, args := [.instr 2, .param 0 "c"], block := some 3 },
    { op := .store, args := [.const 1, .instr 4], block := some 3 },
    { op := .branch, args := [.param 0 "c"], targets := [3, 4], block := some 3 },
    { op := .branch, args := [.param 0 "c"], targets := [2, 5], block := some 4 },
    { op := .ret, block := some 5 }]⟩

theorem nest_sound : nest.verify = .ok none ∧ nest.isEmpty = false ∧ nest.Tidy := by decide +kernel

theorem single_copy_nest :
    ∃ c s st, Answers nest {} c s ∧ State.run { func := nest, context := c } = .ok ⟨⟩ st ∧
    0 ∈ s.insert.of 1 ∧ (∀ y < c.edges.size, 0 ∈ s.insert.of y → y = 1) ∧
      (∀ π, c.Path π 2 → 1 ∈ π) ∧
    ∃ d, ∀ i, (0, i) ∈ st.clones ↔ i = d := by
  obtain ⟨c, s, ha, hp⟩ := answers_of_answer? nest {}
    (fun p => p.1.catalog.entries[0]? == some ⟨.lea, .instr 4, 4⟩ && decide (1 < p.1.edges.size) &&
      (p.2.insert.of 1).contains 0 &&
      (nest.block (p.1.node 2).block).body.contains 4)
    (by decide +kernel)
  simp only [Bool.and_eq_true, beq_iff_eq, decide_eq_true_eq, List.contains_iff_mem] at hp
  obtain ⟨⟨⟨hn, hx⟩, he⟩, hbody⟩ := hp
  obtain ⟨hv, hne, ht⟩ := nest_sound
  obtain ⟨st, hrun, hvalues, -⟩ := single_copy hv hne ht rfl ha
  obtain ⟨hone, hpath, d, hd, -⟩ := hvalues 0 _ 1 hn rfl hx he
  exact ⟨c, s, st, ha, hrun, he, hone, fun π hπ => hpath 2 π hbody hπ, d, hd⟩

def moved? (fn : Func) (o : Options) : Option (Context × Sets × State) :=
  match answer? fn o with
  | none => none
  | some (c, s) =>
    match State.run { func := fn, context := c } with
    | .ok _ st => some (c, s, st)
    | .error _ _ => none

theorem exists_of_moved? (fn : Func) (o : Options) (p : Context × Sets × State → Bool)
    (h : (moved? fn o).any p = true) :
    ∃ c s st, Answers fn o c s ∧ State.run { func := fn, context := c } = .ok ⟨⟩ st ∧
      p (c, s, st) = true := by
  obtain ⟨c, s, ha, hp⟩ := answers_of_answer? fn o
    (fun a => match State.run { func := fn, context := a.1 } with
      | .ok _ st => p (a.1, a.2, st)
      | .error _ _ => false) (by
        unfold moved? at h
        cases ha : answer? fn o with
        | none => simp [ha] at h
        | some a =>
          simp only [ha] at h
          rw [Option.any_some]
          split at h
          · next st hst => simpa [hst] using h
          · cases h)
  split at hp
  · next st hst => exact ⟨c, s, st, ha, hst, hp⟩
  · cases hp

/-- In the nested loops the store is moved out of both, above the copy of its address. -/
theorem copy_behind_use_nest : (nest.verify = .ok none ∧ nest.isEmpty = false ∧ nest.Tidy) ∧
    ∃ c s st, Answers nest {} c s ∧ State.run { func := nest, context := c } = .ok ⟨⟩ st ∧
      c.catalog.entries[0]? = some ⟨.lea, .instr 4, 4⟩ ∧ 0 ∈ s.insert.of 1 ∧ (0, 10) ∈ st.clones ∧
        ¬ st.func.ReadyAtUses 10 := by
  refine ⟨nest_sound, ?_⟩
  obtain ⟨c, s, st, ha, hrun, hp⟩ := exists_of_moved? nest {}
    (fun r => r.1.catalog.entries[0]? == some ⟨.lea, .instr 4, 4⟩ &&
      (r.2.1.insert.of 1).contains 0 && r.2.2.clones.contains (0, 10) &&
      r.2.2.func.entry? == some 1 && (r.2.2.func.block 1).body == [9] &&
        (r.2.2.func.instr 9).args == [.const 1, .instr 10] &&
      (r.2.2.func.instr 10).block == some 2)
    (by decide +kernel)
  simp only [Bool.and_eq_true, beq_iff_eq, List.contains_iff_mem] at hp
  obtain ⟨⟨⟨⟨⟨⟨hn, he⟩, hclone⟩, hentry⟩, hbody⟩, hargs⟩, hblock⟩ := hp
  refine ⟨c, s, st, ha, hrun, hn, he, hclone, fun hall => ?_⟩
  -- the entry is reached without passing the second block
  have hwalk : st.func.Walk [] 1 := .entry hentry
  have hready := (hall 1 hwalk.reachable).1 9 0 (by simp [hbody]) (by simp [hargs])
  obtain ⟨home, hhome, -, hplace⟩ := Func.ready_iff.1 hready
  rw [hblock, Option.some.injEq] at hhome
  rw [← hhome, if_neg (by decide)] at hplace
  cases hplace [] hwalk

end Context
end CodeMotion
