import Mathlib
import CodeMotion.Proofs.Correspondence
import CodeMotion.Proofs.Optimize

/-! Blocks that are never reached have no say in the motion of the code that is. Without them the
analysis gives the same numbers to the expressions of the other blocks and finds the same sets of
them, and the motion leaves such blocks as they are. -/

namespace CodeMotion

theorem Table.get?_map {α β : Type} (t : Table α) (f : α → β) (n : Nat) :
    (⟨t.rows.map f⟩ : Table β).get? n = (t.get? n).map f := by
  cases n with
  | zero => rfl
  | succ n => simp [get?]

def Instr.pruned (stays : BlockId → Bool) (ins : Instr) : Instr :=
  if ins.op = .phi then
    let pairs := (ins.args.zip ins.incoming).filter fun q => stays q.2
    { ins with args := pairs.map (·.1), incoming := pairs.map (·.2) }
  else ins

def Block.pruned (stays : BlockId → Bool) (b : Block) : Block :=
  { b with preds := b.preds.filter stays }

namespace Func

/-- A function without the blocks that are not reached from its entry. -/
def prune (fn : Func) : Func :=
  let stays b := fn.preOrder.contains b
  { fn with
    layout := fn.layout.filter stays
    blocks := ⟨fn.blocks.rows.map (·.pruned stays)⟩
    instrs := ⟨fn.instrs.rows.map (·.pruned stays)⟩ }

variable {fn fn' : Func} {a b : BlockId} {i : InstrId}

theorem block_prune (fn : Func) (b : BlockId) :
    fn.prune.block b = (fn.block b).pruned (fn.preOrder.contains ·) := by
  simp only [block, prune, Table.get?_map]
  cases fn.blocks.get? b with
  | none => rfl
  | some _ => rfl

theorem instr_prune (fn : Func) (i : InstrId) :
    fn.prune.instr i = (fn.instr i).pruned (fn.preOrder.contains ·) := by
  simp only [instr, prune, Table.get?_map]
  cases fn.instrs.get? i with
  | none => rfl
  | some _ => rfl

theorem hasBlock_prune (fn : Func) (b : BlockId) : fn.prune.hasBlock b = fn.hasBlock b := by
  simp [hasBlock, prune, Table.get?_map]

theorem targets_instr_prune (fn : Func) (i : InstrId) :
    (fn.prune.instr i).targets = (fn.instr i).targets := by
  rw [instr_prune, Instr.pruned]
  split <;> rfl

theorem succs_prune (fn : Func) (b : BlockId) : fn.prune.succs b = fn.succs b := by
  unfold succs targets
  rw [block_prune, Block.pruned]
  cases (fn.block b).term with
  | none => rfl
  | some t => simp only [targets_instr_prune]

theorem mem_layout_prune : b ∈ fn.prune.layout ↔ b ∈ fn.layout ∧ b ∈ fn.preOrder := by simp [prune]

theorem Enclosed.head_prune (h : fn.Enclosed) : fn.prune.layout.head? = fn.layout.head? := by
  cases hl : fn.layout with
  | nil => simp [prune, hl]
  | cons e rest =>
    have hentry : fn.entry? = some e := by
      rw [Func.entry?, hl]
      simp [h.hasBlock e (by simp [hl])]
    have hlive : e ∈ fn.preOrder := mem_preOrder.2 ⟨e, hentry, .refl⟩
    simp [prune, hl, hlive]

/-- Pruning keeps all code that is reached, and what is left is closed under successors. -/
theorem Enclosed.alike_prune (h : fn.Enclosed) : fn.Alike fn.prune where
  phis b := by rw [block_prune]; rfl
  body b := by rw [block_prune]; rfl
  term b := by rw [block_prune]; rfl
  op i := by
    rw [instr_prune, Instr.pruned]
    split <;> rfl
  args i hi := by rw [instr_prune, Instr.pruned, if_neg hi]
  targets := fn.targets_instr_prune
  hasBlock := fn.hasBlock_prune
  size := by simp [prune, Table.size]
  head := h.head_prune
  enclosed := h
  enclosed' := by
    refine ⟨h.nodup.filter _, fun b hb => ?_, fun a ha b hb => ?_⟩
    · rw [hasBlock_prune]
      exact h.hasBlock b (mem_layout_prune.1 hb).1
    · rw [succs_prune] at hb
      obtain ⟨hal, hlive⟩ := mem_layout_prune.1 ha
      exact mem_layout_prune.2 ⟨h.succs a hal b hb, mem_preOrder_of_leads hlive hb⟩

theorem Readable.of_alike (h : fn.Readable) (hf : fn.Alike fn')
    (hl : ∀ b ∈ fn'.layout, b ∈ fn.layout) : fn'.Readable where
  attached b hb := hf.enclosed'.attached (fn'.postOrder_perm.mem_iff.1 hb)
  store b hb i hi hop := by
    rw [hf.op] at hop
    rw [hf.body, hf.args i (by rw [hop]; decide)]
    exact h.store b (hl b hb) i (hf.listed b ▸ hi) hop
  load b hb i hi hop := by
    rw [hf.op] at hop
    rw [hf.args i (by rw [hop]; decide)]
    exact h.load b (hl b hb) i (hf.listed b ▸ hi) hop

end Func

namespace Context

variable {fn fn' : Func} {c c' : Context} {s s' : Sets} {o : Options}

/-- The analysis of a function that can be read ends. -/
theorem exists_analysis (he : fn.Enclosed) (hr : fn.Readable) (ht : o.trace = .off) :
    ∃ c₀ r c, ofFunc fn o = .ok c₀ ∧ analyze fn c₀ = .ok r c := by
  obtain ⟨c₀, h₀⟩ := ofFunc_ok he.drawable o
  obtain ⟨hf, ho⟩ := ofFunc_fresh h₀
  obtain ⟨r, c, hc⟩ := analyze_ok hf hr (ho ▸ ht)
  exact ⟨c₀, r, c, h₀, hc⟩

def Live (fn : Func) (c : Context) (e : Nat) : Prop :=
  ∃ b ∈ fn.preOrder, fn.Occurs c.catalog (fn.block b).body e

def SameLive (fn : Func) (c : Context) : List BitSet → List BitSet → Prop :=
  List.Forall₂ fun a b => ∀ e, Live fn c e → (e ∈ a ↔ e ∈ b)

/-- What is reached has the same number in two analyses of the same code. -/
theorem Live.matched {e : Nat} (h : Live fn c e) (hc : fn.Cataloged c.catalog)
    (hc' : fn'.Cataloged c'.catalog) (hf : fn.Alike fn') :
    Catalog.Match fn fn' c.catalog c'.catalog e e := by
  obtain ⟨b, hb, i, hi, he⟩ := h
  obtain ⟨f, hf1, hf2⟩ := hc.exprAt_live hc' hf hb hi (Catalog.exprAt_iff.1 he).1
  rw [he, Option.some.injEq] at hf1
  subst hf1
  obtain ⟨x, hx, hkey⟩ := hc.lawful.exprAt_iff_key.1 he
  obtain ⟨y, hy, hkey'⟩ := hc'.lawful.exprAt_iff_key.1 hf2
  rw [hf.key?, hx, Option.some.injEq] at hy
  exact ⟨x, hkey, hy ▸ hkey'⟩

/-- The analysis of what is left finds the same. -/
theorem Answers.prune (h : Answers fn o c s) (h' : Answers fn.prune o c' s') (he : fn.Enclosed) :
    (∀ b ∈ fn.preOrder, ∀ i ∈ (fn.block b).body, (fn.instr i).op.isMovable = true →
      ∃ e, fn.exprAt c.catalog i = some e ∧ fn.prune.exprAt c'.catalog i = some e) ∧
    (∀ b ∈ fn.preOrder, ∃ k k', c.nodeOf fn b = .ok k ∧ c'.nodeOf fn.prune b = .ok k' ∧
      SameLive fn c (s.ofNode k) (s'.ofNode k')) ∧
    ∀ a ∈ fn.preOrder, ∀ b ∈ fn.succs a, ∃ x x', c.edgeOf fn a b = .ok (some x) ∧
      c'.edgeOf fn.prune a b = .ok (some x') ∧
      SameLive fn c (s.ofEdge x) (s'.ofEdge x') := by
  have halike := he.alike_prune
  have hcat := h.cataloged he
  have hcat' := h'.cataloged halike.enclosed'
  have hpair := h.paired h' halike
  have hstays : ∀ b ∈ fn.preOrder, b ∈ fn.prune.layout :=
    fun b hb => Func.mem_layout_prune.2 ⟨he.attached hb, hb⟩
  have hlive : ∀ {A B : List BitSet}, List.Forall₂ (Agree fn fn.prune c c') A B →
      SameLive fn c A B :=
    fun hAB =>
    hAB.imp fun _ _ hagree e hl => hagree e e (hl.matched hcat hcat' halike)
  refine ⟨fun b hb i hi hm => hcat.exprAt_live hcat' halike hb hi hm, fun b hb => ?_,
    fun a ha b hb => ?_⟩
  · obtain ⟨k, k', hk, hk', htwin⟩ := hpair.nodeOf_twin (he.attached hb) (hstays b hb)
    exact ⟨k, k', hk, hk', hlive (hpair.ofNode_agree htwin)⟩
  · obtain ⟨x, x', hx, hx', htwin⟩ := hpair.edgeOf_twin (he.attached ha) (hstays a ha) hb
    exact ⟨x, x', hx, hx', hlive (hpair.ofEdge_agree htwin)⟩

end Context

namespace Plan

variable {p : Plan} {g : Func} {b : BlockId}

/-- Nothing is deleted from a block that is never reached. -/
theorem Feasible.not_gone (h : p.Feasible) (hb : b ∈ p.func.layout) (hd : b ∉ p.func.preOrder) :
    ∀ i ∈ (p.func.block b).body, i ∉ p.gone := by
  intro i hi hgone
  obtain ⟨q, hq, rfl⟩ := List.mem_map.1 hgone
  obtain ⟨c₀, hs⟩ := h.solved
  obtain ⟨hk, he, -⟩ := mem_deletions.1 hq
  have hreach := ((hs.mem_deleteIn hk).1 ((h.decided.delete_iff _ hk _).1 he).1).2.1
  have hblock := h.assembled.block_unique hb (h.blockAt_mem hk) (Func.mem_listed_of_body hi)
    (Func.mem_listed_of_body (h.site_spec hq).2.1)
  exact hd (hblock ▸ (h.charts.reach_iff hk).1 hreach)

/-- No copy is put into a block that is never reached. -/
theorem Feasible.placed_dead (h : p.Feasible) (hb : b ∈ p.func.layout) (hd : b ∉ p.func.preOrder) :
    p.placed p.copies b = [] := by
  refine h.placed_eq_nil_of_copies hb fun q hq he => hd ?_
  rw [← he]
  exact (h.charts.reach_iff (h.wired.source_lt _ (mem_copies.1 hq).1)).1 (h.reach_source hq)

theorem Moved.body_dead (hm : p.Moved g) (h : p.Feasible) (hb : b ∈ p.func.layout)
    (hd : b ∉ p.func.preOrder) : (g.block b).body = (p.func.block b).body := by
  rw [hm.body b (List.mem_append_left _ hb), h.placed_dead hb hd, List.append_nil,
    List.filter_eq_self]
  exact fun i hi => by simpa using h.not_gone hb hd i hi

end Plan

namespace Workspace

open Motion (State)

variable {w : Workspace} {o : Options} {f : Nat} {c : Context} {s : Sets}

/-- The motion of a sound function leaves the blocks that are never reached as they are. -/
theorem optimize_dead (hv : (w.func f).verify = .ok none) (hs : (w.func f).Sound)
    (hne : (w.func f).isEmpty = false) (h : Context.Answers (w.func f) o c s) :
    ∃ res err w', optimize o f w = .ok (res, err) w' ∧
      ∀ b ∈ (w.func f).layout, b ∉ (w.func f).preOrder →
        ((w'.func f).block b).phis = ((w.func f).block b).phis ∧ ((w'.func f).block b).body =
          ((w.func f).block b).body := by
  have hfeasible := (h.feasible hs.assembled).clean
  obtain ⟨st, hrun, hm, -⟩ := hfeasible.run_ok
  obtain ⟨c₀, h0, hc, -⟩ := h
  have hprepare := prepare_eq hne hs.entry (isMalformed_of_verify hv o w) h0 hc
  obtain ⟨res, err, w', hopt, hfunc, -⟩ :=
    optimize_moved hprepare rfl (lt_size_of_isEmpty hne) hrun fun _ =>
    (hm.structured hfeasible hs.toStructured).verify_ok
  refine ⟨res, err, w', hopt, fun b hb hd => ?_⟩
  rw [hfunc]
  exact ⟨hm.phis b, hm.body_dead hfeasible hb hd⟩

/-- Blocks that are never reached do not influence the motion of the others, nor are they changed
by it. -/
theorem dead_code_inert (hv : (w.func f).verify = .ok none) (ht : (w.func f).Tidy)
    (hx : (w.func f).isExternal = true → (w.func f).layout = []) :
    (o.trace = .off → (∃ c₀ r c, Context.ofFunc (w.func f) o = .ok c₀ ∧
      Context.analyze (w.func f) c₀ = .ok r c) ∧
      ∃ c₀ r c, Context.ofFunc (w.func f).prune o = .ok c₀ ∧
        Context.analyze (w.func f).prune c₀ = .ok r c) ∧
    ∀ c s c' s', Context.Answers (w.func f) o c s → Context.Answers (w.func f).prune o c' s' →
      (∀ b ∈ (w.func f).preOrder, ∀ i ∈ ((w.func f).block b).body,
        ((w.func f).instr i).op.isMovable = true →
        ∃ e, (w.func f).exprAt c.catalog i = some e ∧
          (w.func f).prune.exprAt c'.catalog i = some e) ∧
      (∀ b ∈ (w.func f).preOrder, ∃ k k', c.nodeOf (w.func f) b = .ok k ∧
        c'.nodeOf (w.func f).prune b = .ok k' ∧
        Context.SameLive (w.func f) c (s.ofNode k) (s'.ofNode k')) ∧
      (∀ a ∈ (w.func f).preOrder, ∀ b ∈ (w.func f).succs a, ∃ x x',
        c.edgeOf (w.func f) a b = .ok (some x) ∧
        c'.edgeOf (w.func f).prune a b = .ok (some x') ∧ Context.SameLive (w.func f) c (s.ofEdge x)
          (s'.ofEdge x')) ∧
      ∃ res err w', optimize o f w = .ok (res, err) w' ∧ ∀ b ∈ (w.func f).layout,
        b ∉ (w.func f).preOrder →
        ((w'.func f).block b).phis = ((w.func f).block b).phis ∧ ((w'.func f).block b).body =
          ((w.func f).block b).body := by
  have hs : (w.func f).Sound := ⟨Func.verified_of_verify hv hx, ht⟩
  have he := hs.enclosed
  have hr := hs.readable
  have halike := he.alike_prune
  have hr' := hr.of_alike halike fun b hb => (Func.mem_layout_prune.1 hb).1
  refine ⟨fun htr => ⟨Context.exists_analysis he hr htr,
    Context.exists_analysis halike.enclosed' hr' htr⟩, fun c s c' s' h h' => ?_⟩
  obtain ⟨hnumbers, hblocks, hedges⟩ := h.prune h' he
  refine ⟨hnumbers, hblocks, hedges, ?_⟩
  cases hne : (w.func f).isEmpty with
  | false => exact optimize_dead hv hs hne h
  | true =>
    obtain ⟨reason, hp⟩ := prepare_skipped (o := o) hne w
    obtain ⟨res, w', hrun, hfunc⟩ := optimize_skipped hp rfl
    exact ⟨res, none, w', hrun, fun b _ _ => by rw [hfunc]; exact ⟨rfl, rfl⟩⟩

/-- A store on one of two branches is repeated where they meet; a block that is never reached makes
another store and leads there as well. -/
def stray : Func where
  name := "f"
  params := ["c"]
  layout := [1, 2, 3, 4, 5]
  blocks := ⟨#[{ term := some 1 }, { body := [2], term := some 3, preds := [1] },
    { term := some 4, preds := [1] },
    { phis := [5], body := [6], term := some 7, preds := [2, 3, 5] },
      { body := [8], term := some 9 }]⟩
  instrs := ⟨#[
    { op := .branch, args := [.param 0 "c"], targets := [2, 3], block := some 1 },
    { op := .store, args := [.const 1, .global 0 "g"], block := some 2 },
    { op := .jump, targets := [4], block := some 2 },
    { op := .jump, targets := [4], block := some 3 },
    { op := .phi, args := [.const 1, .const 2, .const 3], incoming := [2, 3, 5], block := some 4 },
    { op := .store, args := [.const 1, .global 0 "g"], block := some 4 },
    { op := .ret, args := [.instr 5], block := some 4 },
    { op := .store, args := [.const 2, .global 0 "g"], block := some 5 },
    { op := .jump, targets := [4], block := some 5 }]⟩

theorem dead_code_inert_stray :
    stray.verify = .ok none ∧ stray.Tidy ∧ stray.prune.verify = .ok none ∧
    ∃ c s c' s', (Context.Answers stray {} c s ∧ Context.Answers stray.prune {} c' s' ∧
      0 ∈ s.insert.of 3) ∧
      (∃ x x', c.edgeOf stray 3 4 = .ok (some x) ∧ c'.edgeOf stray.prune 3 4 = .ok (some x') ∧
        Context.SameLive stray c (s.ofEdge x) (s'.ofEdge x')) ∧
      ∃ res err w', optimize {} 0 { funcs := #[stray] } = .ok (res, err) w' ∧
        ((w'.func 0).block 5).body = [8] := by
  have hv : stray.verify = .ok none := by decide +kernel
  have ht : stray.Tidy := by decide +kernel
  obtain ⟨c, s, h, hins⟩ :=
    Context.answers_of_answer? stray {} (fun r => decide (0 ∈ r.2.insert.of 3)) (by decide +kernel)
  obtain ⟨c', s', h', -⟩ :=
    Context.answers_of_answer? stray.prune {} (fun _ => true) (by decide +kernel)
  obtain ⟨-, hall⟩ :=
    dead_code_inert (w := { funcs := #[stray] }) (f := 0) (o := {}) hv ht (by decide)
  obtain ⟨-, -, hedges, res, err, w', hrun, hdead⟩ := hall c s c' s' h h'
  refine ⟨hv, ht, by decide +kernel, c, s, c', s', ⟨h, h', by simpa using hins⟩, ?_, res,
    err, w', hrun, ?_⟩
  · exact hedges 3 (by decide +kernel) 4 (by decide +kernel)
  · exact (hdead 5 (by decide) (by decide +kernel)).2

end Workspace
end CodeMotion
