import Mathlib
import CodeMotion.Proofs.Building

/-! However a builder is used, also if calls fail half-way, it leaves a consistent function: the
predecessor lists say the same as the terminators, every listed instruction stands in one place, in
the block that it names, and lists of its kind only. Every number is given out once. -/

namespace CodeMotion

namespace Func

variable {fn g : Func} {b c : BlockId} {i : InstrId} {ins : Instr} {f : Block → Block}

structure Filed (fn : Func) : Prop extends fn.Housed where
  layout : fn.layout = (List.range fn.blocks.size).map (· + 1)
  nodup : ∀ b, (fn.listed b).Nodup
  phis : ∀ b, ∀ i ∈ (fn.block b).phis,
    (fn.instr i).op = .phi ∧ (fn.instr i).args.length = (fn.instr i).incoming.length
  term : ∀ b, ∀ i ∈ (fn.block b).term.toList,
    (fn.instr i).op.isTerminator = true ∧ ∀ s ∈ (fn.instr i).targets, fn.hasBlock s = true

structure Linked (fn : Func) : Prop where
  mem_preds : ∀ b c, c ∈ (fn.block b).preds ↔ b ∈ fn.succs c
  nodup_preds : ∀ b, (fn.block b).preds.Nodup

structure Consistent (fn : Func) : Prop extends fn.Filed, fn.Linked

structure Takes (fn : Func) (b : BlockId) (ins : Instr) (f : Block → Block) : Prop
    extends fn.Lists b ins f where
  perm : ((f (fn.block b)).phis ++ (f (fn.block b)).body ++ (f (fn.block b)).term.toList).Perm
    ((fn.instrs.size + 1) :: fn.listed b)
  phis : ∀ i ∈ (f (fn.block b)).phis, i ∈ (fn.block b).phis ∨
    i = fn.instrs.size + 1 ∧ ins.op = .phi ∧ ins.args.length = ins.incoming.length
  term : ∀ i ∈ (f (fn.block b)).term.toList, i ∈ (fn.block b).term.toList ∨
    i = fn.instrs.size + 1 ∧ ins.op.isTerminator = true ∧ ∀ s ∈ ins.targets, fn.hasBlock s = true

theorem Lists.of_perm
    (hp : ((f (fn.block b)).phis ++ (f (fn.block b)).body ++ (f (fn.block b)).term.toList).Perm
      ((fn.instrs.size + 1) :: fn.listed b))
    (hbody : ∀ i ∈ (f (fn.block b)).body, i ∈ (fn.block b).body ∨ i = fn.instrs.size + 1 ∧
      ins.op ≠ .phi ∧ ins.op.isTerminator = false) :
    fn.Lists b ins f :=
  ⟨fun _ hi => (List.mem_cons.1 (hp.mem_iff.1 hi)).symm, hbody⟩

theorem mem_listed_of_phis (h : i ∈ (fn.block b).phis) : i ∈ fn.listed b :=
  List.mem_append_left _ (List.mem_append_left _ h)

theorem mem_listed_of_term (h : i ∈ (fn.block b).term.toList) : i ∈ fn.listed b :=
  List.mem_append_right _ h

theorem takes_term (hnone : (fn.block b).term = none) (hop : ins.op.isTerminator = true)
    (hs : ∀ s ∈ ins.targets, fn.hasBlock s = true) :
    fn.Takes b ins ({ · with term := some (fn.instrs.size + 1) }) := by
  have hperm : ((fn.block b).phis ++ (fn.block b).body ++ [fn.instrs.size + 1]).Perm
      ((fn.instrs.size + 1) :: fn.listed b) := by
    rw [listed, hnone, Option.toList_none, List.append_nil]
    exact List.perm_append_singleton _ _
  refine ⟨.of_perm hperm fun i hi => Or.inl hi, hperm, fun i hi => Or.inl hi, fun i hi => ?_⟩
  simp only [Option.toList_some, List.mem_singleton] at hi
  exact Or.inr ⟨hi, hop, hs⟩

namespace Filed

variable (h : fn.Filed)
include h

theorem mem_layout {b : Nat} : b ∈ fn.layout ↔ fn.hasBlock b = true := by
  rw [h.layout, hasBlock_iff, List.mem_map]
  simp only [List.mem_range]
  refine ⟨fun ⟨k, hk, he⟩ => ?_, fun hb => ⟨b - 1, by omega, Nat.sub_add_cancel hb.1⟩⟩
  rw [← he]
  exact ⟨Nat.succ_pos k, hk⟩

theorem nodup_layout : fn.layout.Nodup := by
  rw [h.layout]
  exact List.nodup_range.map fun _ _ he => Nat.succ.inj he

/-- No instruction is listed twice in the whole function. -/
theorem once : (fn.layout.flatMap fn.listed).Nodup := by
  apply List.nodup_flatMap.2
  refine ⟨fun b _ => h.nodup b, ?_⟩
  apply h.nodup_layout.pairwise_of_forall_ne
  intro b _ c _ hne i hib hic
  have hb := h.home b i hib
  rw [h.home c i hic, Option.some.injEq] at hb
  exact hne hb.symm

theorem gain (hb : fn.hasBlock b = true) (ht : fn.Takes b ins f) : (fn.gain b ins f).Filed where
  toHoused := h.toHoused.gain hb ht.toLists
  layout := by
    show fn.layout = (List.range (fn.blocks.modify b f).size).map (· + 1)
    rw [Table.size_modify]
    exact h.layout
  nodup c := by
    unfold Func.listed
    rw [block_gain hb]
    split
    · next hc =>
      subst hc
      apply ht.perm.nodup_iff.2
      exact List.nodup_cons.2 ⟨fun hm => Nat.lt_irrefl _ (h.lt_new hm), h.nodup c⟩
    · exact h.nodup c
  phis := h.forall_gain (l := Block.phis)
    (P := fun _ ins => ins.op = .phi ∧ ins.args.length = ins.incoming.length) hb
    (fun _ _ hi => mem_listed_of_phis hi) h.phis ht.phis
  term := by
    simp only [hasBlock_gain]
    exact h.forall_gain (l := fun blk => blk.term.toList)
      (P := fun _ ins => ins.op.isTerminator = true ∧ ∀ s ∈ ins.targets, fn.hasBlock s = true) hb
      (fun _ _ hi => mem_listed_of_term hi) h.term ht.term

theorem framed (hf : fn.Framed g) : g.Filed := by
  refine ⟨h.toHoused.framed hf, ?_, fun b => ?_, fun b i => ?_, fun b i => ?_⟩
  · rw [hf.layout, hf.blocks_size]
    exact h.layout
  · rw [hf.listed_eq]
    exact h.nodup b
  · rw [hf.phis, hf.instr]
    exact h.phis b i
  · rw [hf.term, hf.instr]
    simp only [hf.hasBlock]
    exact h.term b i

end Filed

/-- A new block lists nothing, as the number that names it did before. -/
theorem block_createBlock (fn : Func) (name : String) (b : Nat) :
    ∃ n, (fn.createBlock name).2.block b = { fn.block b with name := n } := by
  have hblock : (fn.createBlock name).2.block b = if b = fn.blocks.size + 1 then { name }
      else fn.block b :=
    block_newBlock name
  rw [hblock]
  split
  · next hb =>
    have hempty : fn.block b = {} := by
      apply block_eq_default
      rw [← Bool.not_eq_true, hasBlock_iff, hb]
      omega
    rw [hempty]
    exact ⟨name, rfl⟩
  · exact ⟨(fn.block b).name, rfl⟩

/-- The predecessor lists still fit if they and the targets stay. -/
theorem Linked.congr (h : fn.Linked) (hpreds : ∀ b, (g.block b).preds = (fn.block b).preds)
    (htargets : ∀ b, g.targets b = fn.targets b) : g.Linked := by
  refine ⟨fun b c => ?_, fun b => ?_⟩
  · rw [hpreds, succs, htargets]
    exact h.mem_preds b c
  · rw [hpreds]
    exact h.nodup_preds b

namespace Consistent

variable (h : fn.Consistent)
include h

theorem not_mem_preds (ht : (fn.block b).term = none) (c : BlockId) : b ∉ (fn.block c).preds := by
  rw [h.mem_preds, succs, targets_of_none ht]
  simp

/-- More blocks and more instructions do no harm as long as nothing is listed that was not
before. -/
theorem grow (hblock : ∀ b, ∃ name, g.block b = { fn.block b with name })
    (hlayout : g.layout = (List.range g.blocks.size).map (· + 1))
    (hsize : fn.blocks.size ≤ g.blocks.size)
    (hinstr : ∀ i, fn.hasInstr i = true → g.instr i = fn.instr i) : g.Consistent := by
  have hold : ∀ {b i}, i ∈ fn.listed b → g.instr i = fn.instr i :=
    fun hi => hinstr _ (hasInstr_of_block (h.home _ _ hi))
  have hphis : ∀ b, (g.block b).phis = (fn.block b).phis :=
    fun b => (hblock b).elim fun _ hb => by rw [hb]
  have hbody : ∀ b, (g.block b).body = (fn.block b).body :=
    fun b => (hblock b).elim fun _ hb => by rw [hb]
  have hterm : ∀ b, (g.block b).term = (fn.block b).term :=
    fun b => (hblock b).elim fun _ hb => by rw [hb]
  have hpreds : ∀ b, (g.block b).preds = (fn.block b).preds :=
    fun b => (hblock b).elim fun _ hb => by rw [hb]
  have hlisted : ∀ b, g.listed b = fn.listed b := fun b => by
    rw [listed, hphis, hbody, hterm, listed]
  have htargets : ∀ b, g.targets b = fn.targets b := fun b =>
    targets_congr (hterm b) fun t ht => by rw [hold (mem_listed_of_term (Option.mem_toList.2 ht))]
  refine ⟨⟨⟨fun b i hi => ?_, fun b i hi => ?_⟩, hlayout, fun b => ?_, fun b i hi => ?_,
    fun b i hi => ?_⟩, h.toLinked.congr hpreds htargets⟩
  · rw [hlisted] at hi
    rw [hold hi]
    exact h.home b i hi
  · rw [hbody] at hi
    rw [hold (mem_listed_of_body hi)]
    exact h.body b i hi
  · rw [hlisted]
    exact h.nodup b
  · rw [hphis] at hi
    rw [hold (mem_listed_of_phis hi)]
    exact h.phis b i hi
  · rw [hterm] at hi
    rw [hold (mem_listed_of_term hi)]
    refine ⟨(h.term b i hi).1, fun s hs => ?_⟩
    have hs' := hasBlock_iff.1 ((h.term b i hi).2 s hs)
    exact hasBlock_iff.2 ⟨hs'.1, hs'.2.trans hsize⟩

theorem newInstr (ins : Instr) : (fn.newInstr ins).2.Consistent := by
  refine h.grow (fun b => ⟨(fn.block b).name, rfl⟩) h.layout (Nat.le_refl _) fun i hi => ?_
  rw [instr_newInstr, if_neg (Nat.ne_of_lt (Nat.lt_succ_of_le (hasInstr_iff.1 hi).2))]

theorem createBlock (name : String) : (fn.createBlock name).2.Consistent := by
  have hsize : (fn.createBlock name).2.blocks.size = fn.blocks.size + 1 := Table.size_push _ _
  refine h.grow (block_createBlock fn name) ?_ (by omega) fun _ _ => rfl
  rw [hsize, List.range_succ, List.map_append, ← h.layout]
  rfl

/-- A block takes in an instruction that is no terminator. -/
theorem gain (hb : fn.hasBlock b = true) (ht : fn.Takes b ins f)
    (hterm : (f (fn.block b)).term = (fn.block b).term)
    (hpreds : (f (fn.block b)).preds = (fn.block b).preds) : (fn.gain b ins f).Consistent := by
  refine ⟨h.toFiled.gain hb ht, h.toLinked.congr (fun c => ?_) fun c =>
    targets_congr ?_ fun t hm => ?_⟩
  · rw [block_gain hb]
    split
    · next hc => rw [hc, hpreds]
    · rfl
  · rw [block_gain hb]
    split
    · next hc => rw [hc, hterm]
    · rfl
  · rw [instr_gain, if_neg (Nat.ne_of_lt (h.lt_new (mem_listed_of_term (Option.mem_toList.2 hm))))]

/-- A block is ended, and it has been entered into the lists of its successors. -/
theorem terminate (hb : fn.hasBlock b = true) (hnone : (fn.block b).term = none)
    (hop : ins.op.isTerminator = true) (hs : ∀ s ∈ ins.targets, fn.hasBlock s = true)
    (hf : (fn.gain b ins ({ · with term := some (fn.instrs.size + 1) })).Framed g)
    (hpreds : ∀ c, (g.block c).preds = (fn.block c).preds ++ if c ∈ ins.targets then [b] else []) :
    g.Consistent := by
  have hself : ∀ c, g.targets c = if c = b then ins.targets else fn.targets c := fun c => by
    rw [hf.targets]
    split
    · next hc =>
      rw [targets_of_term (i := fn.instrs.size + 1), instr_gain, if_pos rfl]
      rw [block_gain hb, if_pos hc]
    · next hc =>
      refine targets_congr (by rw [block_gain hb, if_neg hc]) fun t ht => ?_
      rw [instr_gain, if_neg
        (Nat.ne_of_lt (h.lt_new (mem_listed_of_term (Option.mem_toList.2 ht))))]
  refine ⟨(h.toFiled.gain hb (takes_term hnone hop hs)).framed hf, fun c a => ?_, fun c => ?_⟩
  · rw [hpreds, List.mem_append, mem_succs, hself, h.mem_preds, mem_succs]
    by_cases ha : a = b
    · have hno : c ∉ fn.targets b := by
        rw [targets_of_none hnone]
        simp
      rw [if_pos ha, ha]
      by_cases hc : c ∈ ins.targets <;> simp [hc, hno]
    · rw [if_neg ha]
      by_cases hc : c ∈ ins.targets <;> simp [hc, ha]
  · rw [hpreds]
    have hno := h.not_mem_preds hnone c
    split
    · apply List.nodup_append.2
      refine ⟨h.nodup_preds c, List.nodup_singleton b, fun a ha d hd he => hno ?_⟩
      rw [← List.mem_singleton.1 hd, ← he]
      exact ha
    · simpa using h.nodup_preds c

end Consistent

/-- A consistent function can be rebuilt, which changes the order in the predecessor lists
at most. -/
theorem Consistent.rebuild_ok (h : fn.Consistent) :
    ∃ g, rebuild fn = .ok ⟨⟩ g ∧ fn.Framed g ∧ ∀ b, (g.block b).preds.Perm (fn.block b).preds := by
  have hsuccs : ∀ b, ∀ s ∈ fn.succs b, fn.hasBlock s = true := fun b s hs => by
    obtain ⟨t, ht⟩ := exists_term (mem_succs.1 hs)
    rw [mem_succs, targets_of_term ht] at hs
    exact (h.term b t (Option.mem_toList.2 ht)).2 s hs
  obtain ⟨g, hrun, hf, hpreds⟩ :=
    Func.rebuild_ok (fun b hb => h.mem_layout.1 hb) fun b _ => hsuccs b
  refine ⟨g, hrun, hf, fun b => ?_⟩
  by_cases hb : b ∈ fn.layout
  · rw [hpreds b hb]
    apply (List.perm_ext_iff_of_nodup (h.nodup_layout.filter _) (h.nodup_preds b)).2
    intro c
    rw [List.mem_filter, h.mem_preds, decide_eq_true_eq]
    refine ⟨And.right, fun hc => ⟨?_, hc⟩⟩
    -- a block that leads somewhere has a terminator, so it exists
    obtain ⟨t, ht⟩ := exists_term (mem_succs.1 hc)
    rw [h.mem_layout]
    by_contra hno
    rw [block_eq_default (by simpa using hno)] at ht
    cases ht
  · rw [h.mem_layout, Bool.not_eq_true] at hb
    rw [block_eq_default hb, block_eq_default (by rw [hf.hasBlock, hb])]

end Func

namespace Builder

variable {bd : Builder} {b : BlockId} {ins : Instr}

/-- The ways to use a builder: new blocks, another block to add to, and new instructions. -/
inductive Call
  | createBlock (name : String)
  | setBlock (b : Option BlockId)
  | alloca
  | load (addr : Value)
  | store (v addr : Value)
  | lea (base offset : Value)
  | unary (op : Op) (v : Value)
  | binary (op : Op) (x y : Value)
  | call (callee : String) (args : List Value)
  | phi (args : List (BlockId ⊕ Value))
  | jump (target : BlockId)
  | branch (cond : Value) (yes no : BlockId)
  | switch (v : Value) (other : BlockId) (cases : List Int) (targets : List BlockId)
  | ret (args : List Value)
  | unreachable

def Call.blocks : Call → List BlockId
  | setBlock b => b.toList
  | phi args => args.filterMap Sum.getLeft?
  | jump target => [target]
  | branch _ yes no => [yes, no]
  | switch _ other _ targets => other :: targets
  | _ => []

/-- The number of the new instruction, if there is one, and the builder that is left, also by a
fault. -/
def answered (x : Change Builder InstrId) (bd : Builder) : Option (BlockId ⊕ InstrId) × Builder :=
  match x bd with
  | .ok i bd' => (some (.inr i), bd')
  | .error _ bd' => (none, bd')

def Call.apply : Call → Builder → Option (BlockId ⊕ InstrId) × Builder
  | createBlock name, bd =>
    (some (.inl (bd.func.createBlock name).1), { bd with func := (bd.func.createBlock name).2 })
  | setBlock b, bd => (none, { bd with cursor := b })
  | alloca, bd => answered Builder.alloca bd
  | load addr, bd => answered (Builder.load addr) bd
  | store v addr, bd => answered (Builder.store v addr) bd
  | lea base offset, bd => answered (Builder.lea base offset) bd
  | unary op v, bd => answered (Builder.unary op v) bd
  | binary op x y, bd => answered (Builder.binary op x y) bd
  | call callee args, bd => answered (Builder.call callee args) bd
  | phi args, bd => answered (Builder.phi args) bd
  | jump target, bd => answered (Builder.jump target) bd
  | branch cond yes no, bd => answered (Builder.branch cond yes no) bd
  | switch v other cases targets, bd => answered (Builder.switch v other cases targets) bd
  | ret args, bd => answered (Builder.ret args) bd
  | unreachable, bd => answered Builder.unreachable bd

/-- What a call can do to a builder. A call that fails may have taken a number for an instruction
that stands nowhere. -/
inductive Effect (bd : Builder) : Option (BlockId ⊕ InstrId) × Builder → Prop
  | refused : Effect bd (none, bd)
  | moved (b : Option BlockId) (hb : ∀ c ∈ b, bd.func.hasBlock c = true) :
    Effect bd (none, { bd with cursor := b })
  | spent (ins : Instr) : Effect bd (none, { bd with func := (bd.func.newInstr ins).2 })
  | created (name : String) :
    Effect bd (some (.inl (bd.func.blocks.size + 1)),
      { bd with func := (bd.func.createBlock name).2 })
  | gained {b : BlockId} {ins : Instr} {f : Block → Block} (hb : bd.cursor = some b) (ht :
    bd.func.Takes b ins f)
    (hterm : (f (bd.func.block b)).term = (bd.func.block b).term) (hpreds :
      (f (bd.func.block b)).preds = (bd.func.block b).preds) :
    Effect bd (some (.inr (bd.func.instrs.size + 1)), { bd with func := bd.func.gain b ins f })
  | ended {b : BlockId} {ins : Instr} {g : Func} (hb : bd.cursor = some b) (hnone :
    (bd.func.block b).term = none)
    (hop : ins.op.isTerminator = true) (hs : ∀ s ∈ ins.targets, bd.func.hasBlock s = true)
    (hf : (bd.func.gain b ins ({ · with term := some (bd.func.instrs.size + 1) })).Framed g)
    (hpreds : ∀ c, (g.block c).preds = (bd.func.block c).preds ++ if c ∈ ins.targets
      then [b] else []) :
    Effect bd (some (.inr (bd.func.instrs.size + 1)), { bd with func := g })

theorem answered_ok {x : Change Builder InstrId} {i : InstrId} {bd' : Builder}
    (h : x bd = .ok i bd') : answered x bd = (some (.inr i), bd') := by
  rw [answered, h]

theorem answered_error {x : Change Builder InstrId} {e : Fault} {bd' : Builder}
    (h : x bd = .error e bd') : answered x bd = (none, bd') := by
  rw [answered, h]

theorem effect_refused {x : Change Builder InstrId} {e : Fault} (h : x bd = .error e bd) :
    Effect bd (answered x bd) := by
  rw [answered_error h]
  exact .refused

theorem effect_spent {x : Change Builder InstrId} {e : Fault} (ins : Instr)
    (h : x bd = .error e { bd with func := (bd.func.newInstr ins).2 }) :
    Effect bd (answered x bd) := by
  rw [answered_error h]
  exact .spent ins

theorem effect_emit (bd : Builder) (hop : ins.op ≠ .phi ∧ ins.op.isTerminator = false) :
    Effect bd (answered (emit ins) bd) := by
  obtain ⟨fn, cursor⟩ := bd
  cases cursor with
  | none => exact .refused
  | some b =>
    cases ht : (fn.block b).term with
    | some t =>
      have hrun : emit ins ⟨fn, some b⟩ = .error (.alreadyTerminated (fn.blockText b))
          ⟨fn, some b⟩ := by
        unfold emit
        rw [Change.get_bind]
        simp only [ht, Option.isSome_some, if_true]
        rfl
      exact effect_refused hrun
    | none =>
      rw [answered_ok (emit_ok ht)]
      have hperm : ((fn.block b).phis ++ ((fn.block b).body ++ [fn.instrs.size + 1]) ++
        (fn.block b).term.toList).Perm
          ((fn.instrs.size + 1) :: fn.listed b) := by
        rw [← List.append_assoc, List.append_assoc _ [_]]
        exact List.perm_middle
      refine .gained rfl ⟨.of_perm hperm fun i hi => ?_, hperm, fun i hi => Or.inl hi,
        fun i hi => Or.inl hi⟩ rfl rfl
      exact (List.mem_append.1 hi).imp id fun hi => ⟨List.mem_singleton.1 hi, hop⟩

theorem effect_phi (bd : Builder) (args : List (BlockId ⊕ Value)) :
    Effect bd (answered (phi args) bd) := by
  obtain ⟨fn, cursor⟩ := bd
  by_cases hlen : args.length % 2 = 0
  · cases hpairs : phiPairs args with
    | error e =>
      have hrun : phi args ⟨fn, cursor⟩ = .error e ⟨(fn.newInstr { op := .phi, block := cursor }).2,
          cursor⟩ := by
        have hnew : newInstr { op := .phi, block := cursor } ⟨fn, cursor⟩ =
            .ok (fn.instrs.size + 1) ⟨(fn.newInstr { op := .phi, block := cursor }).2, cursor⟩ :=
          rfl
        unfold phi
        simp only [hlen, ne_eq, not_true_eq_false, if_false, Change.get_bind]
        rw [Change.bind_eq hnew, hpairs]
        rfl
      exact effect_spent _ hrun
    | ok pairs =>
      cases cursor with
      | none =>
        have hrun : phi args ⟨fn, none⟩ = .error .dangling
            ⟨(fn.newInstr { op := .phi, args := pairs.map (·.2), incoming := pairs.map (·.1) }).2,
              none⟩ := by
          have hnew : newInstr { op := .phi, block := none } ⟨fn, none⟩ =
              .ok (fn.instrs.size + 1) ⟨(fn.newInstr { op := .phi }).2, none⟩ := rfl
          unfold phi
          simp only [hlen, ne_eq, not_true_eq_false, if_false, Change.get_bind]
          rw [Change.bind_eq hnew, hpairs, Change.check_bind, Change.modify_bind]
          show EStateM.Result.error _
            (Builder.mk { fn with instrs := (fn.instrs.push _).modify (fn.instrs.size + 1) _ }
            none) = _
          rw [Table.modify_push]
          rfl
        exact effect_spent _ hrun
      | some b =>
        rw [answered_ok (phi_ok hlen hpairs)]
        have hperm : ((fn.block b).phis ++ [fn.instrs.size + 1] ++ (fn.block b).body ++
          (fn.block b).term.toList).Perm
            ((fn.instrs.size + 1) :: fn.listed b) := by
          rw [List.append_assoc, List.append_assoc, Func.listed, List.append_assoc]
          exact List.perm_middle
        refine .gained rfl ⟨.of_perm hperm fun i hi => Or.inl hi, hperm, fun i hi => ?_,
          fun i hi => Or.inl hi⟩ rfl rfl
        refine (List.mem_append.1 hi).imp id fun hi => ⟨List.mem_singleton.1 hi, rfl, ?_⟩
        rw [List.length_map, List.length_map]
  · have hrun : phi args ⟨fn, cursor⟩ = .error .oddPhi ⟨fn, cursor⟩ := by
      unfold phi
      simp only [hlen, ne_eq, not_false_eq_true, if_true]
      rfl
    exact effect_refused hrun

theorem effect_terminate (h : bd.func.Consistent)
    (hcursor : ∀ b ∈ bd.cursor, bd.func.hasBlock b = true) (hop : ins.op.isTerminator = true)
    (hs : ∀ s ∈ ins.targets, bd.func.hasBlock s = true) :
    Effect bd (answered (terminate ins) bd) := by
  obtain ⟨fn, cursor⟩ := bd
  cases cursor with
  | none => exact .spent ins
  | some b =>
    cases ht : (fn.block b).term with
    | some t =>
      have hrun : ∃ e, terminate ins ⟨fn, some b⟩ = .error e ⟨(fn.newInstr ins).2, some b⟩ := by
        have hnew : newInstr ins ⟨fn, some b⟩ =
            .ok (fn.instrs.size + 1) ⟨(fn.newInstr ins).2, some b⟩ :=
          rfl
        have hterm : ((fn.newInstr ins).2.block b).term = some t := ht
        unfold terminate
        rw [Change.bind_eq hnew, Change.get_bind]
        simp only [hterm, Option.isSome_some, if_true]
        exact ⟨_, rfl⟩
      obtain ⟨e, hrun⟩ := hrun
      exact effect_spent ins hrun
    | none =>
      obtain ⟨g, hrun, hf, hpreds⟩ :=
        terminate_ok (hcursor b rfl) ht fun s hm => ⟨hs s hm, h.not_mem_preds ht s⟩
      rw [answered_ok hrun]
      exact .ended rfl ht hop hs hf hpreds

theorem Call.effect (call : Call) (h : bd.func.Consistent)
    (hcursor : ∀ b ∈ bd.cursor, bd.func.hasBlock b = true)
    (hb : ∀ b ∈ call.blocks, bd.func.hasBlock b = true) : Effect bd (call.apply bd) := by
  cases call with
  | createBlock name => exact .created name
  | setBlock b => exact .moved b fun c hc => hb c (Option.mem_toList.2 hc)
  | alloca => exact effect_emit bd ⟨by simp, rfl⟩
  | load addr => exact effect_emit bd ⟨by simp, rfl⟩
  | store v addr => exact effect_emit bd ⟨by simp, rfl⟩
  | lea base offset => exact effect_emit bd ⟨by simp, rfl⟩
  | call callee args => exact effect_emit bd ⟨by simp, rfl⟩
  | unary op v =>
    cases hop : op.isUnary with
    | false => exact effect_refused (e := .notUnary op) (by simp only [Builder.unary, hop]; rfl)
    | true =>
      have hrun : Builder.unary op v = emit { op, args := [v] } := by
        simp only [Builder.unary, hop]
        rfl
      rw [Call.apply, hrun]
      exact effect_emit bd (by cases op <;> simp_all [Op.isUnary, Op.isTerminator])
  | binary op x y =>
    cases hop : op.isBinary with
    | false => exact effect_refused (e := .notBinary op) (by simp only [Builder.binary, hop]; rfl)
    | true =>
      have hrun : Builder.binary op x y = emit { op, args := [x, y] } := by
        simp only [Builder.binary, hop]
        rfl
      rw [Call.apply, hrun]
      exact effect_emit bd (by cases op <;> simp_all [Op.isBinary, Op.isTerminator])
  | phi args => exact effect_phi bd args
  | jump target => exact effect_terminate h hcursor rfl hb
  | branch cond yes no => exact effect_terminate h hcursor rfl hb
  | switch v other cases targets =>
    by_cases hlen : cases.length = targets.length
    · have hrun : Builder.switch v other cases targets =
          terminate
            { op := .switch, args := v :: cases.map .const, targets := other :: targets } := by
        simp only [Builder.switch, hlen, ne_eq, not_true_eq_false, if_false]
      rw [Call.apply, hrun]
      exact effect_terminate h hcursor rfl hb
    · exact effect_refused (e := .switchMismatch) (by
        simp only [Builder.switch, hlen, ne_eq, not_false_eq_true, if_true]
        rfl)
  | ret args => exact effect_terminate h hcursor rfl hb
  | unreachable => exact effect_terminate h hcursor rfl hb

/-- What holds after every call; `out` are the numbers that were given out. -/
structure Tracked (bd : Builder) (out : List (BlockId ⊕ InstrId)) : Prop where
  consistent : bd.func.Consistent
  cursor : ∀ b ∈ bd.cursor, bd.func.hasBlock b = true
  nodup : out.Nodup
  blocks : ∀ b, .inl b ∈ out ↔ bd.func.hasBlock b = true
  instrs : ∀ i, .inr i ∈ out → bd.func.hasInstr i = true
  listed : ∀ b, ∀ i ∈ bd.func.listed b, .inr i ∈ out

namespace Tracked

variable {out : List (BlockId ⊕ InstrId)} (h : Tracked bd out)
include h

/-- A new instruction is listed. -/
theorem take {g : Func} (hg : g.Consistent) (hblocks : g.blocks.size = bd.func.blocks.size)
    (hinstrs : g.instrs.size = bd.func.instrs.size + 1)
    (hlisted : ∀ b, ∀ i ∈ g.listed b, i ∈ bd.func.listed b ∨ i = bd.func.instrs.size + 1) :
    Tracked { bd with func := g } (out ++ [.inr (bd.func.instrs.size + 1)]) := by
  have hhas : ∀ b, g.hasBlock b = bd.func.hasBlock b := fun b => by
    rw [Bool.eq_iff_iff, Func.hasBlock_iff, Func.hasBlock_iff, hblocks]
  refine ⟨hg, fun b hb => (hhas b).trans (h.cursor b hb), ?_, fun b => ?_, fun i hi => ?_,
    fun b i hi => ?_⟩
  · refine List.nodup_append.2 ⟨h.nodup, List.nodup_singleton _, fun a ha d hd he => ?_⟩
    rw [he, List.mem_singleton.1 hd] at ha
    have := (Func.hasInstr_iff.1 (h.instrs _ ha)).2
    omega
  · rw [hhas, ← h.blocks]
    simp
  · rw [Func.hasInstr_iff, hinstrs]
    rcases List.mem_append.1 hi with hi | hi
    · have := Func.hasInstr_iff.1 (h.instrs i hi)
      exact ⟨this.1, Nat.le_succ_of_le this.2⟩
    · rw [Sum.inr.inj (List.mem_singleton.1 hi)]
      exact ⟨Nat.succ_pos _, Nat.le_refl _⟩
  · rcases hlisted b i hi with hi | hi
    · exact List.mem_append_left _ (h.listed b i hi)
    · exact List.mem_append_right _ (by rw [hi]; exact List.mem_singleton_self _)

theorem createBlock (name : String) :
    Tracked { bd with func := (bd.func.createBlock name).2 }
      (out ++ [.inl (bd.func.blocks.size + 1)]) := by
  have hsize : (bd.func.createBlock name).2.blocks.size = bd.func.blocks.size + 1 :=
    Table.size_push _ _
  have hhas : ∀ b : Nat, (bd.func.createBlock name).2.hasBlock b = true ↔
      bd.func.hasBlock b = true ∨ b = bd.func.blocks.size + 1 := fun b => by
    rw [Func.hasBlock_iff, Func.hasBlock_iff, hsize]
    omega
  refine ⟨h.consistent.createBlock name, fun b hb => (hhas b).2 (Or.inl (h.cursor b hb)), ?_,
    fun b => ?_, fun i hi => ?_, fun b i hi => ?_⟩
  · refine List.nodup_append.2 ⟨h.nodup, List.nodup_singleton _, fun a ha d hd he => ?_⟩
    rw [he, List.mem_singleton.1 hd, h.blocks, Func.hasBlock_iff] at ha
    omega
  · rw [hhas, List.mem_append, h.blocks, List.mem_singleton, Sum.inl.injEq]
  · refine h.instrs i ((List.mem_append.1 hi).resolve_right fun hi => ?_)
    cases List.mem_singleton.1 hi
  · obtain ⟨n, hn⟩ := bd.func.block_createBlock name b
    rw [Func.listed, hn] at hi
    exact List.mem_append_left _ (h.listed b i hi)

/-- Whatever a call does, it leaves a consistent function and a number that was not given out
before. -/
theorem step {a : Option (BlockId ⊕ InstrId)} {bd' : Builder} (he : Effect bd (a, bd')) :
    Tracked bd' (out ++ a.toList) := by
  cases he with
  | refused => simpa using h
  | moved b hb =>
    rw [Option.toList_none, List.append_nil]
    exact { h with cursor := hb }
  | spent ins =>
    rw [Option.toList_none, List.append_nil]
    refine ⟨h.consistent.newInstr ins, h.cursor, h.nodup, h.blocks, fun i hi => ?_, h.listed⟩
    have := Func.hasInstr_iff.1 (h.instrs i hi)
    exact Func.hasInstr_iff.2 ⟨this.1,
      this.2.trans (by rw [Func.newInstr, Table.size_push]; exact Nat.le_succ _)⟩
  | created name => exact h.createBlock name
  | @gained b ins f hb ht hterm hpreds =>
    have hhas := h.cursor b hb
    refine h.take (h.consistent.gain hhas ht hterm hpreds) ?_ ?_ fun c i hi => ht.mem_listed hhas hi
    · exact Table.size_modify _ _ _
    · exact Table.size_push _ _
  | @ended b ins g hb hnone hop hs hf hpreds =>
    have hhas := h.cursor b hb
    refine h.take (h.consistent.terminate hhas hnone hop hs hf hpreds) ?_ ?_ fun c i hi => ?_
    · exact hf.blocks_size.trans (Table.size_modify _ _ _)
    · rw [hf.instrs]
      exact Table.size_push _ _
    · refine (Func.takes_term hnone hop hs).mem_listed hhas (c := c) ?_
      rw [Func.listed, hf.phis, hf.body, hf.term] at hi
      exact hi

end Tracked

def run : List Call → Builder × List (BlockId ⊕ InstrId) → Builder × List (BlockId ⊕ InstrId)
  | [], s => s
  | call :: rest, (bd, out) => run rest ((call.apply bd).2, out ++ (call.apply bd).1.toList)

/-- Each call names blocks only that have been created before. -/
def Fits : List Call → Builder → Prop
  | [], _ => True
  | call :: rest, bd => (∀ b ∈ call.blocks, bd.func.hasBlock b = true) ∧ Fits rest (call.apply bd).2

instance Fits.decidable : ∀ (calls : List Call) (bd : Builder), Decidable (Fits calls bd)
  | [], _ => .isTrue trivial
  | call :: rest, bd =>
    have := Fits.decidable rest (call.apply bd).2
    inferInstanceAs (Decidable (_ ∧ _))

theorem Tracked.run {calls : List Call} {out : List (BlockId ⊕ InstrId)} (h : Tracked bd out)
    (hf : Fits calls bd) : Tracked (run calls (bd, out)).1 (run calls (bd, out)).2 := by
  induction calls generalizing bd out with
  | nil => exact h
  | cons call rest ih => exact ih (h.step (call.effect h.consistent h.cursor hf.1)) hf.2

theorem tracked_start (name : String) (params : List String) :
    Tracked ⟨{ name, params }, none⟩ [] := by
  have hblock : ∀ b, ({ name, params } : Func).block b = {} := fun b => by
    rw [Func.block, Table.get?_empty]
    rfl
  have hlisted : ∀ b, ({ name, params } : Func).listed b = [] := fun b => by
    rw [Func.listed, hblock]
    rfl
  have htargets : ∀ b, ({ name, params } : Func).targets b = [] := fun b => by
    rw [Func.targets, hblock]
  have hfiled : ({ name, params } : Func).Filed := by
    refine ⟨⟨fun b i hi => ?_, fun b i hi => ?_⟩, rfl, fun b => ?_, fun b i hi => ?_,
      fun b i hi => ?_⟩
    · rw [hlisted] at hi
      cases hi
    · rw [hblock] at hi
      cases hi
    · rw [hlisted]
      exact List.nodup_nil
    · rw [hblock] at hi
      cases hi
    · rw [hblock] at hi
      cases hi
  have hlinked : ({ name, params } : Func).Linked := by
    refine ⟨fun b c => ?_, fun b => ?_⟩
    · rw [hblock, Func.mem_succs, htargets]
      simp
    · rw [hblock]
      exact List.nodup_nil
  refine ⟨⟨hfiled, hlinked⟩, by simp, List.nodup_nil, fun b => ?_, by simp, fun b i hi => ?_⟩
  · rw [Func.hasBlock_iff]
    refine iff_of_false (by simp) fun hb => ?_
    exact absurd hb.1 (Nat.not_lt_of_le hb.2)
  · rw [hlisted] at hi
    cases hi

/-- Every sequence of calls of a builder, among them calls that fail, leaves a consistent function.
The numbers of its blocks and instructions were all given out, each once, and rebuilding it only
changes the order of predecessor lists. -/
theorem run_consistent (name : String) (params : List String) (calls : List Call)
    (h : Fits calls ⟨{ name, params }, none⟩) :
    ∃ bd out, run calls (⟨{ name, params }, none⟩, []) = (bd, out) ∧ bd.func.Consistent ∧
      (bd.func.layout.flatMap bd.func.listed).Nodup ∧ out.Nodup ∧
      (∀ b, bd.func.hasBlock b = true → .inl b ∈ out ∧ ∀ i ∈ bd.func.listed b, .inr i ∈ out) ∧
      ∃ g, Func.rebuild bd.func = .ok ⟨⟩ g ∧ bd.func.Framed g ∧
        ∀ b, (g.block b).preds.Perm (bd.func.block b).preds := by
  have ht := (tracked_start name params).run h
  exact ⟨_, _, rfl, ht.consistent, ht.consistent.once, ht.nodup, fun b hb => ⟨(ht.blocks b).2 hb,
    ht.listed b⟩, ht.consistent.rebuild_ok⟩

/-- A loop that is entered through several cases of a switch. Calls fail before there is a block,
with operations and phis that are not accepted, and in a block that is already ended. -/
def stumbling : List Call :=
  [.alloca, .phi [], .ret [], .createBlock "entry", .createBlock "loop", .createBlock "exit",
    .setBlock (some 1),
    .binary .load (.const 1) (.const 2), .alloca, .switch (.const 1) 2 [1, 2, 3] [3, 2, 2], .ret [],
      .load (.instr 3), .setBlock (some 2),
    .phi [.inl 1, .inl 2], .phi [.inl 1, .inr (.const 1), .inl 2, .inr (.const 2)],
      .branch (.const 0) 2 3, .phi [.inr (.const 1)], .setBlock (some 3), .call "f" [], .ret []]

theorem run_consistent_stumbling : Fits stumbling ⟨{ name := "f" }, none⟩ ∧ ∃ bd out g,
    run stumbling (⟨{ name := "f" }, none⟩, []) = (bd, out) ∧ bd.func.Consistent ∧
    out = [.inl 1, .inl 2, .inl 3, .inr 3, .inr 4, .inr 7, .inr 8, .inr 9, .inr 10] ∧ out.Nodup ∧
      (bd.func.block 2).preds = [1, 2] ∧
    Func.rebuild bd.func = .ok ⟨⟩ g ∧ bd.func.Framed g ∧ (g.block 2).preds.Perm [1, 2] := by
  have hf : Fits stumbling ⟨{ name := "f" }, none⟩ := by decide +kernel
  obtain ⟨bd, out, hrun, hc, -, hn, -, g, hg, hframe, hperm⟩ := run_consistent "f" [] stumbling hf
  have hfacts : (run stumbling (⟨{ name := "f" }, none⟩, [])).2 = [.inl 1, .inl 2, .inl 3, .inr 3,
    .inr 4, .inr 7, .inr 8, .inr 9, .inr 10] ∧
      ((run stumbling (⟨{ name := "f" }, none⟩, [])).1.func.block 2).preds = [1, 2] := by
        decide +kernel
  rw [hrun] at hfacts
  exact ⟨hf, bd, out, g, hrun, hc, hfacts.1, hn, hfacts.2, hg, hframe, hfacts.2 ▸ hperm 2⟩

end Builder
end CodeMotion
