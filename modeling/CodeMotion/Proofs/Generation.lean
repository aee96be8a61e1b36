import Mathlib
import CodeMotion.Random.Function
import CodeMotion.Proofs.Building
import CodeMotion.Proofs.FinishOrder

/-! Functions that are built block by block after a plan of their terminators. An instruction uses
what its block has defined before and the stack slots of the entry, and a phi has one constant for
each block that the plan sends to it. Where all blocks are done, such a function has no defects. -/

namespace CodeMotion

namespace Func

variable {fn g : Func} {b : BlockId} {d i : InstrId} {ins : Instr} {f : Block → Block}

def Slot (fn : Func) (d : InstrId) : Prop :=
  (fn.instr d).op = .alloca ∧ ∃ e ∈ fn.layout.head?, d ∈ (fn.block e).body

/-- Every instruction stands in its block behind what it uses of it. All else that it uses are
slots, and only they are read and written. -/
structure Orderly (fn : Func) : Prop extends fn.Housed where
  sorted : ∀ b, ((fn.block b).body ++ (fn.block b).term.toList).Pairwise (· < ·)
  args : ∀ i d, .instr d ∈ (fn.instr i).args → d < i ∧
    ((fn.instr d).block = (fn.instr i).block ∨ fn.Slot d)
  load : ∀ i, (fn.instr i).op = .load → ∃ d, (fn.instr i).args = [.instr d] ∧ fn.Slot d
  store : ∀ i, (fn.instr i).op = .store → ∃ v d, (fn.instr i).args = [v, .instr d] ∧ fn.Slot d

/-- A function goes on from another one: nothing that was there has changed. -/
structure Onward (fn g : Func) : Prop where
  layout : g.layout = fn.layout
  instr : ∀ i, fn.hasInstr i = true → g.instr i = fn.instr i
  body : ∀ b, (fn.block b).body ⊆ (g.block b).body

structure Suits (fn : Func) (b : BlockId) (ins : Instr) : Prop where
  args : ∀ d, .instr d ∈ ins.args → (fn.instr d).block = some b ∨ fn.Slot d
  load : ins.op = .load → ∃ d, ins.args = [.instr d] ∧ fn.Slot d
  store : ins.op = .store → ∃ v d, ins.args = [v, .instr d] ∧ fn.Slot d

structure Appends (fn : Func) (b : BlockId) (ins : Instr) (f : Block → Block) : Prop
    extends fn.Lists b ins f where
  kept : (fn.block b).body ⊆ (f (fn.block b)).body
  order : (f (fn.block b)).body ++ (f (fn.block b)).term.toList = (fn.block b).body ++
    (fn.block b).term.toList ∨
    (f (fn.block b)).body ++ (f (fn.block b)).term.toList =
      (fn.block b).body ++ (fn.block b).term.toList ++ [fn.instrs.size + 1]

theorem Onward.block (h : fn.Onward g) (hd : (fn.instr d).block = some b) :
    (g.instr d).block = some b := by
  rw [h.instr d (hasInstr_of_block hd), hd]

theorem Onward.trans {k : Func} (h : fn.Onward g) (h' : g.Onward k)
    (hi : fn.instrs.size ≤ g.instrs.size) : fn.Onward k where
  layout := h'.layout.trans h.layout
  instr i hh := by
    rw [h'.instr i (hasInstr_iff.2 ⟨(hasInstr_iff.1 hh).1, (hasInstr_iff.1 hh).2.trans hi⟩),
      h.instr i hh]
  body b := List.Subset.trans (h.body b) (h'.body b)

theorem Appends.onward (hl : fn.Appends b ins f) (hb : fn.hasBlock b = true) :
    fn.Onward (fn.gain b ins f) where
  layout := rfl
  instr i hi := by
    rw [instr_gain, if_neg]
    rintro rfl
    exact absurd (hasInstr_iff.1 hi).2 (Nat.not_succ_le_self _)
  body c := by
    rw [block_gain hb]
    split
    · next hc => exact hc ▸ hl.kept
    · exact List.Subset.refl _

namespace Orderly

variable (h : fn.Orderly)
include h

theorem block_slot (hd : fn.Slot d) : ∃ e ∈ fn.layout.head?, (fn.instr d).block = some e := by
  obtain ⟨-, e, he, hm⟩ := hd
  exact ⟨e, he, h.home e d (mem_listed_of_body hm)⟩

theorem slot_onward (hg : fn.Onward g) (hd : fn.Slot d) : g.Slot d := by
  obtain ⟨hop, e, he, hm⟩ := hd
  refine ⟨?_, e, hg.layout ▸ he, hg.body e hm⟩
  rw [hg.instr d (h.hasInstr (mem_listed_of_body hm)), hop]

theorem sorted_gain (hb : fn.hasBlock b = true) (hl : fn.Appends b ins f) (c : BlockId) :
    (((fn.gain b ins f).block c).body ++ ((fn.gain b ins f).block c).term.toList).Pairwise
      (· < ·) := by
  rw [block_gain hb]
  split
  · next hc =>
    subst hc
    rcases hl.order with ho | ho
    · rw [ho]
      exact h.sorted c
    · rw [ho, List.pairwise_append]
      refine ⟨h.sorted c, List.pairwise_singleton _ _, fun i hi j hj => ?_⟩
      rw [List.mem_singleton.1 hj]
      refine h.lt_new (b := c) ?_
      rw [listed, List.append_assoc]
      exact List.mem_append_right _ hi
  · exact h.sorted c

/-- The new instruction uses older ones only, and the old ones do not use it. -/
theorem args_gain (hb : fn.hasBlock b = true) (hs : fn.Suits b ins) (hl : fn.Appends b ins f)
    (hd : .instr d ∈ ((fn.gain b ins f).instr i).args) :
    d < i ∧ (((fn.gain b ins f).instr d).block = ((fn.gain b ins f).instr i).block ∨
      (fn.gain b ins f).Slot d) := by
  have hon := hl.onward hb
  by_cases hi : i = fn.instrs.size + 1
  · have hnew : (fn.gain b ins f).instr i = { ins with block := some b } := by
      rw [instr_gain, if_pos hi]
    rw [hnew] at hd ⊢
    have hd' : fn.hasInstr d = true := by
      rcases hs.args d hd with hblock | hsl
      · exact hasInstr_of_block hblock
      · obtain ⟨e, -, hblock⟩ := h.block_slot hsl
        exact hasInstr_of_block hblock
    refine ⟨hi ▸ Nat.lt_succ_of_le (hasInstr_iff.1 hd').2, ?_⟩
    rw [hon.instr d hd']
    exact (hs.args d hd).imp id (h.slot_onward hon)
  · have hold : (fn.gain b ins f).instr i = fn.instr i := by rw [instr_gain, if_neg hi]
    rw [hold] at hd ⊢
    obtain ⟨hdi, hcases⟩ := h.args i d hd
    refine ⟨hdi, hcases.imp (fun hblock => ?_) (h.slot_onward hon)⟩
    have hdn : d ≠ fn.instrs.size + 1 := by
      rintro rfl
      -- an instruction that uses something exists
      have hhas : fn.hasInstr i = true := by
        by_contra hno
        rw [instr_eq_default (by simpa using hno)] at hd
        cases hd
      exact Nat.lt_irrefl _ (Nat.lt_of_lt_of_le (Nat.lt_of_succ_lt hdi) (hasInstr_iff.1 hhas).2)
    rw [instr_gain, if_neg hdn, hblock]

/-- One more instruction keeps the order. -/
theorem gain (hb : fn.hasBlock b = true) (hs : fn.Suits b ins) (hl : fn.Appends b ins f) :
    (fn.gain b ins f).Orderly where
  toHoused := h.toHoused.gain hb hl.toLists
  sorted c := h.sorted_gain hb hl c
  args _ _ hd := h.args_gain hb hs hl hd
  load i hop := by
    rw [instr_gain] at hop ⊢
    split at hop
    · next hi =>
      rw [if_pos hi]
      exact (hs.load hop).imp fun d hd => ⟨hd.1, h.slot_onward (hl.onward hb) hd.2⟩
    · next hi =>
      rw [if_neg hi]
      exact (h.load i hop).imp fun d hd => ⟨hd.1, h.slot_onward (hl.onward hb) hd.2⟩
  store i hop := by
    rw [instr_gain] at hop ⊢
    split at hop
    · next hi =>
      rw [if_pos hi]
      exact (hs.store hop).imp fun v => Exists.imp fun d hd =>
        ⟨hd.1, h.slot_onward (hl.onward hb) hd.2⟩
    · next hi =>
      rw [if_neg hi]
      exact (h.store i hop).imp fun v => Exists.imp fun d hd =>
        ⟨hd.1, h.slot_onward (hl.onward hb) hd.2⟩

end Orderly

theorem Framed.onward (h : fn.Framed g) : fn.Onward g :=
  ⟨h.layout, fun i _ => h.instr i, fun b => by rw [h.body b]; exact List.Subset.refl _⟩

theorem Orderly.framed (h : fn.Orderly) (hf : fn.Framed g) : g.Orderly := by
  have hslot := fun {d : InstrId} => h.slot_onward hf.onward (d := d)
  refine ⟨h.toHoused.framed hf, fun b => ?_, fun i d => ?_, fun i => ?_, fun i => ?_⟩
  · rw [hf.body, hf.term]
    exact h.sorted b
  · rw [hf.instr, hf.instr]
    exact fun hd => (h.args i d hd).imp id fun hc => hc.imp id hslot
  · rw [hf.instr]
    exact fun hop => (h.load i hop).imp fun d hd => ⟨hd.1, hslot hd.2⟩
  · rw [hf.instr]
    exact fun hop => (h.store i hop).imp fun v => Exists.imp fun d hd => ⟨hd.1, hslot hd.2⟩

/-- In an orderly function everything is defined where it is used, if phis use constants only. -/
theorem Orderly.supplied (h : fn.Orderly) (hs : fn.Structured)
    (hphi : ∀ p ∈ (fn.block b).phis, ∀ d, .instr d ∉ (fn.instr p).args) (hb : b ∈ fn.layout) :
    fn.Supplied b := by
  refine ⟨fun p hp d source hz _ => absurd (List.of_mem_zip hz).1 (hphi p hp d), fun i n hn d hd =>
    ready_iff.2 ?_⟩
  have hi := mem_listed_of_place hn
  obtain ⟨hlt, hcases⟩ := h.args i d hd
  -- what stands at place `n` or behind it is not smaller than the instruction there
  have hbehind : d ∉ (fn.block b).body.drop n := by
    intro hm
    obtain ⟨j, hj⟩ := List.getElem?_of_mem hm
    rw [List.getElem?_drop] at hj
    have hj' := place_of_body hj
    have hle : i ≤ d := by
      obtain ⟨hn₁, rfl⟩ := List.getElem?_eq_some_iff.1 hn
      obtain ⟨hn₂, rfl⟩ := List.getElem?_eq_some_iff.1 hj'
      rcases Nat.eq_zero_or_pos j with rfl | hpos
      · exact Nat.le_refl _
      · exact Nat.le_of_lt (List.pairwise_iff_getElem.1 (h.sorted b) _ _ hn₁ hn₂ (by omega))
    exact Nat.not_lt_of_le hle hlt
  rcases hcases with hblock | hslot
  · rw [h.home b i hi] at hblock
    exact ⟨b, hblock, hb, by rw [if_pos rfl]; exact hbehind⟩
  · obtain ⟨e, he, hblock⟩ := h.block_slot hslot
    refine ⟨e, hblock, List.mem_of_mem_head? he, ?_⟩
    by_cases heb : e = b
    · rw [if_pos heb]
      exact hbehind
    · rw [if_neg heb]
      have hentry : fn.entry? = some e := Option.filter_eq_some_iff.2 ⟨he, (hs.entry e he).1⟩
      exact precedes_of_entry hentry (Ne.symm heb)

end Func

namespace RandomConfig

variable {plans : List (BlockId × Plan)} {fn : Func} {k i j : Nat} {q r : BlockId × Plan}
  {ins : Instr}

def predsOf (plans : List (BlockId × Plan)) (i : Nat) : List BlockId :=
  (plans.filter (·.2.targets.contains i)).map (·.1)

structure Laid (plans : List (BlockId × Plan)) : Prop where
  nodup : (plans.map (·.1)).Nodup
  targets : ∀ q ∈ plans, ∀ a ∈ q.2.targets, 0 < a ∧ a < plans.length

theorem mem_predsOf {b : BlockId} :
    b ∈ predsOf plans i ↔ ∃ q ∈ plans, i ∈ q.2.targets ∧ q.1 = b := by
  simp [predsOf, and_assoc]

theorem predsOf_append (q : BlockId × Plan) :
    predsOf (plans ++ [q]) i = predsOf plans i ++ if i ∈ q.2.targets then [q.1] else [] := by
  unfold predsOf
  rw [List.filter_append, List.map_append]
  by_cases hi : i ∈ q.2.targets <;> simp [hi]

theorem blockAt_eq (hi : plans[i]? = some q) : blockAt plans i = q.1 := by
  unfold blockAt
  rw [List.getD_eq_getElem?_getD, List.getElem?_map, hi]
  rfl

theorem blockAt_append (hi : i < plans.length) : blockAt (plans ++ [q]) i = blockAt plans i := by
  unfold blockAt
  rw [List.map_append, List.getD_append _ _ _ _ (by simpa using hi)]

theorem size_foldl_record (l : List Nat) (preds : Array (List Nat)) :
    (l.foldl (record i) preds).size = preds.size := by
  induction l generalizing preds with
  | nil => rfl
  | cons a l ih =>
    rw [List.foldl_cons, ih, record]
    split
    · rfl
    · exact Array.size_modify ..

/-- Where a block was not recorded yet, its jumps add it once to each of its targets, however many
lead there. -/
theorem getD_foldl_record {l : List Nat} {preds : Array (List Nat)} (hl : ∀ a ∈ l, a < preds.size)
    (hi : ∀ t, i ∉ preds.getD t []) (t : Nat) :
    (l.foldl (record i) preds).getD t [] = preds.getD t [] ++ if t ∈ l then [i] else [] := by
  -- the last jump finds what the others have recorded
  induction l using List.reverseRecOn with
  | nil => simp
  | append_singleton l a ih =>
    have ih := ih fun b hb => hl b (List.mem_append_left _ hb)
    have ha : a < (l.foldl (record i) preds).size := by
      rw [size_foldl_record]
      exact hl a (by simp)
    rw [List.foldl_append, List.foldl_cons, List.foldl_nil, record]
    by_cases hlast : ((l.foldl (record i) preds).getD a []).getLast? = some i
    · rw [if_pos hlast, ih]
      by_cases hta : t = a
      · subst hta
        by_cases htl : t ∈ l
        · simp [htl]
        · rw [ih, if_neg htl, List.append_nil] at hlast
          exact absurd (List.mem_of_getLast? hlast) (hi t)
      · simp [hta]
    · rw [if_neg hlast, getD_modify ha, ih]
      by_cases hta : a = t
      · subst hta
        have htl : a ∉ l := by
          intro htl
          rw [ih, if_pos htl] at hlast
          simp at hlast
        simp [htl]
      · simp [hta, Ne.symm hta]

structure Recorded (o : Outline) : Prop where
  lt : ∀ t, ∀ i ∈ o.preds.getD t [], i < o.plans.length
  preds : ∀ t, (o.preds.getD t []).map (blockAt o.plans) = predsOf o.plans t

theorem Recorded.empty (blocks : Nat) : Recorded { preds := .replicate blocks [] } := by
  have hnil : ∀ t, (Array.replicate blocks ([] : List Nat)).getD t [] = [] := fun t => by
    by_cases h : t < blocks <;> simp [Array.getD, h]
  refine ⟨fun t i hi => ?_, fun t => ?_⟩
  · simp [hnil] at hi
  · simp [hnil, predsOf]

/-- One more plan is added and its jumps are recorded. -/
theorem Recorded.plan {o : Outline} (h : Recorded o) (hq : ∀ a ∈ q.2.targets, a < o.preds.size) :
    Recorded
      { plans := o.plans ++ [q], preds := q.2.targets.foldl (record o.plans.length) o.preds } := by
  have hget : ∀ t, (q.2.targets.foldl (record o.plans.length) o.preds).getD t [] =
      o.preds.getD t [] ++ if t ∈ q.2.targets then [o.plans.length] else [] :=
    getD_foldl_record hq fun t hm => Nat.lt_irrefl _ (h.lt t _ hm)
  refine ⟨fun t i hi => ?_, fun t => ?_⟩
  · rw [hget, List.mem_append] at hi
    rw [List.length_append, List.length_singleton]
    rcases hi with hi | hi
    · exact Nat.lt_succ_of_lt (h.lt t i hi)
    · split at hi
      · rw [List.mem_singleton.1 hi]
        exact Nat.lt_succ_self _
      · cases hi
  · have hold : (o.preds.getD t []).map (blockAt (o.plans ++ [q])) = predsOf o.plans t := by
      rw [← h.preds t]
      exact List.map_congr_left fun i hi => blockAt_append (h.lt t i hi)
    rw [hget, List.map_append, hold, predsOf_append]
    split
    · rw [List.map_singleton, blockAt_eq (q := q) (by simp)]
    · rfl

namespace Laid

variable (h : Laid plans)
include h

theorem inj (hi : plans[i]? = some q) (hj : plans[j]? = some r) (he : q.1 = r.1) : i = j := by
  have hlt : i < (plans.map (·.1)).length := by
    rw [List.length_map]
    exact (List.getElem?_eq_some_iff.1 hi).1
  refine (List.getElem?_inj hlt h.nodup).1 ?_
  rw [List.getElem?_map, List.getElem?_map, hi, hj, Option.map_some, Option.map_some, he]

theorem exists_target (hq : q ∈ plans) {a : Nat} (ha : a ∈ q.2.targets) :
    ∃ r, plans[a]? = some r ∧ blockAt plans a = r.1 := by
  have hlt := (h.targets q hq a ha).2
  exact ⟨_, List.getElem?_eq_getElem hlt, blockAt_eq (List.getElem?_eq_getElem hlt)⟩

/-- The targets of a plan are told apart by their blocks. -/
theorem mem_map_blockAt (hq : q ∈ plans) (hi : plans[i]? = some r) :
    r.1 ∈ q.2.targets.map (blockAt plans) ↔ i ∈ q.2.targets := by
  constructor
  · intro hm
    obtain ⟨a, ha, hb⟩ := List.mem_map.1 hm
    obtain ⟨t, ht, hat⟩ := h.exists_target hq ha
    rw [hat] at hb
    exact h.inj hi ht hb.symm ▸ ha
  · exact fun hm => blockAt_eq hi ▸ List.mem_map_of_mem hm

theorem not_mem_predsOf_take (hk : plans[k]? = some q) : q.1 ∉ predsOf (plans.take k) i := by
  intro hm
  obtain ⟨r, hr, -, he⟩ := mem_predsOf.1 hm
  obtain ⟨j, hj⟩ := List.getElem?_of_mem hr
  rw [List.getElem?_take] at hj
  split at hj
  · next hlt => exact absurd (h.inj hj hk he) (Nat.ne_of_lt hlt)
  · cases hj

theorem predsOf_zero : predsOf plans 0 = [] := by
  rw [List.eq_nil_iff_forall_not_mem]
  intro b hb
  obtain ⟨q, hq, h0, -⟩ := mem_predsOf.1 hb
  exact absurd (h.targets q hq 0 h0).1 (Nat.lt_irrefl 0)

end Laid

/-- The first `k` blocks of a plan are done, and nothing ends the others. -/
structure Underway (plans : List (BlockId × Plan)) (k : Nat) (fn : Func) : Prop
    extends fn.Orderly where
  layout : fn.layout = plans.map (·.1)
  isExternal : fn.isExternal = false
  hasBlock : ∀ q ∈ plans, fn.hasBlock q.1 = true
  phis : ∀ i q, plans[i]? = some q → ∀ p ∈ (fn.block q.1).phis, (fn.instr p).op = .phi ∧
    (fn.instr p).incoming = predsOf plans i ∧
    (fn.instr p).args.length = (fn.instr p).incoming.length ∧ ∀ d, .instr d ∉ (fn.instr p).args
  ended : ∀ i q, plans[i]? = some q → i < k → ∃ t, (fn.block q.1).term = some t ∧
    (fn.instr t).op.isTerminator = true ∧
    (fn.instr t).targets = q.2.targets.map (blockAt plans)
  opened : ∀ i q, plans[i]? = some q → k ≤ i → (fn.block q.1).term = none
  preds : ∀ i q, plans[i]? = some q → (fn.block q.1).preds = predsOf (plans.take k) i

namespace Underway

variable (h : Underway plans k fn)
include h

theorem phi_onward {g : Func} (hg : fn.Onward g) {p : InstrId} (hp : p ∈ (fn.block q.1).phis) :
    g.instr p = fn.instr p :=
  hg.instr p (h.hasInstr (List.mem_append_left _ (List.mem_append_left _ hp)))

theorem ended_onward {g : Func} (hg : fn.Onward g) (hi : plans[i]? = some q) (hk : i < k)
    (ht : (g.block q.1).term = (fn.block q.1).term) :
    ∃ t, (g.block q.1).term = some t ∧ (g.instr t).op.isTerminator = true ∧
      (g.instr t).targets = q.2.targets.map (blockAt plans) := by
  obtain ⟨t, hterm, hop, htargets⟩ := h.ended i q hi hk
  have hhas : fn.hasInstr t = true := h.hasInstr (b := q.1) (by simp [Func.listed, hterm])
  exact ⟨t, ht.trans hterm, by rw [hg.instr t hhas]; exact hop,
    by rw [hg.instr t hhas]; exact htargets⟩

/-- A block that is not done gets one more phi or instruction. -/
theorem gain (hk : plans[k]? = some q) {f : Block → Block} (hs : fn.Suits q.1 ins)
    (hf : fn.Appends q.1 ins f) (hterm : ∀ blk, (f blk).term = blk.term)
    (hpreds : ∀ blk, (f blk).preds = blk.preds) (hl : Laid plans)
    (hphis : ∀ p ∈ (f (fn.block q.1)).phis, p ∈ (fn.block q.1).phis ∨ p = fn.instrs.size + 1 ∧
      ins.op = .phi ∧ ins.incoming = predsOf plans k ∧ ins.args.length = ins.incoming.length ∧
      ∀ d, .instr d ∉ ins.args) :
    Underway plans k (fn.gain q.1 ins f) := by
  have hb := h.hasBlock q (List.mem_of_getElem? hk)
  have hon := hf.onward hb
  have hterms : ∀ c, ((fn.gain q.1 ins f).block c).term = (fn.block c).term := fun c => by
    rw [Func.block_gain hb]
    split
    · exact hterm _
    · rfl
  refine ⟨h.toOrderly.gain hb hs hf, h.layout, h.isExternal,
    fun r hr => Func.hasBlock_gain.trans (h.hasBlock r hr), fun i r hi p hp => ?_,
    fun i r hi hlt => h.ended_onward hon hi hlt (hterms r.1), fun i r hi hle =>
      (hterms r.1).trans (h.opened i r hi hle), fun i r hi => ?_⟩
  · have hcases : p ∈ (fn.block r.1).phis ∨ r.1 = q.1 ∧ p = fn.instrs.size + 1 ∧ ins.op = .phi ∧
        ins.incoming = predsOf plans k ∧ ins.args.length = ins.incoming.length ∧
          ∀ d, .instr d ∉ ins.args := by
      rw [Func.block_gain hb] at hp
      split at hp
      · next hr => exact (hr ▸ hphis p (hr ▸ hp)).imp_right fun hnew => ⟨hr, hnew⟩
      · exact Or.inl hp
    rcases hcases with hp | ⟨hr, hp, hop, hin, hlen, hargs⟩
    · rw [h.phi_onward hon hp]
      exact h.phis i r hi p hp
    · rw [Func.instr_gain, if_pos hp, hl.inj hi hk hr]
      exact ⟨hop, hin, hlen, hargs⟩
  · rw [Func.block_gain hb, ← h.preds i r hi]
    split
    · exact hpreds _
    · rfl

theorem emit (hl : Laid plans) (hk : plans[k]? = some q) (hs : fn.Suits q.1 ins)
    (hop : ins.op ≠ .phi) (hop' : ins.op.isTerminator = false) :
    ∃ g, Builder.emit ins ⟨fn, some q.1⟩ = .ok (fn.instrs.size + 1) ⟨g, some q.1⟩ ∧
      Underway plans k g ∧ fn.Onward g ∧ g.instrs.size = fn.instrs.size + 1 ∧
      g.instr (fn.instrs.size + 1) = { ins with block := some q.1 } ∧
        fn.instrs.size + 1 ∈ (g.block q.1).body := by
  have hb := h.hasBlock q (List.mem_of_getElem? hk)
  have hopen := h.opened k q hk le_rfl
  have hf : fn.Appends q.1 ins fun blk =>
      { blk with body := blk.body ++ [fn.instrs.size + 1] } := by
    refine ⟨⟨fun i hi => ?_, fun i hi => ?_⟩, List.subset_append_left _ _, Or.inr (by simp [hopen])⟩
    · simp only [Func.listed, List.mem_append, List.mem_singleton] at hi ⊢
      tauto
    · rcases List.mem_append.1 hi with hi | hi
      · exact Or.inl hi
      · exact Or.inr ⟨List.mem_singleton.1 hi, hop, hop'⟩
  refine ⟨_, Builder.emit_ok hopen, h.gain hk hs hf (fun _ => rfl) (fun _ => rfl) hl fun p hp =>
    Or.inl hp, hf.onward hb, Table.size_push _ _, by rw [Func.instr_gain, if_pos rfl], ?_⟩
  rw [Func.block_gain hb, if_pos rfl]
  simp

/-- A phi takes one constant from each block that the plan sends to its block. -/
theorem phi (hl : Laid plans) (hk : plans[k]? = some q) {args : List (BlockId ⊕ Value)}
    {pairs : List (BlockId × Value)} (hlen : args.length % 2 = 0)
    (hpairs : Builder.phiPairs args = .ok pairs) (hin : pairs.map (·.1) = predsOf plans k)
    (hargs : ∀ d, .instr d ∉ pairs.map (·.2)) :
    ∃ g, Builder.phi args ⟨fn, some q.1⟩ = .ok (fn.instrs.size + 1) ⟨g, some q.1⟩ ∧
      Underway plans k g ∧ fn.Onward g ∧
      g.instrs.size = fn.instrs.size + 1 ∧ (g.instr (fn.instrs.size + 1)).block = some q.1 := by
  have hb := h.hasBlock q (List.mem_of_getElem? hk)
  have hf : fn.Appends q.1 { op := .phi, args := pairs.map (·.2), incoming := pairs.map (·.1) }
      fun blk => { blk with phis := blk.phis ++ [fn.instrs.size + 1] } := by
    refine ⟨⟨fun i hi => ?_, fun i hi => Or.inl hi⟩, List.Subset.refl _, Or.inl rfl⟩
    simp only [Func.listed, List.mem_append, List.mem_singleton] at hi ⊢
    tauto
  have hs : fn.Suits q.1 { op := .phi, args := pairs.map (·.2), incoming := pairs.map (·.1) } := by
    refine ⟨fun d hd => absurd hd (hargs d), fun hop => ?_, fun hop => ?_⟩
    · cases hop
    · cases hop
  refine ⟨_, Builder.phi_ok hlen hpairs, h.gain hk hs hf (fun _ => rfl) (fun _ => rfl) hl
    fun p hp => ?_, hf.onward hb, Table.size_push _ _, by rw [Func.instr_gain, if_pos rfl]⟩
  rcases List.mem_append.1 hp with hp | hp
  · exact Or.inl hp
  · exact Or.inr ⟨List.mem_singleton.1 hp, rfl, hin, by simp, hargs⟩

/-- A terminator that follows the plan ends the block at hand. -/
theorem terminate (hl : Laid plans) (hk : plans[k]? = some q) (hs : fn.Suits q.1 ins)
    (hop : ins.op.isTerminator = true) (ht : ins.targets = q.2.targets.map (blockAt plans)) :
    ∃ g, Builder.terminate ins ⟨fn, some q.1⟩ = .ok (fn.instrs.size + 1) ⟨g, some q.1⟩ ∧
      Underway plans (k + 1) g ∧ fn.Onward g := by
  have hq := List.mem_of_getElem? hk
  have hb := h.hasBlock q hq
  have hopen := h.opened k q hk le_rfl
  have hf : fn.Appends q.1 ins ({ · with term := some (fn.instrs.size + 1) }) := by
    refine ⟨⟨fun i hi => ?_, fun i hi => Or.inl hi⟩, List.Subset.refl _, Or.inr (by simp [hopen])⟩
    simp only [Func.listed, List.mem_append, Option.toList_some, List.mem_singleton] at hi ⊢
    tauto
  have hlink : ∀ s ∈ ins.targets, fn.hasBlock s = true ∧ q.1 ∉ (fn.block s).preds := fun s hm => by
    rw [ht] at hm
    obtain ⟨a, ha, rfl⟩ := List.mem_map.1 hm
    obtain ⟨r, hr, har⟩ := hl.exists_target hq ha
    rw [har, h.preds a r hr]
    exact ⟨h.hasBlock r (List.mem_of_getElem? hr), hl.not_mem_predsOf_take hk⟩
  obtain ⟨g, hrun, hframe, hpreds⟩ := Builder.terminate_ok hb hopen hlink
  have hgain := hf.onward hb
  have hon : fn.Onward g :=
    hgain.trans hframe.onward
      (Nat.le_of_lt (Nat.lt_of_lt_of_eq (Nat.lt_succ_self _) (Table.size_push _ _).symm))
  have hterm : ∀ c, (g.block c).term = if c = q.1 then some (fn.instrs.size + 1)
      else (fn.block c).term := fun c => by
    rw [hframe.term, Func.block_gain hb]
    split <;> rfl
  refine ⟨g, hrun, ⟨(h.toOrderly.gain hb hs hf).framed hframe, hframe.layout.trans h.layout,
    hframe.isExternal.trans h.isExternal,
    fun r hr => (hframe.hasBlock r.1).trans (Func.hasBlock_gain.trans (h.hasBlock r hr)),
      fun i r hi p hp => ?_, fun i r hi hlt => ?_, fun i r hi hle => ?_, fun i r hi => ?_⟩, hon⟩
  · have hp' : p ∈ (fn.block r.1).phis := by
      rw [hframe.phis, Func.block_gain hb] at hp
      split at hp
      · exact hp
      · exact hp
    rw [h.phi_onward hon hp']
    exact h.phis i r hi p hp'
  · by_cases hr : r.1 = q.1
    · have hik := hl.inj hi hk hr
      subst hik
      rw [hk, Option.some.injEq] at hi
      subst hi
      refine ⟨_, by rw [hterm, if_pos rfl], ?_⟩
      rw [hframe.instr, Func.instr_gain, if_pos rfl]
      exact ⟨hop, ht⟩
    · have hne : i ≠ k := by
        rintro rfl
        rw [hk, Option.some.injEq] at hi
        exact hr (hi ▸ rfl)
      exact h.ended_onward hon hi (by omega) (by rw [hterm, if_neg hr])
  · have hr : r.1 ≠ q.1 := fun hr => absurd (hl.inj hi hk hr) (by omega)
    rw [hterm, if_neg hr]
    exact h.opened i r hi (by omega)
  · have htake : plans.take (k + 1) = plans.take k ++ [q] := by
      rw [List.take_add_one, hk]
      rfl
    rw [hpreds, h.preds i r hi, htake, predsOf_append, ht]
    simp only [hl.mem_map_blockAt hq hi]

end Underway

/-- A function whose blocks are all done has no defects, and its entry has no predecessors. -/
theorem Underway.structured (h : Underway plans plans.length fn) (hl : Laid plans) :
    fn.Structured := by
  have hpreds : ∀ (i : Nat) (q : BlockId × Plan), plans[i]? = some q →
      (fn.block q.1).preds = predsOf plans i := fun i q hi => by
    rw [h.preds i q hi, List.take_length]
  have hterm : ∀ (i : Nat) (q : BlockId × Plan), plans[i]? = some q →
    ∃ t, (fn.block q.1).term = some t ∧ (fn.instr t).op.isTerminator = true ∧
      fn.succs q.1 = (q.2.targets.map (blockAt plans)).eraseDups := fun i q hi => by
    obtain ⟨t, ht, hop, htargets⟩ := h.ended i q hi (List.getElem?_eq_some_iff.1 hi).1
    exact ⟨t, ht, hop, by rw [Func.succs, Func.targets_of_term ht, htargets]⟩
  refine ⟨fun e he => ?_, fun b hb => ?_⟩
  · rw [h.layout, List.head?_map] at he
    obtain ⟨q, hq, rfl⟩ := Option.map_eq_some_iff.1 he
    rw [List.head?_eq_getElem?] at hq
    exact ⟨h.hasBlock q (List.mem_of_getElem? hq), by rw [hpreds 0 q hq, hl.predsOf_zero]⟩
  · rw [h.layout] at hb
    obtain ⟨q, hq, rfl⟩ := List.mem_map.1 hb
    obtain ⟨i, hi⟩ := List.getElem?_of_mem hq
    obtain ⟨t, ht, hop, hsuccs⟩ := hterm i q hi
    refine ⟨⟨t, ht, hop⟩, fun p hp => ?_, h.body q.1, h.home q.1, fun s hs => ?_, fun s hs => ?_⟩
    · obtain ⟨hphi, hin, hlen, -⟩ := h.phis i q hi p hp
      rw [hpreds i q hi, hin]
      exact ⟨hphi, hin ▸ hlen, fun s hs => hs⟩
    · rw [hsuccs, List.mem_eraseDups] at hs
      obtain ⟨a, ha, rfl⟩ := List.mem_map.1 hs
      obtain ⟨r, hr, har⟩ := hl.exists_target hq ha
      have hr' := List.mem_of_getElem? hr
      rw [har, hpreds a r hr]
      exact ⟨h.layout ▸ List.mem_map_of_mem hr', h.hasBlock r hr', mem_predsOf.2 ⟨q, hq, ha, rfl⟩⟩
    · rw [hpreds i q hi] at hs
      obtain ⟨r, hr, hir, rfl⟩ := mem_predsOf.1 hs
      obtain ⟨j, hj⟩ := List.getElem?_of_mem hr
      obtain ⟨-, -, -, hsuccs'⟩ := hterm j r hj
      rw [hsuccs', List.mem_eraseDups]
      exact ⟨h.hasBlock r hr, (hl.mem_map_blockAt hr hi).2 hir⟩

end RandomConfig
end CodeMotion
