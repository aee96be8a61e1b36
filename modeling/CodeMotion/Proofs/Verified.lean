import Mathlib
import CodeMotion.Func.Defect
import CodeMotion.Proofs.DominatorTree

/-! A function without defects, said without the order of the checks: its blocks and lists fit
together, and every operand is defined on every walk to its use. -/

namespace CodeMotion.Func

variable {fn : Func} {b : BlockId} {d i : InstrId} {n : Nat}

structure Fitting (fn : Func) (b : BlockId) : Prop where
  term : ∃ t, (fn.block b).term = some t ∧ (fn.instr t).op.isTerminator = true
  phis : ∀ i ∈ (fn.block b).phis, (fn.instr i).op = .phi ∧ (fn.instr i).args.length =
    (fn.instr i).incoming.length ∧
    ∀ p ∈ (fn.instr i).incoming, p ∈ (fn.block b).preds
  body : ∀ i ∈ (fn.block b).body, (fn.instr i).op ≠ .phi ∧ (fn.instr i).op.isTerminator = false
  parent : ∀ i ∈ fn.listed b, (fn.instr i).block = some b
  succs : ∀ s ∈ fn.succs b, s ∈ fn.layout ∧ fn.hasBlock s = true ∧ b ∈ (fn.block s).preds
  preds : ∀ p ∈ (fn.block b).preds, fn.hasBlock p = true ∧ b ∈ fn.succs p

structure Structured (fn : Func) : Prop where
  entry : ∀ e ∈ fn.layout.head?, fn.hasBlock e = true ∧ (fn.block e).preds = []
  fitting : ∀ b ∈ fn.layout, fn.Fitting b

/-- A definition was passed when control is in front of place `n` of a block. -/
def Ready (fn : Func) (b : BlockId) (n : Nat) (d : InstrId) : Prop :=
  ∃ home, (fn.instr d).block = some home ∧ home ∈ fn.layout ∧
    if home = b then ∀ m ∈ fn.place? b d, m < n else fn.Precedes home b

/-- The operands of a block are defined where they are used; those of a phi at the end of the block
they come from. -/
structure Supplied (fn : Func) (b : BlockId) : Prop where
  phis : ∀ p ∈ (fn.block b).phis, ∀ d source, (Value.instr d, source) ∈ (fn.instr p).args.zip
    (fn.instr p).incoming →
    source ∈ fn.preOrder → fn.Ready source ((fn.block source).body.length + 1) d
  uses : ∀ i n, ((fn.block b).body ++ (fn.block b).term.toList)[n]? = some i →
    ∀ d, .instr d ∈ (fn.instr i).args → fn.Ready b n d

theorem place_of_body (hi : (fn.block b).body[n]? = some i) :
    ((fn.block b).body ++ (fn.block b).term.toList)[n]? = some i := by
  rw [List.getElem?_append_left (List.getElem?_eq_some_iff.1 hi).1, hi]

theorem mem_listed_of_place (hi : ((fn.block b).body ++ (fn.block b).term.toList)[n]? = some i) :
    i ∈ fn.listed b := by
  rw [listed, List.append_assoc]
  exact List.mem_append_right _ (List.mem_of_getElem? hi)

theorem orElse_eq_none {α : Type} {x y : Option α} : (x <|> y) = none ↔ x = none ∧ y = none := by
  cases x <;> simp

theorem phiDefect?_eq_none : fn.phiDefect? b i = none ↔ (fn.instr i).op = .phi ∧
    (fn.instr i).args.length = (fn.instr i).incoming.length ∧ ∀ p ∈ (fn.instr i).incoming,
      p ∈ (fn.block b).preds := by
  unfold phiDefect?
  simp only
  split
  · next h => simp [h]
  · next h =>
    split
    · next h' => simp [h']
    · next h' =>
      push Not at h h'
      simp [h, h']

theorem succDefect?_eq_none {s : BlockId} : fn.succDefect? b s = none ↔
    s ∈ fn.layout ∧ fn.hasBlock s = true ∧ b ∈ (fn.block s).preds := by
  unfold succDefect?
  by_cases h1 : s ∈ fn.layout <;> cases h2 : fn.hasBlock s <;> by_cases h3 :
    b ∈ (fn.block s).preds <;> simp [h1, h3]

theorem predDefect?_eq_none {p : BlockId} :
    fn.predDefect? b p = none ↔ fn.hasBlock p = true ∧ b ∈ fn.succs p := by
  unfold predDefect?
  cases h2 : fn.hasBlock p <;> by_cases h3 : b ∈ fn.succs p <;> simp [h3]

theorem blockDefect?_eq_none : fn.blockDefect? b = none ↔ fn.Fitting b := by
  unfold blockDefect?
  cases ht : (fn.block b).term with
  | none =>
    simp only [reduceCtorEq, false_iff]
    intro h
    obtain ⟨t, h1, -⟩ := h.term
    rw [ht] at h1
    cases h1
  | some t =>
    cases hop : (fn.instr t).op.isTerminator with
    | false =>
      simp only [hop, Bool.not_false, if_true, reduceCtorEq, false_iff]
      intro h
      obtain ⟨t', h1, h2⟩ := h.term
      rw [ht, Option.some.injEq] at h1
      rw [← h1, hop] at h2
      cases h2
    | true =>
      simp only [hop, Bool.not_true, Bool.false_eq_true, if_false, orElse_eq_none,
        List.findSome?_eq_none_iff, phiDefect?_eq_none, succDefect?_eq_none, predDefect?_eq_none]
      have hbody : ∀ i, fn.bodyDefect? b i = none ↔ (fn.instr i).op ≠ .phi ∧
          (fn.instr i).op.isTerminator = false := by
        intro i
        unfold bodyDefect?
        split
        · next h => simp; tauto
        · next h =>
          push Not at h
          simpa using h
      have hparent : ∀ i, fn.parentDefect? b i = none ↔ (fn.instr i).block = some b := by
        intro i
        unfold parentDefect?
        split
        · next h => simp [h]
        · next h =>
          push Not at h
          simp [h]
      simp only [hbody, hparent]
      constructor
      · rintro ⟨h1, h2, h3, h4, h5⟩
        exact ⟨⟨t, ht, hop⟩, h1, h2, h3, h4, h5⟩
      · intro h
        exact ⟨h.phis, h.body, h.parent, h.succs, h.preds⟩

theorem structureDefect?_eq_none : fn.structureDefect? = none ↔ fn.Structured := by
  unfold structureDefect?
  cases he : fn.layout.head? with
  | none =>
    have hnil : fn.layout = [] := List.head?_eq_none_iff.1 he
    simp only [true_iff]
    exact ⟨by simp [he], by simp [hnil]⟩
  | some e =>
    cases hb : fn.hasBlock e with
    | false =>
      simp only [hb, Bool.not_false, if_true, reduceCtorEq, false_iff]
      intro h
      have := (h.entry e he).1
      rw [hb] at this
      cases this
    | true =>
      by_cases hp : (fn.block e).preds = []
      · simp only [hb, Bool.not_true, Bool.false_eq_true, if_false, hp, ne_eq, not_true_eq_false,
          List.findSome?_eq_none_iff, blockDefect?_eq_none]
        exact ⟨fun h => ⟨fun e' he' => by rw [he] at he'; cases he'; exact ⟨hb, hp⟩, h⟩,
          fun h => h.fitting⟩
      · simp only [hb, Bool.not_true, Bool.false_eq_true, if_false, ne_eq, hp, not_false_eq_true,
          if_true, reduceCtorEq, false_iff]
        intro h
        exact hp (h.entry e he).2

theorem entry_mem {e : BlockId} (he : fn.entry? = some e) : e ∈ fn.layout := by
  unfold entry? at he
  obtain ⟨h1, -⟩ := Option.filter_eq_some_iff.1 he
  exact List.mem_of_mem_head? h1

namespace Structured

variable (h : fn.Structured)
include h

theorem attached (hb : b ∈ fn.preOrder) : b ∈ fn.layout := by
  obtain ⟨l, hl⟩ := exists_walk hb
  induction hl with
  | entry he => exact entry_mem he
  | step hl hs ih => exact ((h.fitting _ (ih hl.reachable)).succs _ hs).1

theorem solid : DomTree.Solid fn := by
  intro b hb
  obtain ⟨l, hl⟩ := exists_walk hb
  cases hl with
  | entry he => exact (Option.filter_eq_some_iff.1 he).2
  | step hl hs => exact ((h.fitting _ (h.attached hl.reachable)).succs _ hs).2.1

theorem hasBlock (hb : b ∈ fn.layout) : fn.hasBlock b = true := by
  by_contra hn
  obtain ⟨t, ht, -⟩ := (h.fitting b hb).term
  have : fn.block b = {} := by
    unfold Func.hasBlock at hn
    rw [Option.not_isSome_iff_eq_none] at hn
    rw [block, hn]
    rfl
  rw [this] at ht
  cases ht

theorem isReachable_iff (hb : fn.hasBlock b = true) :
    (DomTree.ofFunc fn).isReachable b = true ↔ b ∈ fn.preOrder := by
  have hpos := ((Table.get?_isSome fn.blocks b).1 hb).1
  exact DomTree.isReachable_iff h.solid (Nat.pos_iff_ne_zero.1 hpos)

theorem defDefect?_eq_none (hb : b ∈ fn.preOrder) :
    fn.defDefect? (.ofFunc fn) b n d = none ↔ fn.Ready b n d := by
  unfold defDefect? Ready
  cases hd : (fn.instr d).block with
  | none => simp
  | some home =>
    by_cases hl : home ∈ fn.layout
    · have hc : fn.layout.contains home = true := by simpa using hl
      simp only [hl, hc, Bool.not_true, Bool.false_eq_true, if_false, Option.some.injEq,
        exists_eq_left', true_and]
      by_cases hh : home = b
      · simp only [hh, if_true]
        cases hp : fn.place? b d with
        | none => simp
        | some m =>
          by_cases hm : n ≤ m
          · simp [hm]
          · simp [hm, Nat.lt_of_not_le hm]
      · simp only [hh, if_false]
        have := DomTree.dominates_iff h.solid (a := home) hb
        simp only [hh, false_or] at this
        by_cases hpre : fn.Precedes home b
        · simp [this.2 hpre, hpre]
        · have hno : (DomTree.ofFunc fn).dominates home b = false := by
            rw [Bool.eq_false_iff]
            exact fun ht => hpre (this.1 ht)
          simp [hno, hpre]
    · simp [hl]

theorem phiUseDefect?_eq_none {p : InstrId}
    (hp : ∀ s ∈ (fn.instr p).incoming, fn.hasBlock s = true) :
    fn.phiUseDefect? (.ofFunc fn) p = none ↔
      ∀ d source, (Value.instr d, source) ∈ (fn.instr p).args.zip (fn.instr p).incoming →
        source ∈ fn.preOrder →
        fn.Ready source ((fn.block source).body.length + 1) d := by
  unfold phiUseDefect?
  rw [List.findSome?_eq_none_iff]
  constructor
  · intro hall d source hm hr
    have := hall (Value.instr d, source) hm
    have hb := hp source (List.of_mem_zip hm).2
    simp only [(h.isReachable_iff hb).2 hr, if_true, Option.map_eq_none_iff, Value.instr?,
      Option.bind_some] at this
    exact (h.defDefect?_eq_none hr).1 this
  · rintro hall ⟨v, source⟩ hm
    have hb := hp source (List.of_mem_zip hm).2
    simp only
    split
    · next hr =>
      rw [h.isReachable_iff hb] at hr
      rw [Option.map_eq_none_iff]
      cases v with
      | instr d => exact (h.defDefect?_eq_none hr).2 (hall d source hm hr)
      | const _ => rfl
      | param _ _ => rfl
      | global _ _ => rfl
    · rfl

theorem useDefect?_eq_none (hb : b ∈ fn.preOrder) : fn.useDefect? (.ofFunc fn) b i n = none ↔
    ∀ d, .instr d ∈ (fn.instr i).args → fn.Ready b n d := by
  unfold useDefect?
  rw [List.findSome?_eq_none_iff]
  constructor
  · intro hall d hm
    exact (h.defDefect?_eq_none hb).1 (hall _ hm)
  · intro hall v hm
    cases v with
    | instr d => exact (h.defDefect?_eq_none hb).2 (hall d hm)
    | const _ => rfl
    | param _ _ => rfl
    | global _ _ => rfl

theorem operandDefect?_eq_none (hb : b ∈ fn.layout) :
    fn.operandDefect? (.ofFunc fn) b = none ↔ (b ∈ fn.preOrder → fn.Supplied b) := by
  have hreach := h.isReachable_iff (h.hasBlock hb)
  unfold operandDefect?
  by_cases hr : b ∈ fn.preOrder
  · simp only [hreach.2 hr, Bool.not_true, Bool.false_eq_true, if_false, orElse_eq_none,
      hr, forall_const]
    have hphi : (fn.block b).phis.findSome? (fn.phiUseDefect? (.ofFunc fn)) = none ↔
        ∀ p ∈ (fn.block b).phis, ∀ d source, (Value.instr d, source) ∈ (fn.instr p).args.zip
          (fn.instr p).incoming →
          source ∈ fn.preOrder → fn.Ready source ((fn.block source).body.length + 1) d := by
      rw [List.findSome?_eq_none_iff]
      refine forall₂_congr fun p hp => h.phiUseDefect?_eq_none fun s hs => ?_
      have hf := h.fitting b hb
      exact (hf.preds s ((hf.phis p hp).2.2 s hs)).1
    have huse : (((fn.block b).body ++ (fn.block b).term.toList).zipIdx.findSome? fun q =>
      fn.useDefect? (.ofFunc fn) b q.1 q.2) = none ↔
        ∀ i n, ((fn.block b).body ++ (fn.block b).term.toList)[n]? = some i →
          ∀ d, .instr d ∈ (fn.instr i).args → fn.Ready b n d := by
      rw [List.findSome?_eq_none_iff]
      simp only [Prod.forall, List.mem_zipIdx_iff_getElem?, h.useDefect?_eq_none hr]
    exact (and_congr hphi huse).trans ⟨fun h => ⟨h.1, h.2⟩, fun h => ⟨h.phis, h.uses⟩⟩
  · have : (DomTree.ofFunc fn).isReachable b = false := by
      rw [Bool.eq_false_iff]
      exact fun ht => hr (hreach.1 ht)
    simp [this, hr]

end Structured

structure Verified (fn : Func) : Prop extends fn.Structured where
  supplied : ∀ b ∈ fn.preOrder, fn.Supplied b

theorem defect?_eq_none (he : fn.isEmpty = false) : fn.defect? = none ↔ fn.Verified := by
  unfold defect?
  rw [he, if_neg Bool.false_ne_true, orElse_eq_none, structureDefect?_eq_none,
    List.findSome?_eq_none_iff]
  constructor
  · rintro ⟨h, hall⟩
    exact ⟨h, fun b hb => (h.operandDefect?_eq_none (h.attached hb)).1 (hall b (h.attached hb)) hb⟩
  · rintro ⟨h, hall⟩
    exact ⟨h, fun b hb => (h.operandDefect?_eq_none hb).2 (hall b)⟩

theorem verify_eq_none : fn.verify = .ok none ↔ fn.defect? = none := by
  unfold verify
  cases hd : fn.defect? with
  | none => simp [pure, Except.pure]
  | some d =>
    cases hm : d.message fn <;> simp [hm, bind, Except.bind, pure, Except.pure]

/-- Where there are no blocks there is nothing to check. -/
theorem verified_of_verify (hv : fn.verify = .ok none)
    (hx : fn.isExternal = true → fn.layout = []) : fn.Verified := by
  cases he : fn.isEmpty with
  | false => exact (defect?_eq_none he).1 (verify_eq_none.1 hv)
  | true =>
    rw [isEmpty, Bool.or_eq_true, List.isEmpty_iff] at he
    have hnil := he.elim hx id
    have hs : fn.Structured := ⟨by simp [hnil], by simp [hnil]⟩
    refine ⟨hs, fun b hb => ?_⟩
    have hl := hs.attached hb
    rw [hnil] at hl
    cases hl

end CodeMotion.Func
