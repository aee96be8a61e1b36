import Mathlib
import CodeMotion.Proofs.Keys

/-! Two functions with the same code, of which different blocks may be attached: the same is reached
from the entry, in the same order, and each block kills and exposes the same expressions. -/

namespace CodeMotion

open Relation (ReflTransGen)

namespace Func

/-- Two functions that agree but for their layout, the predecessors of blocks and the operands of
phis. Both are closed under successors and have the same entry. -/
structure Alike (fn fn' : Func) : Prop where
  phis : ∀ b, (fn'.block b).phis = (fn.block b).phis
  body : ∀ b, (fn'.block b).body = (fn.block b).body
  term : ∀ b, (fn'.block b).term = (fn.block b).term
  op : ∀ i, (fn'.instr i).op = (fn.instr i).op
  args : ∀ i, (fn.instr i).op ≠ .phi → (fn'.instr i).args = (fn.instr i).args
  targets : ∀ i, (fn'.instr i).targets = (fn.instr i).targets
  hasBlock : ∀ b, fn'.hasBlock b = fn.hasBlock b
  size : fn'.blocks.size = fn.blocks.size
  head : fn'.layout.head? = fn.layout.head?
  enclosed : fn.Enclosed
  enclosed' : fn'.Enclosed

variable {fn fn' : Func} {a b : BlockId} {i : InstrId}

namespace Alike

theorem symm (h : fn.Alike fn') : fn'.Alike fn where
  phis b := (h.phis b).symm
  body b := (h.body b).symm
  term b := (h.term b).symm
  op i := (h.op i).symm
  args i hi := (h.args i (h.op i ▸ hi)).symm
  targets i := (h.targets i).symm
  hasBlock b := (h.hasBlock b).symm
  size := h.size.symm
  head := h.head.symm
  enclosed := h.enclosed'
  enclosed' := h.enclosed

variable (h : fn.Alike fn')
include h

/-! The same graph. -/

theorem targets_eq (b : BlockId) : fn'.targets b = fn.targets b := by
  unfold Func.targets
  rw [h.term]
  cases (fn.block b).term with
  | none => rfl
  | some t => exact h.targets t

theorem succs (b : BlockId) : fn'.succs b = fn.succs b := by
  rw [Func.succs, h.targets_eq, Func.succs]

theorem leads : fn'.Leads = fn.Leads := by
  funext a b
  rw [Leads, h.succs, Leads]

theorem listed (b : BlockId) : fn'.listed b = fn.listed b := by
  rw [Func.listed, h.phis, h.body, h.term, Func.listed]

theorem exits : fn'.Exits b ↔ fn.Exits b := by
  unfold Exits
  simp only [h.leads, h.succs]

theorem entry? : fn'.entry? = fn.entry? := by
  unfold Func.entry?
  simp only [h.head, h.hasBlock]

theorem reachBound : fn'.reachBound = fn.reachBound := by
  unfold Func.reachBound
  simp only [h.size, h.targets_eq]

theorem descend (n : Nat) (it : PostOrder) : it.descend fn' n = it.descend fn n := by
  induction n generalizing it with
  | zero => rfl
  | succ n ih =>
    unfold PostOrder.descend
    cases it.stack with
    | nil => rfl
    | cons b rest =>
      simp only [h.succs]
      cases (fn.succs b).find? (!it.visited.contains ·) with
      | none => rfl
      | some t => exact ih _

theorem drain (n : Nat) (it : PostOrder) : it.drain fn' n = it.drain fn n := by
  induction n generalizing it with
  | zero => rfl
  | succ n ih =>
    unfold PostOrder.drain PostOrder.bottom
    simp only [h.reachBound, h.descend, ih]

theorem preOrder : fn'.preOrder = fn.preOrder := by
  rw [Func.preOrder, Func.preOrder, h.reachBound, h.drain, PostOrder.start,
    PostOrder.start, h.entry?]

theorem reversePostOrder : fn'.reversePostOrder = fn.reversePostOrder := by
  rw [Func.reversePostOrder, Func.reversePostOrder, Func.postOrder, Func.postOrder, h.reachBound,
    h.drain, PostOrder.start, PostOrder.start, h.entry?]

/-! The same expressions. -/

theorem expression (hi : (fn.instr i).op ≠ .phi) :
    fn'.reader.expression i = fn.reader.expression i := by
  have hop : fn'.reader.op i = fn.reader.op i := h.op i
  have hargs : fn'.reader.args i = fn.reader.args i := h.args i hi
  have hresult : fn'.reader.result i = fn.reader.result i := rfl
  unfold Reader.expression
  rw [hop, hargs, hresult]

theorem key? (i : InstrId) : fn'.key? i = fn.key? i := by
  unfold Func.key?
  rw [h.op]
  by_cases hm : (fn.instr i).op.isMovable = true
  · have hphi : (fn.instr i).op ≠ .phi := fun hp => by simp [hp, Op.isMovable] at hm
    rw [if_pos hm, if_pos hm, h.expression hphi]
  · rw [if_neg hm, if_neg hm]

theorem keysIn (bs : List BlockId) : fn'.keysIn bs = fn.keysIn bs := by
  unfold Func.keysIn
  simp only [h.body, funext h.key?]

theorem definition? (i : InstrId) : fn'.definition? i = fn.definition? i := by
  by_cases hs : (fn.instr i).op = .store
  · have hs' : (fn'.instr i).op = .store := (h.op i).trans hs
    have hargs := h.args i (by rw [hs]; decide)
    simp [Func.definition?, hs, hs', hargs]
  · rw [Scope.definition?_of_ne_store hs, Scope.definition?_of_ne_store (h.op i ▸ hs), h.op]

end Alike
end Func

def Catalog.Match (fn fn' : Func) (cat cat' : Catalog Value InstrId) (e e' : Nat) : Prop :=
  ∃ x, (cat.keys fn.reader)[e]? = some x ∧ (cat'.keys fn'.reader)[e']? = some x

namespace Catalog.Match

variable {fn fn' : Func} {cat cat' : Catalog Value InstrId} {e e' : Nat} {i : InstrId}
  {reads : Bool}

theorem symm (h : Match fn fn' cat cat' e e') : Match fn' fn cat' cat e' e :=
  h.imp fun _ hx => ⟨hx.2, hx.1⟩

theorem lt (h : Match fn fn' cat cat' e e') : e < cat.size := by
  obtain ⟨x, hx, -⟩ := h
  rw [← length_keys (r := fn.reader)]
  exact (List.getElem?_eq_some_iff.1 hx).1

theorem entries (h : Match fn fn' cat cat' e e') {n : Entry Value InstrId}
    (hn : cat.entries[e]? = some n) :
    ∃ n', cat'.entries[e']? = some n' ∧ n'.expression fn'.reader = n.expression fn.reader := by
  obtain ⟨x, hx, hx'⟩ := h
  obtain ⟨m, hm, rfl⟩ := getElem?_keys.1 hx
  rw [hn, Option.some.injEq] at hm
  subst hm
  exact getElem?_keys.1 hx'

theorem exprAt (h : Match fn fn' cat cat' e e') (hf : fn.Alike fn') (hc : cat.Lawful fn)
    (hc' : cat'.Lawful fn') (i : InstrId) :
    fn.exprAt cat i = some e ↔ fn'.exprAt cat' i = some e' := by
  obtain ⟨x, hx, hx'⟩ := h
  rw [hc.exprAt_iff_key, hc'.exprAt_iff_key, hx, hx', hf.key?]

theorem occurs (h : Match fn fn' cat cat' e e') (hf : fn.Alike fn') (hc : cat.Lawful fn)
    (hc' : cat'.Lawful fn') (l : List InstrId) : fn.Occurs cat l e ↔ fn'.Occurs cat' l e' := by
  unfold Func.Occurs
  simp only [h.exprAt hf hc hc']

theorem before (h : Match fn fn' cat cat' e e') (hf : fn.Alike fn') (hc : cat.Lawful fn)
    (hc' : cat'.Lawful fn') (l : List InstrId) : fn'.before cat' l e' = fn.before cat l e := by
  unfold Func.before
  congr 1
  funext i
  rw [Bool.eq_iff_iff, bne_iff_ne, bne_iff_ne, ne_eq, ne_eq, h.exprAt hf hc hc']

theorem kills_of (h : Match fn fn' cat cat' e e') (hf : fn.Alike fn') (hc : cat.Lawful fn)
    (hc' : cat'.Lawful fn') (hk : fn.Kills cat reads i e) : fn'.Kills cat' reads i e' := by
  obtain ⟨n, hn, hk⟩ := hk
  obtain ⟨n', hn', hx⟩ := h.entries hn
  have hop : n'.op = n.op := congrArg Expression.op hx
  have hdest : n'.dest = n.dest := congrArg Expression.dest hx
  refine ⟨n', hn', ?_⟩
  rw [hop, hdest, hx, hf.definition?, hf.op]
  rcases hk with hdef | ⟨hs, hst, ha, hne⟩ | ⟨hs, hr, hld, ha⟩
  · exact Or.inl hdef
  · rw [hf.args i (by rw [hst]; decide), ne_eq, ← h.exprAt hf hc hc']
    exact Or.inr (Or.inl ⟨hs, hst, ha, hne⟩)
  · rw [hf.args i (by rw [hld]; decide)]
    exact Or.inr (Or.inr ⟨hs, hr, hld, ha⟩)

theorem kills (h : Match fn fn' cat cat' e e') (hf : fn.Alike fn') (hc : cat.Lawful fn)
    (hc' : cat'.Lawful fn') : fn.Kills cat reads i e ↔ fn'.Kills cat' reads i e' :=
  ⟨h.kills_of hf hc hc', h.symm.kills_of hf.symm hc' hc⟩

end Catalog.Match

/-- What occurs in a block that is reached has the same number in both catalogs. -/
theorem Func.Cataloged.exprAt_live {fn fn' : Func} {cat cat' : Catalog Value InstrId}
    (h : fn.Cataloged cat) (h' : fn'.Cataloged cat') (hf : fn.Alike fn') {b : BlockId} {i : InstrId}
    (hb : b ∈ fn.preOrder) (hi : i ∈ (fn.block b).body) (hm : (fn.instr i).op.isMovable = true) :
    ∃ e, fn.exprAt cat i = some e ∧ fn'.exprAt cat' i = some e := by
  obtain ⟨x, hx⟩ := h.movable b (hf.enclosed.attached hb) i hi hm
  have hlive : x ∈ (fn.keysIn fn.reversePostOrder).eraseDups :=
    List.mem_eraseDups.2 (Func.mem_keysIn.2 ⟨b, Func.mem_reversePostOrder.2 hb, i, hi, hx⟩)
  have hpre' := h'.live_first
  rw [hf.reversePostOrder, hf.keysIn] at hpre'
  obtain ⟨e, he⟩ := List.getElem?_of_mem hlive
  exact ⟨e, h.lawful.exprAt_iff_key.2 ⟨x, hx, getElem?_extend h.live_first he⟩,
    h'.lawful.exprAt_iff_key.2 ⟨x, (hf.key? i).trans hx, getElem?_extend hpre' he⟩⟩

/-- A block that can be scanned with one catalog can be scanned with another that has all its
expressions. -/
theorem Context.Scans.of_alike {fn fn' : Func} {cat cat' : Catalog Value InstrId} {b : BlockId}
    (h : Scans fn cat b) (hf : fn.Alike fn') (hc : cat.Indexed fn.reader)
    (hc' : cat'.Indexed fn'.reader) (hk : ∀ x ∈ cat.keys fn.reader, x ∈ cat'.keys fn'.reader) :
    Scans fn' cat' b := by
  have hindex : ∀ i, (fn.instr i).op ≠ .phi → (∃ e, cat.index fn.reader i = .ok e) →
      ∃ e, cat'.index fn'.reader i = .ok e := by
    intro i hop
    rw [hc.exists_index_iff, hc'.exists_index_iff, hf.expression hop]
    exact fun ⟨x, hx, hi⟩ => ⟨x, hk x hx, hi⟩
  have hadd : ∀ i, Scope.Addable fn cat i → Scope.Addable fn' cat' i := by
    rintro i ⟨hstore, hload⟩
    refine ⟨fun hop => ?_, fun hop => ?_⟩
    · rw [hf.op] at hop
      have hphi : (fn.instr i).op ≠ .phi := by rw [hop]; decide
      rw [hf.args i hphi]
      exact ⟨(hstore hop).1, hindex i hphi (hstore hop).2⟩
    · rw [hf.op] at hop
      rw [hf.args i (by rw [hop]; decide)]
      exact hload hop
  refine ⟨fun i hi => hadd i (h.1 i (hf.listed b ▸ hi)), fun i hi => ?_⟩
  obtain ⟨ha, hmov⟩ := h.2 i (hf.body b ▸ hi)
  refine ⟨hadd i ha, fun hm => ?_⟩
  rw [hf.op] at hm
  exact hindex i (fun hp => by simp [hp, Op.isMovable] at hm) (hmov hm)

end CodeMotion
