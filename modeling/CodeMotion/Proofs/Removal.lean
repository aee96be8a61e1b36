import Mathlib
import CodeMotion.Proofs.Rewiring

/-! Removal takes the first occurrence of each redundant expression out of its block. Every deletion
of a plan finds its site, no two have the same, and no value has to stay for want of a copy. -/

namespace CodeMotion

namespace Func

variable {fn g : Func} {B : List BlockId} {gone : List InstrId} {b : BlockId} {i : InstrId}

structure Cleared (fn g : Func) (B : List BlockId) (gone : List InstrId) : Prop where
  name : g.name = fn.name
  isExternal : g.isExternal = fn.isExternal
  layout : g.layout = fn.layout
  instrs_size : g.instrs.size = fn.instrs.size
  blocks_size : g.blocks.size = fn.blocks.size
  phis : ∀ b, (g.block b).phis = (fn.block b).phis
  term : ∀ b, (g.block b).term = (fn.block b).term
  preds : ∀ b, (g.block b).preds = (fn.block b).preds
  body : ∀ b ∈ B, (g.block b).body = (fn.block b).body.filter (· ∉ gone)
  instr : ∀ i, g.instr i = if i ∈ gone then { fn.instr i with block := none } else fn.instr i

theorem Cleared.refl (fn : Func) (B : List BlockId) : fn.Cleared fn B [] :=
  ⟨rfl, rfl, rfl, rfl, rfl, fun _ => rfl, fun _ => rfl, fun _ => rfl, by simp, by simp⟩

/-- One more instruction is taken out of the only block that lists it. -/
theorem Cleared.remove (h : fn.Cleared g B gone) (hb : b ∈ B) (hi : i ∈ (fn.block b).body)
    (hnd : (fn.block b).body.Nodup) (hother : ∀ c ∈ B, i ∈ (fn.block c).body → c = b)
    (hgone : i ∉ gone) : ∃ f, g.remove b i = (true, f) ∧ fn.Cleared f B (gone ++ [i]) := by
  have hmem : i ∈ (g.block b).body := by
    rw [h.body b hb]
    exact List.mem_filter.2 ⟨hi, by simpa using hgone⟩
  have hhas : g.hasBlock b = true := by
    by_contra hno
    rw [block_eq_default (Bool.eq_false_iff.2 hno)] at hmem
    cases hmem
  refine ⟨_, if_pos (by simpa using hmem), ?_⟩
  have hblock : ∀ c, ((g.setParent i none).modifyBlock b fun blk =>
    { blk with body := blk.body.erase i }).block c =
      if b = c then { g.block c with body := (g.block c).body.erase i } else g.block c := by
    intro c
    rw [block_modifyBlock]
    by_cases hbc : b = c
    · subst hbc
      rw [if_pos ⟨rfl, hhas⟩, if_pos rfl]
      rfl
    · rw [if_neg fun hh => hbc hh.1, if_neg hbc]
      rfl
  refine ⟨h.name, h.isExternal, h.layout, ?_, ?_, ?_, ?_, ?_, ?_, ?_⟩
  · exact (Table.size_modify _ _ _).trans h.instrs_size
  · exact (Table.size_modify _ _ _).trans h.blocks_size
  · intro c
    rw [hblock, ← h.phis]
    split <;> rfl
  · intro c
    rw [hblock, ← h.term]
    split <;> rfl
  · intro c
    rw [hblock, ← h.preds]
    split <;> rfl
  · intro c hc
    rw [hblock]
    by_cases hbc : b = c
    · subst hbc
      rw [if_pos rfl]
      show (g.block b).body.erase i = _
      rw [h.body b hb, (hnd.filter _).erase_eq_filter, List.filter_filter]
      refine List.filter_congr fun j _ => ?_
      by_cases hj : j = i <;> simp [hj]
    · have hnot : i ∉ (fn.block c).body := fun hm => hbc (hother c hc hm).symm
      rw [if_neg hbc, h.body c hc]
      refine List.filter_congr fun j hj => ?_
      have : j ≠ i := fun hh => hnot (hh ▸ hj)
      simp [this]
  · intro j
    rw [instr_modifyBlock, instr_setParent_none, h.instr]
    by_cases hij : i = j
    · subst hij
      simp [hgone]
    · have : j ∈ gone ++ [i] ↔ j ∈ gone := by simp [Ne.symm hij]
      rw [if_neg hij, if_congr this rfl rfl]

end Func

namespace Plan

open Motion (State)

variable (p : Plan)

/-- A value without a copy stays, for its uses need it. -/
def isKept (e : Nat) : Bool :=
  (p.context.catalog.entries[e]?).any (·.op.hasResult) && (p.lastCopy? e).isNone

def deletionOf (k e : Nat) : List (Nat × Nat) := if p.isKept e then [] else [(k, e)]

def deletionsIn (k : Nat) : List (Nat × Nat) := (p.sets.delete.of k).toList.flatMap (p.deletionOf k)

def deletions : List (Nat × Nat) := (List.range p.context.nodes.size).flatMap p.deletionsIn

def site (q : Nat × Nat) : InstrId := ((p.context.node q.1).sites.lookup q.2).getD 0

def gone : List InstrId := p.deletions.map p.site

/-- A state in which some deletions have been made since `st`, whose function was `g` by then. -/
structure Pruned (st : State) (g : Func) (done : List (Nat × Nat)) (t : State) : Prop where
  cleared : g.Cleared t.func p.attached (done.map p.site)
  context : t.context = st.context
  clones : t.clones = st.clones
  splits : t.splits = st.splits
  motion : t.done = { st.done with deleted := done.length }

variable {p} {st t : State} {g : Func} {k e : Nat} {q r : Nat × Nat} {b : BlockId} {i : InstrId}

theorem mem_deletionsIn :
    q ∈ p.deletionsIn k ↔ q.1 = k ∧ q.2 ∈ p.sets.delete.of k ∧ p.isKept q.2 = false := by
  obtain ⟨j, e⟩ := q
  simp only [deletionsIn, List.mem_flatMap, BitSet.mem_toList]
  constructor
  · rintro ⟨f, hf, hm⟩
    unfold deletionOf at hm
    split at hm
    · cases hm
    · next hkept =>
      rw [List.mem_singleton, Prod.mk.injEq] at hm
      obtain ⟨rfl, rfl⟩ := hm
      exact ⟨rfl, hf, Bool.eq_false_iff.2 hkept⟩
  · rintro ⟨rfl, he, hkept⟩
    exact ⟨e, he, by simp [deletionOf, hkept]⟩

theorem mem_deletions :
    q ∈ p.deletions ↔ q.1 < p.context.nodes.size ∧ q.2 ∈ p.sets.delete.of q.1 ∧
      p.isKept q.2 = false := by
  simp only [deletions, List.mem_flatMap, List.mem_range, mem_deletionsIn]
  constructor
  · rintro ⟨k, hk, rfl, he⟩
    exact ⟨hk, he⟩
  · rintro ⟨hk, he⟩
    exact ⟨_, hk, rfl, he⟩

theorem nodup_deletions (p : Plan) : p.deletions.Nodup := by
  have hin : ∀ k, (p.deletionsIn k).Nodup := fun k => by
    refine List.nodup_flatMap.2 ⟨fun e _ => ?_, (nodup_toList _).imp fun {e f} hef q hq hq' =>
      hef ?_⟩
    · unfold deletionOf
      split <;> simp
    · have hsnd : ∀ e, q ∈ p.deletionOf k e → q.2 = e := fun e hq => by
        unfold deletionOf at hq
        split at hq <;> simp_all
      rw [← hsnd e hq, ← hsnd f hq']
  refine List.nodup_flatMap.2 ⟨fun k _ => hin k, ?_⟩
  refine List.nodup_range.imp fun {x y} hxy q hq hq' => hxy ?_
  rw [← (mem_deletionsIn.1 hq).1, ← (mem_deletionsIn.1 hq').1]

namespace Feasible

variable (h : p.Feasible)
include h

/-- What is known about the site of a deletion. -/
theorem site_spec (hq : q ∈ p.deletions) : (p.context.node q.1).sites.lookup q.2 = some (p.site q) ∧
    p.site q ∈ (p.func.block (p.blockAt q.1)).body ∧ p.func.exprAt p.context.catalog (p.site q) =
      some q.2 := by
  obtain ⟨hk, he, -⟩ := mem_deletions.1 hq
  obtain ⟨c₀, hs⟩ := h.solved
  have hup := ((hs.mem_deleteIn hk).1 ((h.decided.delete_iff _ hk _).1 he).1).2.2.1
  have hx := hs.exposed _ hk
  obtain ⟨i, hi, hie⟩ := ((hx.up q.2).1 hup).1
  have hsites := hx.sites q.2
  cases hf : (p.context.body p.func q.1).find? fun i =>
    p.func.exprAt p.context.catalog i == some q.2 with
  | none =>
    have := List.find?_eq_none.1 hf i hi
    simp [hie] at this
  | some j =>
    rw [hf] at hsites
    have hsite : p.site q = j := by rw [site, hsites]; rfl
    rw [hsite]
    exact ⟨hsites, List.mem_of_find?_eq_some hf, by simpa using List.find?_some hf⟩

theorem site_inj (hq : q ∈ p.deletions) (hr : r ∈ p.deletions) (he : p.site q = p.site r) :
    q = r := by
  obtain ⟨-, hbq, heq⟩ := h.site_spec hq
  obtain ⟨-, hbr, her⟩ := h.site_spec hr
  have hkq := (mem_deletions.1 hq).1
  have hkr := (mem_deletions.1 hr).1
  rw [he] at hbq heq
  rw [heq, Option.some.injEq] at her
  have hblock := h.assembled.block_unique (h.blockAt_mem hkq) (h.blockAt_mem hkr)
    (Func.mem_listed_of_body hbq) (Func.mem_listed_of_body hbr)
  exact Prod.ext (h.blockAt_inj hkq hkr hblock) her

/-- A value is deleted only if it has a copy. -/
theorem exists_copy (hq : q ∈ p.deletions)
    (hres : (p.func.instr (p.origin q.2)).op.hasResult = true) : ∃ x, p.Moves (x, q.2) := by
  obtain ⟨n, hn, -⟩ := Catalog.exprAt_entry (h.site_spec hq).2.2
  have hop : n.op.hasResult = true := by rw [← (h.origin_of_entry hn).2.1, hres]
  have hkept := (mem_deletions.1 hq).2.2
  rw [isKept, hn, Option.any_some, hop, Bool.true_and, Option.isNone_eq_false_iff,
    Option.isSome_iff_exists] at hkept
  obtain ⟨⟨x, e⟩, hl⟩ := hkept
  have he : e = q.2 := by simpa using List.find?_some hl
  exact ⟨x, he ▸ List.mem_reverse.1 (List.mem_of_find?_eq_some hl), hres⟩

/-- All occurrences of a value are in one node. -/
theorem node_unique {n : Catalog.Entry Value InstrId} (hn : p.context.catalog.entries[e]? = some n)
    (hres : n.op.hasResult = true) {j : Nat} (hj : j < p.context.nodes.size)
    (hk : k < p.context.nodes.size)
    (hoj : p.func.Occurs p.context.catalog (p.context.body p.func j) e)
    (hok : p.func.Occurs p.context.catalog (p.context.body p.func k) e) : j = k := by
  obtain ⟨c₀, hs⟩ := h.solved
  obtain ⟨i, hi, hie⟩ := hoj
  obtain ⟨i', hi', hie'⟩ := hok
  have hne : n.op ≠ .store := fun hst => by
    rw [hst] at hres
    cases hres
  have heq : i = i' :=
    (hs.numbered.lawful.instr_unique hn hne hie).trans (hs.numbered.lawful.instr_unique hn
      hne hie').symm
  subst heq
  exact h.blockAt_inj hj hk (h.assembled.block_unique (h.blockAt_mem hj) (h.blockAt_mem hk)
    (Func.mem_listed_of_body hi) (Func.mem_listed_of_body hi'))

/-- No value that is to be deleted is kept: a path that comes to its node for the first time has not
passed the value, so that one of its edges has a copy. -/
theorem isKept_eq_false (he : e ∈ p.sets.delete.of k) : p.isKept e = false := by
  obtain ⟨c₀, hs⟩ := h.solved
  have hk : k < p.context.nodes.size := hs.numbered.fits.delete.1 ▸ Family.lt_of_mem he
  refine Bool.eq_false_iff.2 fun hkept => ?_
  rw [isKept, Bool.and_eq_true, Option.any_eq_true, Option.isNone_iff_eq_none] at hkept
  obtain ⟨⟨n, hn, hres⟩, hnone⟩ := hkept
  obtain ⟨hdel, hcarried⟩ := (h.decided.delete_iff k hk e).1 he
  obtain ⟨h0, ⟨π, hπ⟩, hup, hlater⟩ := (hs.mem_deleteIn hk).1 hdel
  obtain ⟨π', -, hπ', hfirst⟩ := hπ.first
  have hpass : ∀ x ∈ π', e ∉ p.sets.down.of (p.context.edge x).source := by
    intro x hx hdown
    have hlt := h.wired.source_lt x (hπ'.edge_lt x hx)
    exact hfirst x hx (h.node_unique hn hres hlt hk (((hs.exposed _ hlt).down e).1 hdown).1
      (((hs.exposed k hk).up e).1 hup).1)
  obtain ⟨x, hx, hins⟩ :=
    hs.exists_insertion hπ' hpass (Or.inr ⟨h0, (hs.mem_antIn hk).2 (Or.inl hup), hlater⟩)
  have hlt := hπ'.edge_lt x hx
  have hcopy : (x, e) ∈ p.copies :=
    mem_copies.2 ⟨hlt, (h.decided.insert_iff x hlt e).2 ⟨hins, hcarried⟩⟩
  have := List.find?_eq_none.1 hnone (x, e) (List.mem_reverse.2 hcopy)
  simp at this

/-- Every deletion is made. -/
theorem mem_deletions_iff :
    q ∈ p.deletions ↔ q.1 < p.context.nodes.size ∧ q.2 ∈ p.sets.delete.of q.1 := by
  rw [mem_deletions]
  exact ⟨fun hq => ⟨hq.1, hq.2.1⟩, fun ⟨hk, he⟩ => ⟨hk, he, h.isKept_eq_false he⟩⟩

end Feasible

namespace Inserted

/-- The body of an attached block lists no instruction twice, and old ones are in one block only. -/
theorem nodup_body (h : p.Feasible) (hi : p.Inserted p.copies p.cuts st) (hb : b ∈ p.func.layout) :
    (st.func.block b).body.Nodup := by
  rw [hi.body]
  refine List.nodup_append.2 ⟨h.assembled.nodup_body hb, p.nodup_placed b, ?_⟩
  · rintro i hib _ hic rfl
    obtain ⟨q, -, rfl⟩ := List.mem_map.1 hic
    have hle := h.assembled.listed_le hb (Func.mem_listed_of_body hib)
    exact absurd (p.lt_copyId q) (Nat.not_lt_of_le hle)

theorem mem_body_old (hi : p.Inserted p.copies p.cuts st) (hb : b ∈ p.attached) {i : Nat}
    (hle : i ≤ p.func.instrs.size) (hm : i ∈ (st.func.block b).body) :
    b ∈ p.func.layout ∧ i ∈ (p.func.block b).body := by
  have hold : i ∈ (p.func.block b).body := by
    rw [hi.body, List.mem_append] at hm
    refine hm.resolve_right fun hc => ?_
    obtain ⟨q, -, rfl⟩ := List.mem_map.1 hc
    exact absurd (p.lt_copyId q) (Nat.not_lt_of_le hle)
  refine ⟨(List.mem_append.1 hb).resolve_right fun hs => ?_, hold⟩
  obtain ⟨x, -, rfl⟩ := List.mem_map.1 hs
  rw [p.block_splitId x] at hold
  cases hold

/-- A deletion finds its site. -/
theorem deleteSite (h : p.Feasible) (hi : p.Inserted p.copies p.cuts st)
    (hblock : ∀ b, g.block b = st.func.block b) {done rest : List (Nat × Nat)}
    (ht : p.Pruned st g done t) (he : e ∈ p.sets.delete.of k)
    (hnext : p.deletions = done ++ p.deletionOf k e ++ rest) :
    ∃ t', State.deleteSite k e t = .ok ⟨⟩ t' ∧ p.Pruned st g (done ++ p.deletionOf k e) t' := by
  obtain ⟨hf, hcontext, hclones, hsplits, hdone⟩ := ht
  have hlast : t.lastClone? e = (p.lastCopy? e).map p.copyId := by
    rw [← hi.lastClone?]
    unfold State.lastClone?
    rw [hclones]
  have hkept := h.isKept_eq_false he
  have hof : p.deletionOf k e = [(k, e)] := by simp [deletionOf, hkept]
  rw [hof] at hnext ⊢
  have hq : (k, e) ∈ p.deletions := by simp [hnext]
  have hnew : (k, e) ∉ done := by
    have hnd := p.nodup_deletions
    rw [hnext, List.append_assoc, List.nodup_append] at hnd
    exact fun hm => hnd.2.2 _ hm _ List.mem_cons_self rfl
  obtain ⟨hlookup, hbody, hexpr⟩ := h.site_spec hq
  have hk := (mem_deletions.1 hq).1
  have hlayout := h.blockAt_mem hk
  obtain ⟨n, hn, -⟩ := Catalog.exprAt_entry hexpr
  have hle := h.assembled.listed_le hlayout (Func.mem_listed_of_body hbody)
  obtain ⟨f', hf', hclear⟩ : ∃ f', t.func.remove (p.blockAt k) (p.site (k, e)) = (true, f') ∧
      g.Cleared f' p.attached (done.map p.site ++ [p.site (k, e)]) := by
    refine hf.remove (List.mem_append_left _ hlayout) ?_ ?_ ?_ ?_
    · rw [hblock, hi.body]
      exact List.mem_append_left _ hbody
    · rw [hblock]
      exact hi.nodup_body h hlayout
    · intro c hc hm
      rw [hblock] at hm
      obtain ⟨hcl, hcb⟩ := hi.mem_body_old hc hle hm
      exact h.assembled.block_unique hcl hlayout (Func.mem_listed_of_body hcb)
        (Func.mem_listed_of_body hbody)
    · intro hm
      obtain ⟨r, hr, he⟩ := List.mem_map.1 hm
      exact hnew (h.site_inj (by simp [hnext, hr]) hq he ▸ hr)
  have hcond : (n.op.hasResult && (t.lastClone? e).isNone) = false := by
    rw [isKept, hn, Option.any_some] at hkept
    rw [hlast, Option.isNone_map, hkept]
  have hnode : t.context.node k = p.context.node k := by
    unfold Context.node
    rw [hcontext, ← hi.nodes]
  have hcatalog : t.context.catalog = p.context.catalog := by rw [hcontext, ← hi.catalog]
  have hremove : t.func.remove (p.context.node k).block (p.site (k, e)) = (true, f') := hf'
  unfold State.deleteSite
  rw [Change.get_bind, hcatalog]
  simp only [hn, hnode, hcond, Bool.false_eq_true, if_false, hlookup, hremove]
  refine ⟨_, rfl, by rw [List.map_append]; exact hclear, hcontext, hclones, hsplits, ?_⟩
  rw [hdone, List.length_append]
  rfl

/-- The deletions of one node are made. -/
theorem deleteNode (h : p.Feasible) (hi : p.Inserted p.copies p.cuts st)
    (hblock : ∀ b, g.block b = st.func.block b) {done rest : List (Nat × Nat)}
    (ht : p.Pruned st g done t) (hnext : p.deletions = done ++ p.deletionsIn k ++ rest) :
    ∃ t', (p.sets.delete.of k).toList.forM (State.deleteSite k) t = .ok ⟨⟩ t' ∧
      p.Pruned st g (done ++ p.deletionsIn k) t' := by
  refine Change.forM_ok (f := State.deleteSite k) (fun pre t =>
    p.Pruned st g (done ++ pre.flatMap (p.deletionOf k)) t) ?_ (by simpa using ht)
  rintro pre e post t' hl ht'
  have hq : p.deletions = done ++ pre.flatMap (p.deletionOf k) ++ p.deletionOf k e ++
      (post.flatMap (p.deletionOf k) ++ rest) := by
    rw [hnext, deletionsIn, hl]
    simp
  have he : e ∈ p.sets.delete.of k := BitSet.mem_toList.1 (by rw [hl]; simp)
  obtain ⟨t'', hstep, ht''⟩ := hi.deleteSite h hblock ht' he hq
  have happ : done ++ (pre ++ [e]).flatMap (p.deletionOf k) =
      done ++ pre.flatMap (p.deletionOf k) ++ p.deletionOf k e := by
    simp
  rw [happ]
  exact ⟨t'', hstep, ht''⟩

/-- All deletions are made. -/
theorem deleteAll (h : p.Feasible) (hi : p.Inserted p.copies p.cuts st)
    (hblock : ∀ b, g.block b = st.func.block b) :
    ∃ t, State.deleteAll p.sets { st with func := g } = .ok ⟨⟩ t ∧ p.Pruned st g p.deletions t := by
  unfold State.deleteAll
  rw [Change.get_bind, hi.nodes]
  refine Change.forM_ok (f := fun k => (p.sets.delete.of k).toList.forM (State.deleteSite k))
    (fun pre t => p.Pruned st g (pre.flatMap p.deletionsIn) t) ?_ ?_
  · rintro pre k post t hl ht
    have hnext : p.deletions = pre.flatMap p.deletionsIn ++ p.deletionsIn k ++
        post.flatMap p.deletionsIn := by
      rw [deletions, hl]
      simp
    obtain ⟨t', hstep, ht'⟩ := hi.deleteNode h hblock ht hnext
    have happ : (pre ++ [k]).flatMap p.deletionsIn =
        pre.flatMap p.deletionsIn ++ p.deletionsIn k := by
      simp
    rw [happ]
    exact ⟨t', hstep, ht'⟩
  · exact ⟨.refl g _, rfl, rfl, rfl, by rw [hi.motion]; rfl⟩

end Inserted

/-- A function in which the copies and deletions of a plan have been made, while its graph is still
the old one. -/
structure Settled (p : Plan) (f : Func) : Prop where
  name : f.name = p.func.name
  isExternal : f.isExternal = p.func.isExternal
  layout : f.layout = p.func.layout
  instrs_size : f.instrs.size = p.func.instrs.size + p.copies.length
  blocks_size : f.blocks.size = p.func.blocks.size + p.cuts.length
  phis : ∀ b, (f.block b).phis = (p.func.block b).phis
  term : ∀ b, (f.block b).term = (p.func.block b).term
  preds : ∀ b, (f.block b).preds = (p.func.block b).preds
  body : ∀ b ∈ p.attached, (f.block b).body = (p.func.block b).body.filter (· ∉ p.gone) ++
    p.placed p.copies b
  old : ∀ b ∈ p.func.layout, ∀ i ∈ p.func.listed b, f.instr i =
    { p.func.instr i with
      args := (p.func.instr i).args.map p.rename
      block := if i ∈ p.gone then none else (p.func.instr i).block }
  copy : ∀ q ∈ p.copies,
    f.instr (p.copyId q) = { p.copyInstr q with args := (p.copyInstr q).args.map p.rename }

theorem Settled.targets {f : Func} (hf : p.Settled f) (hb : b ∈ p.func.layout) :
    f.targets b = p.func.targets b :=
  Func.targets_congr (hf.term b) fun t ht => by
    rw [Option.mem_def] at ht
    rw [hf.old b hb t (by simp [Func.listed, ht])]

theorem Feasible.gone_le (h : p.Feasible) {i : Nat} (hi : i ∈ p.gone) : i ≤ p.func.instrs.size := by
  obtain ⟨q, hq, rfl⟩ := List.mem_map.1 hi
  exact h.assembled.listed_le (h.blockAt_mem (mem_deletions.1 hq).1)
    (Func.mem_listed_of_body (h.site_spec hq).2.1)

theorem Feasible.copyId_not_gone (h : p.Feasible) (q : Nat × Nat) : p.copyId q ∉ p.gone := fun hg =>
  absurd (p.lt_copyId q) (Nat.not_lt_of_le (h.gone_le hg))

/-- The first three steps of a motion together. -/
theorem Inserted.settled (h : p.Feasible) (hi : p.Inserted p.copies p.cuts st)
    (hr : st.func.Recast g (p.rewired st) p.rename) {f : Func}
    (hc : g.Cleared f p.attached p.gone) : p.Settled f := by
  have hplaced : ∀ b, ∀ i ∈ p.placed p.copies b, i ∉ p.gone := by
    intro b i hip
    obtain ⟨q, -, rfl⟩ := List.mem_map.1 hip
    exact h.copyId_not_gone q
  refine ⟨?_, ?_, ?_, ?_, ?_, ?_, ?_, ?_, ?_, ?_, ?_⟩
  · rw [hc.name, hr.name, hi.name]
  · rw [hc.isExternal, hr.isExternal, hi.isExternal]
  · rw [hc.layout, hr.layout, hi.layout]
  · rw [hc.instrs_size, hr.instrs_size, hi.instrs_size]
  · rw [hc.blocks_size, hr.blocks, hi.blocks_size]
  · intro b
    rw [hc.phis, hr.block, hi.phis]
  · intro b
    rw [hc.term, hr.block, hi.term]
  · intro b
    rw [hc.preds, hr.block, hi.preds]
  · intro b hb
    rw [hc.body b hb, hr.block, hi.body, List.filter_append]
    congr 1
    exact List.filter_eq_self.2 fun i hip => by simpa using hplaced b i hip
  · intro b hb i hil
    have hmem : i ∈ p.rewired st := by
      refine List.mem_flatMap.2 ⟨b, List.mem_append_left _ hb, ?_⟩
      unfold Func.listed at hil ⊢
      rw [hi.phis, hi.body, hi.term]
      simp only [List.mem_append] at hil ⊢
      exact hil.imp (Or.imp id Or.inl) id
    rw [hc.instr, hr.instr, if_pos hmem, hi.old i (h.assembled.listed_le hb hil)]
    split <;> rfl
  · intro q hq
    have hmem : p.copyId q ∈ p.rewired st := by
      refine List.mem_flatMap.2 ⟨p.place q.1, h.place_mem (mem_copies.1 hq).1, ?_⟩
      unfold Func.listed
      rw [hi.body]
      have : p.copyId q ∈ p.placed p.copies (p.place q.1) :=
        List.mem_map_of_mem (List.mem_filter.2 ⟨hq, by simp⟩)
      simp [this]
    rw [hc.instr, if_neg (h.copyId_not_gone q), hr.instr, if_pos hmem, hi.copy q hq]

end Plan
end CodeMotion
