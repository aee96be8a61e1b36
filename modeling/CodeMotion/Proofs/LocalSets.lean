import Mathlib
import CodeMotion.Proofs.Anticipation
import CodeMotion.Proofs.Deletion

/-! The local sets of a block, said by where an expression stands in it: what comes before its first
occurrence decides whether it is exposed upward, and what comes after its last one whether it is
exposed downward. -/

namespace CodeMotion

namespace Func

variable {fn : Func} {cat : Catalog Value InstrId} {l pre post : List InstrId} {i : InstrId}
  {e : Nat}

def FirstAt (fn : Func) (cat : Catalog Value InstrId) (l : List InstrId) (e : Nat)
    (pre : List InstrId) (i : InstrId) : Prop :=
  ∃ post, l = pre ++ i :: post ∧ fn.exprAt cat i = some e ∧ ∀ j ∈ pre, fn.exprAt cat j ≠ some e

def LastAt (fn : Func) (cat : Catalog Value InstrId) (l : List InstrId) (e : Nat) (i : InstrId)
    (post : List InstrId) : Prop :=
  ∃ pre, l = pre ++ i :: post ∧ fn.exprAt cat i = some e ∧ ∀ j ∈ post, fn.exprAt cat j ≠ some e

theorem firstAt_reverse : fn.FirstAt cat l.reverse e post.reverse i ↔ fn.LastAt cat l e i post := by
  constructor
  · rintro ⟨pre, hl, hi, hpost⟩
    refine ⟨pre.reverse, ?_, hi, fun j hj => hpost j (List.mem_reverse.2 hj)⟩
    rw [← List.reverse_reverse l, hl]
    simp
  · rintro ⟨pre, rfl, hi, hpost⟩
    exact ⟨pre.reverse, by simp, hi, fun j hj => hpost j (List.mem_reverse.1 hj)⟩

/-- What comes before the first occurrence is all that is scanned before the expression is met. -/
theorem FirstAt.before_eq (h : fn.FirstAt cat l e pre i) : fn.before cat l e = pre := by
  obtain ⟨post, rfl, hi, hpre⟩ := h
  unfold before
  rw [List.takeWhile_append_of_pos fun j hj => by simpa using hpre j hj]
  simp [hi]

theorem FirstAt.occurs (h : fn.FirstAt cat l e pre i) : fn.Occurs cat l e := by
  obtain ⟨post, rfl, hi, -⟩ := h
  exact ⟨i, by simp, hi⟩

theorem find?_eq_some_iff_firstAt :
    (l.find? fun j => fn.exprAt cat j == some e) = some i ↔ ∃ pre, fn.FirstAt cat l e pre i := by
  rw [List.find?_eq_some_iff_append]
  constructor
  · rintro ⟨hi, pre, post, rfl, hpre⟩
    exact ⟨pre, post, rfl, by simpa using hi, fun j hj => by simpa using hpre j hj⟩
  · rintro ⟨pre, post, rfl, hi, hpre⟩
    exact ⟨by simpa using hi, pre, post, rfl, fun j hj => by simpa using hpre j hj⟩

theorem Occurs.exists_firstAt (h : fn.Occurs cat l e) : ∃ pre i, fn.FirstAt cat l e pre i := by
  obtain ⟨i, hi⟩ := Option.isSome_iff_exists.1 (Context.find?_isSome_iff.2 h)
  obtain ⟨pre, hpre⟩ := find?_eq_some_iff_firstAt.1 hi
  exact ⟨pre, i, hpre⟩

/-- A property of what is scanned before an expression is met is one of what comes before its first
occurrence. -/
theorem occurs_and_before_iff (P : List InstrId → Prop) :
    fn.Occurs cat l e ∧ P (fn.before cat l e) ↔ ∃ pre i, fn.FirstAt cat l e pre i ∧ P pre := by
  constructor
  · rintro ⟨ho, hp⟩
    obtain ⟨pre, i, h⟩ := ho.exists_firstAt
    exact ⟨pre, i, h, h.before_eq ▸ hp⟩
  · rintro ⟨pre, i, h, hp⟩
    exact ⟨h.occurs, h.before_eq.symm ▸ hp⟩

theorem exprAt_of_isTerminator (h : (fn.instr i).op.isTerminator = true) :
    fn.exprAt cat i = none := by
  have hmov : (fn.instr i).op.isMovable = false := by
    cases hop : (fn.instr i).op <;> simp_all [Op.isMovable, Op.isTerminator]
  simp [exprAt, hmov]

/-- It makes no difference for the last occurrence whether a terminator counts. -/
theorem exists_lastAt_snoc {t : InstrId} (ht : (fn.instr t).op.isTerminator = true) :
    (∃ i post, fn.LastAt cat (l ++ [t]) e i post ∧ ∀ j ∈ post, ¬ fn.Kills cat false j e) ↔
      ∃ i post, fn.LastAt cat l e i post ∧ ∀ j ∈ post, ¬ fn.Kills cat false j e := by
  constructor
  · rintro ⟨i, post, ⟨pre, hl, hi, hpost⟩, hcalm⟩
    rcases List.eq_nil_or_concat post with rfl | ⟨post, u, rfl⟩
    · obtain ⟨-, rfl⟩ := List.append_inj' hl rfl |>.imp_right List.cons.inj |>.imp_right And.left
      simp [exprAt_of_isTerminator ht] at hi
    · rw [List.concat_eq_append] at hl hpost hcalm
      rw [← List.cons_append, ← List.append_assoc] at hl
      obtain ⟨rfl, -⟩ := List.append_inj' hl rfl
      exact ⟨i, post, ⟨pre, rfl, hi, fun j hj => hpost j (List.mem_append_left _ hj)⟩,
        fun j hj => hcalm j (List.mem_append_left _ hj)⟩
  · rintro ⟨i, post, ⟨pre, rfl, hi, hpost⟩, hcalm⟩
    refine ⟨i, post ++ [t], ⟨pre, by simp, hi, fun j hj => ?_⟩, fun j hj => ?_⟩
    · rcases List.mem_append.1 hj with hj | hj
      · exact hpost j hj
      · simp [List.mem_singleton.1 hj, exprAt_of_isTerminator ht]
    · rcases List.mem_append.1 hj with hj | hj
      · exact hcalm j hj
      · exact List.mem_singleton.1 hj ▸ not_kills_of_isTerminator ht

end Func

namespace Context

variable {fn : Func} {c₀ c₁ c₂ c d : Context} {s : Sets} {o : Options} {k : Nat} {b : BlockId}
  {e : Nat}

namespace Exposed

theorem mem_up_iff (h : Exposed fn c s k) (hb : (c.node k).block = b) : e ∈ s.up.of k ↔
    ∃ pre i, fn.FirstAt c.catalog (fn.block b).body e pre i ∧ ∀ j ∈ (fn.block b).phis ++ pre,
      ¬ fn.Kills c.catalog true j e := by
  subst hb
  exact (h.up e).trans
    (Func.occurs_and_before_iff fun pre => ∀ j ∈ (fn.block (c.node k).block).phis ++ pre,
      ¬ fn.Kills c.catalog true j e)

theorem mem_down_iff (h : Exposed fn c s k) (hb : (c.node k).block = b) : e ∈ s.down.of k ↔
    ∃ i post, fn.LastAt c.catalog (fn.block b).body e i post ∧ ∀ j ∈ post,
      ¬ fn.Kills c.catalog false j e := by
  subst hb
  have hrev : fn.Occurs c.catalog (c.body fn k) e ↔
      fn.Occurs c.catalog (c.body fn k).reverse e := by
    simp [Func.Occurs]
  rw [h.down, hrev, Func.occurs_and_before_iff fun pre => ∀ j ∈ pre, ¬ fn.Kills c.catalog false j e]
  constructor
  · rintro ⟨pre, i, hf, hpre⟩
    rw [← List.reverse_reverse pre] at hf
    exact ⟨i, pre.reverse, Func.firstAt_reverse.1 hf, fun j hj => hpre j (List.mem_reverse.1 hj)⟩
  · rintro ⟨i, post, hl, hpost⟩
    exact ⟨post.reverse, i, Func.firstAt_reverse.2 hl, fun j hj => hpost j (List.mem_reverse.1 hj)⟩

/-- In a block that ends in a terminator the terminator may be counted among its instructions. -/
theorem mem_down_iff_terminated (h : Exposed fn c s k) (hb : (c.node k).block = b)
    (ht : ∀ t ∈ (fn.block b).term, (fn.instr t).op.isTerminator = true) : e ∈ s.down.of k ↔
      ∃ i post, fn.LastAt c.catalog ((fn.block b).body ++ (fn.block b).term.toList) e i post ∧
        ∀ j ∈ post, ¬ fn.Kills c.catalog false j e := by
  rw [h.mem_down_iff hb]
  cases hterm : (fn.block b).term with
  | none => rw [Option.toList_none, List.append_nil]
  | some t => rw [Option.toList_some, Func.exists_lastAt_snoc (ht t hterm)]

/-- What occurs in a block that does not kill it is exposed both ways. -/
theorem mem_up_and_down (h : Exposed fn c s k) (ho : fn.Occurs c.catalog (c.body fn k) e)
    (hk : e ∉ s.kill.of k) : e ∈ s.up.of k ∧ e ∈ s.down.of k := by
  have hno : ∀ j ∈ fn.listed (c.node k).block, ¬ fn.Kills c.catalog true j e :=
    fun j hj hkill => hk ((h.kill e).2 ⟨j, hj, hkill⟩)
  refine ⟨(h.up e).2 ⟨ho, fun j hj => hno j ?_⟩,
    (h.down e).2 ⟨ho, fun j hj hkill => hno j ?_ hkill.of_false⟩⟩
  · rcases List.mem_append.1 hj with hj | hj
    · exact List.mem_append_left _ (List.mem_append_left _ hj)
    · exact List.mem_append_left _ (List.mem_append_right _ ((List.takeWhile_prefix _).subset hj))
  · exact List.mem_append_left _
      (List.mem_append_right _ (List.mem_reverse.1 ((List.takeWhile_prefix _).subset hj)))

end Exposed

theorem sets_of_scanBlock (hc : c.nodes ≠ #[]) (h : scanBlock fn k c = .ok ⟨⟩ d) :
    c.sets ≠ none := by
  intro hnone
  unfold scanBlock at h
  rw [Change.get_bind, Change.bind_ok] at h
  obtain ⟨_, c', hcheck, h⟩ := h
  obtain ⟨-, rfl⟩ := Change.check_apply.1 hcheck
  rw [Change.bind_ok] at h
  obtain ⟨_, _, hsized, -⟩ := h
  have hs := (Change.check_apply.1 hsized).1
  simp [sized, hnone, hc] at hs

/-- Without sets there is nothing to scan into. -/
theorem sets_of_localPredicates (hk : k < c.nodes.size) (h : localPredicates fn c = .ok ⟨⟩ d) :
    c.sets ≠ none := by
  have hne : c.nodes ≠ #[] := by
    intro hnil
    simp [hnil] at hk
  unfold localPredicates at h
  rw [Change.get_bind] at h
  have hloop := Change.forM_inv (fun done c' => (done = [] ∧ c' = c) ∨ c.sets ≠ none)
    (fun pre j post c' d' _ hc hj => by
      rcases hc with ⟨-, rfl⟩ | hs
      · exact Or.inr (sets_of_scanBlock hne hj)
      · exact Or.inr hs)
    (Or.inl ⟨rfl, rfl⟩) h
  refine hloop.resolve_left fun hnil => ?_
  rw [List.range_eq_nil.1 hnil.1] at hk
  exact absurd hk (Nat.not_lt_zero k)

theorem numberExpressions_sets (h₀ : ofFunc fn o = .ok c₀)
    (h₁ : numberExpressions fn c₀ = .ok ⟨⟩ c₁) (ho : c₁.overflow = true) : c₁.sets = none := by
  have hnone : c₀.sets = none := by rw [(ofFunc_eq_ok.1 h₀).2]
  obtain ⟨l, d, -, -, hnum, rfl⟩ := (ofFunc_fresh h₀).1.numberExpressions_cases h₁
  split at ho
  · rw [show d.resize.overflow = d.overflow from rfl, hnum.overflow, (ofFunc_fresh h₀).1.overflow]
      at ho
    cases ho
  · next hlarge =>
    rw [if_neg hlarge]
    exact hnum.sets.trans hnone

/-- The phases that find the local sets return, if every instruction can be read and there are not
too many expressions. -/
theorem scanning_ok (h₀ : ofFunc fn o = .ok c₀) (hr : fn.Readable) :
    ∃ c₁, Phase.numbering.apply fn c₀ = .ok ⟨⟩ c₁ ∧
    (c₁.overflow = false → ∃ c₂, Phase.scanning.apply fn c₁ = .ok ⟨⟩ c₂) := by
  have hf := (ofFunc_fresh h₀).1
  obtain ⟨c₁, h₁⟩ := hf.numberExpressions_ok hr.attached fun k => hf.expression_movables hr
  refine ⟨c₁, h₁, fun ho => ?_⟩
  obtain ⟨s, hst, hkill, hsites⟩ := (hf.numberExpressions_inv h₁).resolve_left (by simp [ho])
  exact localPredicates_ok hst hkill hsites fun k hk => hst.scans hf.toDrawn hr hk

/-- The local sets of every block: what it kills, what nothing in front of the first occurrence
disturbs, and what nothing but a load disturbs behind the last one. What ends the block can kill,
and it does not count for what is exposed downward, which is the same where it is a terminator. -/
theorem local_sets_by_occurrences (h₀ : ofFunc fn o = .ok c₀) :
    (fn.Readable → ∃ c₁, Phase.numbering.apply fn c₀ = .ok ⟨⟩ c₁ ∧
      (c₁.overflow = false → ∃ c₂, Phase.scanning.apply fn c₁ = .ok ⟨⟩ c₂)) ∧
    ∀ c₁ c₂ k b, Phase.numbering.apply fn c₀ = .ok ⟨⟩ c₁ → Phase.scanning.apply fn c₁ = .ok ⟨⟩ c₂ →
      fn.layout[k]? = some b →
      (c₂.node k).block = b ∧ ∃ s, c₂.sets = some s ∧
      (∀ e, (e ∈ s.kill.of k ↔ ∃ i ∈ fn.listed b, fn.Kills c₂.catalog true i e) ∧
        (e ∈ s.up.of k ↔ ∃ pre i, fn.FirstAt c₂.catalog (fn.block b).body e pre i ∧
          ∀ j ∈ (fn.block b).phis ++ pre, ¬ fn.Kills c₂.catalog true j e) ∧
        (e ∈ s.down.of k ↔ ∃ i post, fn.LastAt c₂.catalog (fn.block b).body e i post ∧
          ∀ j ∈ post, ¬ fn.Kills c₂.catalog false j e) ∧
        ((∀ t ∈ (fn.block b).term, (fn.instr t).op.isTerminator = true) →
          (e ∈ s.down.of k ↔ ∃ i post,
          fn.LastAt c₂.catalog ((fn.block b).body ++ (fn.block b).term.toList) e i post ∧
            ∀ j ∈ post, ¬ fn.Kills c₂.catalog false j e)) ∧
        (∀ i, (c₂.node k).sites.lookup e = some i ↔
          ∃ pre, fn.FirstAt c₂.catalog (fn.block b).body e pre i) ∧
        ((∃ i ∈ (fn.block b).body, fn.exprAt c₂.catalog i = some e) → e ∉ s.kill.of k →
          e ∈ s.up.of k ∧ e ∈ s.down.of k)) ∧
      (∀ e n, c₂.catalog.entries[e]? = some n → ∀ i, fn.exprAt c₂.catalog i = some e ↔
        (fn.instr i).op.isMovable = true ∧ fn.reader.expression i = .ok (n.expression fn.reader)) ∧
      (∀ i ∈ (fn.block b).body, (fn.instr i).op.isMovable = true →
        ∃ e, fn.exprAt c₂.catalog i = some e) ∧
      ∀ t reads e, (fn.instr t).op.isTerminator = true → ¬ fn.Kills c₂.catalog reads t e := by
  refine ⟨scanning_ok h₀, fun c₁ c₂ k b h₁ h₂ hb => ?_⟩
  have hdrawn := ofFunc_drawn h₀
  have hk₀ : k < c₀.nodes.size := by
    rw [hdrawn.size]
    exact (List.getElem?_eq_some_iff.1 hb).1
  have ho : c₁.overflow = false := by
    by_contra hover
    have hk₁ : k < c₁.nodes.size := by
      obtain ⟨l, d, -, -, hnum, hd⟩ := (ofFunc_fresh h₀).1.numberExpressions_cases h₁
      rw [hd]
      split <;> simpa [resize] using hnum.graph.nodes_size ▸ hk₀
    exact sets_of_localPredicates hk₁ h₂ (numberExpressions_sets h₀ h₁ (by simpa using hover))
  obtain ⟨-, s, hst, hexp⟩ := stage_of_scanning h₀ h₁ ho h₂
  have hk : k < c₂.nodes.size := hst.graph.nodes_size ▸ hk₀
  have hx := hexp k hk
  have hblock : (c₂.node k).block = b := by
    rw [hst.graph.block, hdrawn.node_eq hb]
  have hbody : c₂.body fn k = (fn.block b).body := by rw [body, hblock]
  refine ⟨hblock, s, hst.sets, fun e => ⟨?_, hx.mem_up_iff hblock, hx.mem_down_iff hblock,
    hx.mem_down_iff_terminated hblock, fun i => ?_, fun ho => ?_⟩,
    fun e n hn i => hst.numbered.lawful.exprAt_iff_entry hn, ?_, fun t reads e =>
      Func.not_kills_of_isTerminator⟩
  · rw [hx.kill, hblock]
  · rw [hx.sites, Func.find?_eq_some_iff_firstAt, hbody]
  · exact hx.mem_up_and_down (hbody ▸ ho)
  · rw [← hbody]
    exact hst.numbered.numbered k hk

/-- One address is written, read, and written again twice. -/
def rewritten : Func where
  name := "f"
  layout := [1]
  blocks := ⟨#[{ body := [1, 2, 3, 4], term := some 5 }]⟩
  instrs := ⟨#[
    { op := .store, args := [.const 1, .global 0 "g"], block := some 1 },
    { op := .load, args := [.global 0 "g"], block := some 1 },
    { op := .store, args := [.const 1, .global 0 "g"], block := some 1 },
    { op := .store, args := [.const 2, .global 0 "g"], block := some 1 },
    { op := .ret, block := some 1 }]⟩

theorem local_sets_by_occurrences_rewritten : ∃ c₀ c₁ c₂ s, ofFunc rewritten {} = .ok c₀ ∧
    Phase.numbering.apply rewritten c₀ = .ok ⟨⟩ c₁ ∧ Phase.scanning.apply rewritten c₁ = .ok ⟨⟩ c₂ ∧
      c₂.sets = some s ∧
    (∀ e, e ∈ s.up.of 0 ↔ ∃ pre i, rewritten.FirstAt c₂.catalog [1, 2, 3, 4] e pre i ∧
      ∀ j ∈ pre, ¬ rewritten.Kills c₂.catalog true j e) ∧
    ∀ e, e ∈ s.down.of 0 ↔ ∃ i post, rewritten.LastAt c₂.catalog [1, 2, 3, 4] e i post ∧
      ∀ j ∈ post, ¬ rewritten.Kills c₂.catalog false j e := by
  obtain ⟨c₀, c₁, c₂, h₀, h₁, -, h₂⟩ := exists_of_scanned? rewritten {} (by decide +kernel)
  obtain ⟨-, s, hs, hsets, -⟩ := (local_sets_by_occurrences h₀).2 c₁ c₂ 0 1 h₁ h₂ rfl
  exact ⟨c₀, c₁, c₂, s, h₀, h₁, h₂, hs, fun e => (hsets e).2.1, fun e => (hsets e).2.2.1⟩

/-- In the first block, which ends in a call, the set of killed expressions is right only if the
call counts among its instructions, and the set of those exposed downward only if it does not. -/
theorem local_sets_disagree_late :
    ∃ c₀ c₁ c₂ s, ofFunc late {} = .ok c₀ ∧ Phase.numbering.apply late c₀ = .ok ⟨⟩ c₁ ∧
    Phase.scanning.apply late c₁ = .ok ⟨⟩ c₂ ∧ c₂.sets = some s ∧
    ∀ l, l = (late.block 1).term.toList ∨ l = [] →
      ¬ ((0 ∈ s.kill.of 0 ↔ ∃ i ∈ (late.block 1).phis ++ (late.block 1).body ++ l,
        late.Kills c₂.catalog true i 0) ∧
        (0 ∈ s.down.of 0 ↔ ∃ i post, late.LastAt c₂.catalog ((late.block 1).body ++ l) 0 i post ∧
          ∀ j ∈ post, ¬ late.Kills c₂.catalog false j 0)) := by
  obtain ⟨c₀, c₁, c₂, h₀, h₁, -, h₂⟩ := exists_of_scanned? late {} (by decide +kernel)
  have hfound : (scanned? late {}).any (fun r => r.2.2.sets.any (fun s => decide (0 ∈ s.kill.of 0 ∧
    0 ∈ s.down.of 0)) &&
      decide (late.exprAt r.2.2.catalog 1 = some 0 ∧ late.exprAt r.2.2.catalog 2 = none) &&
      (r.2.2.catalog.entries[0]?).any fun n =>
        decide ((n.expression late.reader).operands = [.instr 2])) = true := by
    decide +kernel
  have hscan : scanned? late {} = some (c₀, c₁, c₂) := by simp [scanned?, h₀, h₁, h₂]
  rw [hscan] at hfound
  simp only [Option.any_some, Bool.and_eq_true, Option.any_eq_true, decide_eq_true_eq] at hfound
  obtain ⟨⟨⟨s, hs, hkill, hdown⟩, hstore, hcall⟩, n, hn, hops⟩ := hfound
  refine ⟨c₀, c₁, c₂, s, h₀, h₁, h₂, hs, fun l hl => ?_⟩
  rintro ⟨hkills, hexposed⟩
  rcases hl with rfl | rfl
  · obtain ⟨i, post, ⟨pre, hsplit, hi, -⟩, hcalm⟩ := hexposed.1 hdown
    refine hcalm 2 ?_ ⟨n, hn, Or.inl ⟨.instr 2, rfl, by simp [hops]⟩⟩
    -- the call is no occurrence, so it comes behind the last one
    have hlist : ([1, 2] : List InstrId) = pre ++ i :: post := hsplit
    cases pre with
    | nil => simp [← (List.cons.inj hlist).2]
    | cons a pre =>
      have htwo : i = 2 := by
        cases pre with
        | nil => exact (List.cons.inj (List.cons.inj hlist).2).1.symm
        | cons _ _ => simp at hlist
      rw [htwo, hcall] at hi
      cases hi
  · obtain ⟨i, hi, n', hn', hcases⟩ := hkills.1 hkill
    obtain rfl : i = 1 := List.mem_singleton.1 hi
    rw [hn, Option.some.injEq] at hn'
    subst hn'
    rcases hcases with ⟨v, hv, hop⟩ | ⟨-, -, -, hne⟩ | ⟨-, -, hload, -⟩
    · rw [hops, List.mem_singleton] at hop
      subst hop
      cases hv
    · exact hne hstore
    · cases hload

end Context
end CodeMotion
