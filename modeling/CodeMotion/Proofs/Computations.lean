import Mathlib
import CodeMotion.Proofs.Optimality
import CodeMotion.Proofs.Optimize

/-! What a motion does to the number of times that an expression is computed on a path. A block
loses one occurrence for each deletion in it, and an edge gains one for each copy on it. On a path
to a block without successors the copies are not more than the deletions. -/

namespace CodeMotion

namespace Func

def executed (fn : Func) (l : List BlockId) : List InstrId := l.flatMap fn.listed

theorem executed_append (fn : Func) (l m : List BlockId) :
    fn.executed (l ++ m) = fn.executed l ++ fn.executed m := List.flatMap_append

theorem executed_cons (fn : Func) (b : BlockId) (l : List BlockId) :
    fn.executed (b :: l) = fn.listed b ++ fn.executed l := rfl

theorem executed_singleton (fn : Func) (b : BlockId) : fn.executed [b] = fn.listed b :=
  List.append_nil _

end Func

def Func.Computes (fn : Func) (cat : Catalog Value InstrId) (clones : List (Nat × InstrId))
    (e : Nat) (i : InstrId) : Prop :=
  fn.exprAt cat i = some e ∨ (e, i) ∈ clones

instance (fn : Func) (cat : Catalog Value InstrId) (clones : List (Nat × InstrId)) (e : Nat)
    (i : InstrId) :
    Decidable (fn.Computes cat clones e i) := inferInstanceAs (Decidable (_ ∨ _))

namespace Motion.State

variable (st : Motion.State) (fn : Func) (cat : Catalog Value InstrId)

def unsplit (l : List BlockId) : List BlockId := l.filter (· ∉ st.splits)

/-- A map that leaves an operand as it is, or puts a copy in the place of a value that was moved. -/
def Renames (ρ : Value → Value) : Prop :=
  ∀ v, ρ v = v ∨ ∃ e d i, v = .instr d ∧ fn.exprAt cat d = some e ∧ (e, i) ∈ st.clones ∧
    ρ v = .instr i

/-- A walk after a motion beside the walk that it comes from. No expression is computed more often
on it; what cannot be moved is executed as before; what is new is a copy or leaves a split edge. -/
structure NoDearer (l : List BlockId) (b : BlockId) : Prop where
  walk : fn.Walk (st.unsplit l) b
  computed : ∀ e, (st.func.executed (l ++ [b])).countP (fn.Computes cat st.clones e ·) ≤
    (fn.executed (st.unsplit l ++ [b])).countP (fn.exprAt cat · = some e)
  fixed : (st.func.executed (l ++ [b])).filter (fun i => fn.hasInstr i &&
    !(fn.instr i).op.isMovable) =
    (fn.executed (st.unsplit l ++ [b])).filter fun i => !(fn.instr i).op.isMovable
  same : ∃ ρ, st.Renames fn cat ρ ∧ ∀ i ∈ fn.executed (st.unsplit l ++ [b]),
    (fn.instr i).op.isMovable = false →
    (st.func.instr i).op = (fn.instr i).op ∧ (st.func.instr i).callee = (fn.instr i).callee ∧
      (st.func.instr i).args = (fn.instr i).args.map ρ
  fresh : ∀ i ∈ st.func.executed (l ++ [b]), fn.hasInstr i = false →
    (∃ e, (e, i) ∈ st.clones) ∨ (st.func.instr i).op = .jump ∧ ∃ a ∈ st.splits,
      (st.func.instr i).block = some a

end Motion.State

namespace Plan

variable {p : Plan} {g : Func} {k x e : Nat} {b : BlockId} {i : InstrId} {π : List Nat}
  {q : Nat × Nat}

def clones (p : Plan) : List (Nat × InstrId) := p.copies.map fun q => (q.2, p.copyId q)

abbrev Computes (p : Plan) : Nat → InstrId → Prop := p.func.Computes p.context.catalog p.clones

theorem mem_clones : (e, i) ∈ p.clones ↔ ∃ q ∈ p.copies, q.2 = e ∧ p.copyId q = i := by
  simp [clones]

theorem trail_cons (x : Nat) (π : List Nat) : p.trail (x :: π) = p.trail [x] ++ p.trail π := by
  simp [trail]

theorem trail_singleton (x : Nat) :
    p.trail [x] = p.source x :: if p.isCut x then [p.splitId x] else [] := trail_append [] x

theorem hasInstr_of_lt {i : Nat} (hi : p.func.instrs.size < i) : p.func.hasInstr i = false :=
  Bool.eq_false_iff.2 fun h => absurd (Func.hasInstr_iff.1 h).2 (Nat.not_le_of_lt hi)

theorem exprAt_of_lt (cat : Catalog Value InstrId) {i : Nat} (hi : p.func.instrs.size < i) :
    p.func.exprAt cat i = none := by
  rw [Func.exprAt, Func.instr_eq_default (hasInstr_of_lt hi)]
  rfl

theorem computes_old {i : Nat} (hi : i ≤ p.func.instrs.size) :
    p.Computes e i ↔ p.func.exprAt p.context.catalog i = some e := by
  refine ⟨fun h => h.resolve_right fun hc => ?_, Or.inl⟩
  obtain ⟨q, -, -, rfl⟩ := mem_clones.1 hc
  exact absurd (p.lt_copyId q) (Nat.not_lt_of_le hi)

theorem computes_copy (hq : q ∈ p.copies) : p.Computes e (p.copyId q) ↔ q.2 = e := by
  rw [Computes, Func.Computes, exprAt_of_lt _ (p.lt_copyId q), mem_clones]
  constructor
  · rintro (h | ⟨r, hr, rfl, he⟩)
    · cases h
    · rw [copyId_inj hr he]
  · exact fun he => Or.inr ⟨q, hq, he, rfl⟩

theorem not_computes_jump (p : Plan) (x e : Nat) : ¬ p.Computes e (p.jumpId x) := by
  rintro (h | h)
  · rw [exprAt_of_lt _ (Nat.lt_of_le_of_lt (Nat.le_add_right _ _) (p.lt_jumpId x))] at h
    cases h
  · obtain ⟨r, hr, -, he⟩ := mem_clones.1 h
    exact absurd (he ▸ copyId_le hr) (Nat.not_le_of_lt (p.lt_jumpId x))

theorem countP_copiesOn (hx : x < p.context.edges.size) :
    ((p.copiesOn x).map p.copyId).countP (p.Computes e ·) = if e ∈ p.sets.insert.of x
      then 1 else 0 := by
  have hcount : ((p.copiesOn x).map p.copyId).countP (p.Computes e ·) =
      (p.sets.insert.of x).toList.count e := by
    rw [List.countP_map, copiesOn, List.countP_map, List.count]
    refine List.countP_congr fun f hf => ?_
    have hq : (x, f) ∈ p.copies := mem_copies.2 ⟨hx, BitSet.mem_toList.1 hf⟩
    simp [computes_copy hq]
  rw [hcount]
  split
  · next he => exact List.count_eq_one_of_mem (nodup_toList _) (BitSet.mem_toList.2 he)
  · next he => exact List.count_eq_zero_of_not_mem fun hm => he (BitSet.mem_toList.1 hm)

namespace Feasible

variable (h : p.Feasible)
include h

theorem mem_gone_iff (hk : k < p.context.nodes.size) (hi : i ∈ (p.func.block (p.blockAt k)).body)
    (he : p.func.exprAt p.context.catalog i = some e) :
    i ∈ p.gone ↔ (k, e) ∈ p.deletions ∧ p.site (k, e) = i := by
  constructor
  · intro hg
    obtain ⟨q, hq, rfl⟩ := List.mem_map.1 hg
    obtain ⟨-, hbody, hexpr⟩ := h.site_spec hq
    rw [he, Option.some.injEq] at hexpr
    have hkq := (mem_deletions.1 hq).1
    have hb := h.assembled.block_unique (h.blockAt_mem hkq) (h.blockAt_mem hk)
      (Func.mem_listed_of_body hbody) (Func.mem_listed_of_body hi)
    obtain rfl : q = (k, e) := Prod.ext (h.blockAt_inj hkq hk hb) hexpr.symm
    exact ⟨hq, rfl⟩
  · rintro ⟨hd, rfl⟩
    exact List.mem_map_of_mem hd

/-- A body loses one occurrence of an expression if the expression is deleted in it, and
else none. -/
theorem countP_body (hk : k < p.context.nodes.size) :
    ((p.func.block (p.blockAt k)).body.filter (· ∉ p.gone)).countP
      (p.func.exprAt p.context.catalog · = some e) +
      (if (k, e) ∈ p.deletions then 1 else 0) =
    (p.func.block (p.blockAt k)).body.countP (p.func.exprAt p.context.catalog · = some e) := by
  have hnd := h.assembled.nodup_body (h.blockAt_mem hk)
  rw [List.countP_eq_countP_filter_add (p.func.block (p.blockAt k)).body _ (· ∉ p.gone)]
  congr 1
  simp only [decide_not, Bool.not_not]
  rw [List.countP_filter]
  split
  · next hd =>
    have hsite := h.site_spec hd
    rw [← List.count_eq_one_of_mem hnd hsite.2.1, List.count]
    refine List.countP_congr fun i hi => ?_
    rw [beq_iff_eq, Bool.and_eq_true, decide_eq_true_eq, decide_eq_true_eq]
    constructor
    · rintro rfl
      exact ⟨hsite.2.2, List.mem_map_of_mem hd⟩
    · rintro ⟨he, hg⟩
      exact ((h.mem_gone_iff hk hi he).1 hg).2.symm
  · next hd =>
    refine (List.countP_eq_zero.2 fun i hi => ?_).symm
    rw [Bool.and_eq_true, decide_eq_true_eq, decide_eq_true_eq]
    rintro ⟨he, hg⟩
    exact hd ((h.mem_gone_iff hk hi he).1 hg).1

/-- A motion has at least as many deletions as insertions of an expression on a path to a block
without successors. -/
theorem insertions_le_deletions (hπ : p.context.Path π k) (hk : p.context.Final k) :
    π.countP (e ∈ p.sets.insert.of ·) ≤ (p.context.visits π k).countP fun j =>
      (j, e) ∈ p.deletions := by
  obtain ⟨c₀, hs⟩ := h.solved
  by_cases hno : ∀ x ∈ π, e ∉ p.sets.insert.of x
  · rw [List.countP_eq_zero.2 fun x hx => by simpa using hno x hx]
    exact Nat.zero_le _
  · -- an expression with a copy is moved, and all its deletions are made
    push Not at hno
    obtain ⟨y, hy, hye⟩ := hno
    obtain ⟨-, hcarried⟩ := (h.decided.insert_iff y (hπ.edge_lt y hy) e).1 hye
    have hins : π.countP (e ∈ p.sets.insert.of ·) = π.countP (· ∈ p.context.onEdges p.sets e) :=
      List.countP_congr fun x hx => by
        have hlt := hπ.edge_lt x hx
        simp [Context.mem_onEdges, h.decided.insert_iff x hlt, hlt, hcarried]
    have hdel : ((p.context.visits π k).countP fun j => (j, e) ∈ p.deletions) =
        (p.context.visits π k).countP (· ∈ p.context.inNodes p.sets e) := by
      refine List.countP_congr fun j _ => ?_
      rw [decide_eq_true_eq, decide_eq_true_eq, h.mem_deletions_iff, Context.mem_inNodes]
      refine and_congr_right fun hj => ?_
      rw [h.decided.delete_iff j hj]
      exact ⟨And.left, fun hd => ⟨hd, hcarried⟩⟩
    have hnone : p.context.Admissible p.sets e ∅ ∅ := ⟨by simp, by simp, by simp⟩
    have hle := hs.balance_onEdges_le (fun x hx => h.target_ne_zero hx) hnone hπ (Or.inl hk)
    rw [hins, hdel]
    simp only [Context.balance, Finset.notMem_empty, decide_false, List.countP_false] at hle
    simpa using hle

theorem unsplit_trail (hπ : ∀ x ∈ π, x < p.context.edges.size) :
    (p.trail π).filter (· ∉ p.cuts.map p.splitId) = π.map p.source := by
  induction π with
  | nil => rfl
  | cons x π ih =>
    have hx := hπ x List.mem_cons_self
    have hsource : p.source x ∉ p.cuts.map p.splitId := fun hs => by
      obtain ⟨y, -, hy⟩ := List.mem_map.1 hs
      exact h.ne_splitId (h.source_mem hx) hy.symm
    have hsplit : (if p.isCut x then [p.splitId x] else []).filter (· ∉ p.cuts.map p.splitId) =
        [] := by
      cases hc : p.isCut x with
      | true =>
        exact List.filter_eq_nil_iff.2 fun a ha => by
          rw [List.mem_singleton.1 ha]
          simpa using ⟨x, mem_cuts.2 ⟨hx, hc⟩, rfl⟩
      | false => rfl
    rw [trail_cons, trail_singleton, List.cons_append,
      List.filter_cons_of_pos (by simpa using hsource), List.filter_append, hsplit,
      List.nil_append, ih fun y hy => hπ y (List.mem_cons_of_mem _ hy), List.map_cons]

theorem attached_of_trail (hπ : p.context.Path π k) (hb : b ∈ p.trail π ++ [p.blockAt k]) :
    b ∈ p.attached := by
  rcases List.mem_append.1 hb with hb | hb
  · obtain ⟨x, hx, rfl | ⟨hc, rfl⟩⟩ := mem_trail.1 hb
    · exact List.mem_append_left _ (h.source_mem (hπ.edge_lt x hx))
    · exact List.mem_append_right _ (List.mem_map_of_mem (mem_cuts.2 ⟨hπ.edge_lt x hx, hc⟩))
  · rw [List.mem_singleton.1 hb]
    exact List.mem_append_left _ (h.blockAt_mem (hπ.lt h.wired))

end Feasible

namespace Moved

variable (hm : p.Moved g) (h : p.Feasible)
include hm h

omit h in
theorem listed_old (hb : b ∈ p.func.layout) : g.listed b = (p.func.block b).phis ++
    ((p.func.block b).body.filter (· ∉ p.gone) ++ p.placed p.copies b) ++
      (p.func.block b).term.toList := by
  rw [Func.listed, hm.phis, hm.body b (List.mem_append_left _ hb), hm.term b hb]

theorem listed_split (hx : x ∈ p.cuts) :
    g.listed (p.splitId x) = (p.copiesOn x).map p.copyId ++ [p.jumpId x] := by
  rw [Func.listed, hm.phis, hm.body _ (List.mem_append_right _ (List.mem_map_of_mem hx)),
    hm.term_split x hx, p.block_splitId, h.placed_split hx]
  rfl

theorem countP_split (hx : x ∈ p.cuts) :
    (g.listed (p.splitId x)).countP (p.Computes e ·) = if e ∈ p.sets.insert.of x then 1 else 0 := by
  have hjump : [p.jumpId x].countP (p.Computes e ·) = 0 := by simp [p.not_computes_jump x e]
  rw [hm.listed_split h hx, List.countP_append, countP_copiesOn (mem_cuts.1 hx).1,
    hjump, Nat.add_zero]

/-- What an old block computes after the motion. -/
theorem countP_old (hk : k < p.context.nodes.size) :
    (g.listed (p.blockAt k)).countP (p.Computes e ·) + (if (k, e) ∈ p.deletions then 1 else 0) =
      (p.func.listed (p.blockAt k)).countP (p.func.exprAt p.context.catalog · = some e) +
        (p.placed p.copies (p.blockAt k)).countP (p.Computes e ·) := by
  have hb := h.blockAt_mem hk
  have hold : ∀ l : List InstrId, (∀ i ∈ l, i ∈ p.func.listed (p.blockAt k)) →
      l.countP (p.Computes e ·) = l.countP (p.func.exprAt p.context.catalog · = some e) :=
        fun l hl =>
    List.countP_congr fun i hi => by simp [computes_old (h.assembled.listed_le hb (hl i hi))]
  have hbody := h.countP_body (e := e) hk
  rw [hm.listed_old hb, Func.listed]
  simp only [List.countP_append]
  rw [hold _ fun i hi => List.mem_append_left _ (List.mem_append_left _ hi),
    hold _ fun i hi => Func.mem_listed_of_body (List.mem_of_mem_filter hi),
    hold _ fun i hi => List.mem_append_right _ hi]
  omega

/-- What is computed from the start of a block up to the end of an edge. -/
theorem countP_edge (hx : x < p.context.edges.size) :
    (g.executed (p.trail [x])).countP (p.Computes e ·) + (if ((p.context.edge x).source, e) ∈
      p.deletions then 1 else 0) =
      (p.func.listed (p.source x)).countP (p.func.exprAt p.context.catalog · = some e) + if e ∈
        p.sets.insert.of x then 1 else 0 := by
  have hold : (g.listed (p.source x)).countP (p.Computes e ·) + (if ((p.context.edge x).source, e) ∈
    p.deletions then 1 else 0) =
      (p.func.listed (p.source x)).countP (p.func.exprAt p.context.catalog · = some e) +
        (p.placed p.copies (p.source x)).countP (p.Computes e ·) :=
          hm.countP_old h (h.wired.source_lt x hx)
  rw [h.placed_source hx] at hold
  rw [trail_singleton, Func.executed_cons, List.countP_append]
  cases hc : p.isCut x with
  | true =>
    rw [hc, if_pos rfl, List.countP_nil] at hold
    have hsplit : (g.executed [p.splitId x]).countP (p.Computes e ·) = if e ∈ p.sets.insert.of x
        then 1 else 0 := by
      rw [Func.executed_singleton, hm.countP_split h (mem_cuts.2 ⟨hx, hc⟩)]
    rw [if_pos rfl, hsplit]
    omega
  | false =>
    rw [hc, if_neg Bool.false_ne_true, countP_copiesOn hx] at hold
    exact hold

/-- What is computed along a path. -/
theorem countP_trail (hπ : ∀ x ∈ π, x < p.context.edges.size) :
    (g.executed (p.trail π)).countP (p.Computes e ·) +
      ((π.map fun x => (p.context.edge x).source).countP fun k => (k, e) ∈ p.deletions) =
      (p.func.executed (π.map p.source)).countP (p.func.exprAt p.context.catalog · = some e) +
        π.countP (e ∈ p.sets.insert.of ·) := by
  induction π with
  | nil => rfl
  | cons x π ih =>
    have hedge := hm.countP_edge h (e := e) (hπ x List.mem_cons_self)
    have hrest := ih fun y hy => hπ y (List.mem_cons_of_mem _ hy)
    rw [trail_cons, Func.executed_append, List.countP_append, List.map_cons, List.countP_cons,
      List.map_cons, Func.executed_cons, List.countP_append, List.countP_cons]
    simp only [decide_eq_true_eq]
    omega

/-- A path to a block without successors computes no expression more often than before. -/
theorem countP_le (hπ : p.context.Path π k) (hk : p.context.Final k) :
    (g.executed (p.trail π ++ [p.blockAt k])).countP (p.Computes e ·) ≤
    (p.func.executed (π.map p.source ++ [p.blockAt k])).countP
      (p.func.exprAt p.context.catalog · = some e) := by
  have hlt := hπ.lt h.wired
  have hpath := hm.countP_trail h (e := e) hπ.edge_lt
  have hlast := hm.countP_old h (e := e) hlt
  have hfewer := h.insertions_le_deletions (e := e) hπ hk
  have hnil : p.placed p.copies (p.blockAt k) = [] :=
    h.placed_eq_nil (h.blockAt_mem hlt) fun x hx hs =>
    hk x hx (h.blockAt_inj (h.wired.source_lt x hx) hlt hs)
  rw [hnil, List.countP_nil] at hlast
  rw [Context.visits, List.countP_append, List.countP_singleton] at hfewer
  simp only [decide_eq_true_eq] at hfewer
  rw [Func.executed_append, Func.executed_append, List.countP_append, List.countP_append,
    Func.executed_singleton, Func.executed_singleton]
  omega

/-- All that can stand in a block after the motion: what it listed before, a copy, or the jump of a
split edge. -/
theorem listed_cases (hb : b ∈ p.attached) (hi : i ∈ g.listed b) :
    (b ∈ p.func.layout ∧ i ∈ p.func.listed b) ∨ (∃ q ∈ p.copies, i = p.copyId q) ∨ ∃ x ∈ p.cuts,
      i = p.jumpId x := by
  rcases List.mem_append.1 hb with hb | hb
  · have hlisted : i ∈ p.func.listed b ∨ i ∈ p.placed p.copies b := by
      rw [hm.listed_old hb] at hi
      simp only [List.mem_append, List.mem_filter] at hi
      simp only [Func.listed, List.mem_append]
      tauto
    rcases hlisted with hi | hi
    · exact Or.inl ⟨hb, hi⟩
    · obtain ⟨q, hq, rfl⟩ := List.mem_map.1 hi
      exact Or.inr (Or.inl ⟨q, List.mem_of_mem_filter hq, rfl⟩)
  · obtain ⟨x, hx, rfl⟩ := List.mem_map.1 hb
    rw [hm.listed_split h hx, List.mem_append, List.mem_singleton] at hi
    rcases hi with hi | rfl
    · obtain ⟨q, hq, rfl⟩ := List.mem_map.1 hi
      obtain ⟨rfl, he⟩ := mem_copiesOn.1 hq
      exact Or.inr (Or.inl ⟨q, mem_copies.2 ⟨(mem_cuts.1 hx).1, he⟩, rfl⟩)
    · exact Or.inr (Or.inr ⟨x, hx, rfl⟩)

/-- What is new in a block is a copy, or the jump of a split edge. -/
theorem listed_new (hb : b ∈ p.attached) (hi : i ∈ g.listed b) (hnew : p.func.hasInstr i = false) :
    (∃ q ∈ p.copies, i = p.copyId q) ∨ ∃ x ∈ p.cuts, i = p.jumpId x := by
  refine (hm.listed_cases h hb hi).resolve_left ?_
  rintro ⟨hb, hl⟩
  rw [h.assembled.real b hb i hl] at hnew
  cases hnew

/-- The old instructions of a block that cannot be moved are still there, in their order. -/
theorem filter_listed (hb : b ∈ p.func.layout) :
    (g.listed b).filter (fun i => p.func.hasInstr i && !(p.func.instr i).op.isMovable) =
      (p.func.listed b).filter fun i => !(p.func.instr i).op.isMovable := by
  have hreal : ∀ l : List InstrId, (∀ i ∈ l, i ∈ p.func.listed b) →
      l.filter (fun i => p.func.hasInstr i && !(p.func.instr i).op.isMovable) = l.filter fun i =>
        !(p.func.instr i).op.isMovable := fun l hl =>
    List.filter_congr fun i hi => by rw [h.assembled.real b hb i (hl i hi), Bool.true_and]
  have hgone : ∀ i ∈ p.gone, (p.func.instr i).op.isMovable = true := by
    intro i hi
    obtain ⟨q, hq, rfl⟩ := List.mem_map.1 hi
    exact (Catalog.exprAt_iff.1 (h.site_spec hq).2.2).1
  have hbody : ((p.func.block b).body.filter (· ∉ p.gone)).filter (fun i =>
    !(p.func.instr i).op.isMovable) =
      (p.func.block b).body.filter fun i => !(p.func.instr i).op.isMovable := by
    rw [List.filter_filter]
    refine List.filter_congr fun i _ => ?_
    by_cases hg : i ∈ p.gone
    · simp [hgone i hg]
    · simp [hg]
  have hcopies : (p.placed p.copies b).filter (fun i => p.func.hasInstr i &&
      !(p.func.instr i).op.isMovable) = [] := by
    refine List.filter_eq_nil_iff.2 fun i hi => ?_
    obtain ⟨q, -, rfl⟩ := List.mem_map.1 hi
    simp [hasInstr_of_lt (p.lt_copyId q)]
  rw [hm.listed_old hb, Func.listed]
  simp only [List.filter_append]
  rw [hcopies, List.append_nil, hreal _ fun i hi =>
    List.mem_append_left _ (List.mem_append_left _ hi),
    hreal _ fun i hi => Func.mem_listed_of_body (List.mem_of_mem_filter hi),
    hreal _ fun i hi => List.mem_append_right _ hi, hbody]

/-- The block on a split edge has no old instruction. -/
theorem hasInstr_split (hx : x ∈ p.cuts) (hi : i ∈ g.listed (p.splitId x)) :
    p.func.hasInstr i = false := by
  rw [hm.listed_split h hx, List.mem_append, List.mem_singleton] at hi
  rcases hi with hi | rfl
  · obtain ⟨q, -, rfl⟩ := List.mem_map.1 hi
    exact hasInstr_of_lt (p.lt_copyId q)
  · exact hasInstr_of_lt (Nat.lt_of_le_of_lt (Nat.le_add_right _ _) (p.lt_jumpId x))

theorem filter_trail (hπ : ∀ x ∈ π, x < p.context.edges.size) :
    (g.executed (p.trail π)).filter (fun i => p.func.hasInstr i && !(p.func.instr i).op.isMovable) =
      (p.func.executed (π.map p.source)).filter fun i => !(p.func.instr i).op.isMovable := by
  induction π with
  | nil => rfl
  | cons x π ih =>
    have hx := hπ x List.mem_cons_self
    have hsplit : (g.executed (if p.isCut x then [p.splitId x] else [])).filter
        (fun i => p.func.hasInstr i && !(p.func.instr i).op.isMovable) = [] := by
      cases hc : p.isCut x with
      | true =>
        rw [if_pos rfl, Func.executed_singleton]
        exact List.filter_eq_nil_iff.2 fun i hi => by
          simp [hm.hasInstr_split h (mem_cuts.2 ⟨hx, hc⟩) hi]
      | false => rfl
    rw [trail_cons, trail_singleton, Func.executed_append, Func.executed_cons, List.map_cons,
      Func.executed_cons, List.filter_append,
      List.filter_append, List.filter_append, hm.filter_listed h (h.source_mem hx), hsplit,
        List.append_nil, ih fun y hy => hπ y (List.mem_cons_of_mem _ hy)]

end Moved

/-- What a motion leaves is no dearer on any walk to a block without successors. -/
theorem Feasible.noDearer {st : Motion.State} {l : List BlockId} (h : p.Feasible)
    (hm : p.Moved st.func) (hclones : st.clones = p.clones)
    (hsplits : st.splits = p.cuts.map p.splitId) (hl : st.func.Walk l b)
    (hb : st.func.succs b = []) : st.NoDearer p.func p.context.catalog l b := by
  obtain ⟨π, k, hπ, rfl, rfl⟩ : ∃ π k, p.context.Path π k ∧ b = p.blockAt k ∧ l = p.trail π := by
    rcases hm.exists_path h hl with hpath | ⟨x, hx, -, -, rfl, -⟩
    · exact hpath
    · rw [hm.succs_split hx] at hb
      cases hb
  have hlt := hπ.lt h.wired
  have hfinal : p.context.Final k := by
    intro x hx hs
    have hnext : p.next x ∈ st.func.succs (p.blockAt k) :=
      (hm.mem_succs h (h.blockAt_mem hlt)).2 ⟨x, hx, by rw [source, hs], rfl⟩
    rw [hb] at hnext
    cases hnext
  have hunsplit : st.unsplit (p.trail π) = π.map p.source := by
    rw [Motion.State.unsplit, hsplits]
    exact h.unsplit_trail hπ.edge_lt
  refine ⟨?_, fun e => ?_, ?_, ⟨p.rename, fun v => ?_, fun i hi _ => ?_⟩, fun i hi hnew => ?_⟩
  · rw [hunsplit]
    exact h.walk hπ
  · rw [hunsplit, hclones]
    exact hm.countP_le h hπ hfinal
  · rw [hunsplit, Func.executed_append, Func.executed_append, List.filter_append,
      List.filter_append, hm.filter_trail h hπ.edge_lt,
      Func.executed_singleton, Func.executed_singleton, hm.filter_listed h (h.blockAt_mem hlt)]
  · refine (h.rename_cases v).symm.imp (·.2) ?_
    rintro ⟨q, ⟨hq, -⟩, rfl, hr⟩
    obtain ⟨n, hn, ho⟩ := h.exists_entry (mem_copies.1 hq).2 (mem_copies.1 hq).1
    obtain ⟨c₀, hs⟩ := h.solved
    refine ⟨q.2, p.origin q.2, p.copyId q, rfl, ?_, hclones ▸ mem_clones.2 ⟨q, hq, rfl, rfl⟩, hr⟩
    rw [ho]
    exact hs.numbered.lawful.exprAt_instr hn
  · rw [hunsplit] at hi
    obtain ⟨a, ha, hia⟩ := List.mem_flatMap.1 hi
    have hal : a ∈ p.func.layout := by
      rcases List.mem_append.1 ha with ha | ha
      · obtain ⟨x, hx, rfl⟩ := List.mem_map.1 ha
        exact h.source_mem (hπ.edge_lt x hx)
      · rw [List.mem_singleton.1 ha]
        exact h.blockAt_mem hlt
    obtain ⟨hop, hargs, hcallee, -⟩ := hm.old a hal i hia
    exact ⟨hop, hcallee, hargs⟩
  · obtain ⟨a, ha, hia⟩ := List.mem_flatMap.1 hi
    rcases hm.listed_new h (h.attached_of_trail hπ ha) hia hnew with ⟨q, hq, rfl⟩ | ⟨x, hx, rfl⟩
    · exact Or.inl ⟨q.2, hclones ▸ mem_clones.2 ⟨q, hq, rfl, rfl⟩⟩
    · rw [hm.jump x hx, hsplits]
      exact Or.inr ⟨rfl, _, List.mem_map_of_mem hx, rfl⟩

end Plan

namespace Workspace

open Motion (State)

/-- Where the analysis of a function comes to an answer, the run carries out the motion and adds no
computation to any walk to a block without successors. -/
theorem optimize_noDearer {w : Workspace} {o : Options} {f : Nat} {c : Context} {s : Sets}
    (ha : (w.func f).Assembled) (hne : (w.func f).isEmpty = false)
    (hv : o.verify = true → (w.func f).verify = .ok none) (h : Context.Answers (w.func f) o c s) :
    ∃ st res err w', State.run { func := w.func f, context := { c with log := [], trace := "" } } =
      .ok ⟨⟩ st ∧
      optimize o f w = .ok (res, err) w' ∧ w'.func f = st.func ∧
      ∀ l b, st.func.Walk l b → st.func.succs b = [] → st.NoDearer (w.func f) c.catalog l b := by
  have hfeasible := (h.feasible ha).clean
  obtain ⟨st, hrun, hm, hclones, hsplits, -⟩ := hfeasible.run_ok
  obtain ⟨c₀, h0, hc, -⟩ := h
  have hmal : isMalformed o (w.func f) w = .ok false w := by
    cases ho : o.verify with
    | true => exact isMalformed_of_verify (hv ho) o w
    | false =>
      unfold isMalformed
      rw [ho]
      rfl
  have hentry : ∀ e ∈ (w.func f).layout.head?, (w.func f).hasBlock e = true ∧
      ((w.func f).block e).preds = [] :=
    fun e he =>
    ⟨hfeasible.hasBlock (List.mem_of_mem_head? he), ha.entry e he⟩
  have hverify : o.verify = true → ∃ r, st.func.verify = .ok r := fun ho => by
    have hstructured := ((Func.defect?_eq_none hne).1 (Func.verify_eq_none.1 (hv ho))).toStructured
    exact (hm.structured hfeasible hstructured).verify_ok
  obtain ⟨res, err, w', hopt, hfunc, -⟩ :=
    optimize_moved (prepare_eq hne hentry hmal h0 hc) rfl (lt_size_of_isEmpty hne) hrun hverify
  exact ⟨st, res, err, w', hrun, hopt, hfunc, fun l b hl hb => hfeasible.noDearer hm hclones
    hsplits hl hb⟩

/-- A store that a branch may or may not have made before. -/
def partly : Func where
  name := "f"
  params := ["c"]
  layout := [1, 2, 3]
  blocks := ⟨#[{ term := some 1 }, { body := [2], term := some 3, preds := [1] },
    { body := [4], term := some 5, preds := [1, 2] }]⟩
  instrs := ⟨#[
    { op := .branch, args := [.param 0 "c"], targets := [2, 3], block := some 1 },
    { op := .store, args := [.const 1, .global 0 "g"], block := some 2 },
    { op := .jump, targets := [3], block := some 2 },
    { op := .store, args := [.const 1, .global 0 "g"], block := some 3 },
    { op := .ret, block := some 3 }]⟩

/-- The second store moves onto the edge around the first one, which is split for it. -/
theorem optimize_noDearer_partly : ∃ c s st res err w',
    (partly.Assembled ∧ partly.isEmpty = false ∧ Context.Answers partly { singleInsertion := false }
      c s ∧ 0 ∈ s.insert.of 1) ∧
    State.run { func := partly, context := { c with log := [], trace := "" } } = .ok ⟨⟩ st ∧
      optimize { singleInsertion := false } 0 { funcs := #[partly] } = .ok (res, err) w' ∧
        w'.func 0 = st.func ∧
      ∀ l b, st.func.Walk l b → st.func.succs b = [] → st.NoDearer partly c.catalog l b := by
  obtain ⟨c, s, h, hins⟩ :=
    Context.answers_of_answer? partly { singleInsertion := false } (fun r =>
      decide (0 ∈ r.2.insert.of 1))
    (by decide +kernel)
  have ha : partly.Assembled := by decide +kernel
  obtain ⟨st, res, err, w', hall⟩ :=
    optimize_noDearer (w := { funcs := #[partly] }) (f := 0) ha rfl (by decide) h
  exact ⟨c, s, st, res, err, w', ⟨ha, rfl, h, by simpa using hins⟩, hall⟩

end Workspace
end CodeMotion
