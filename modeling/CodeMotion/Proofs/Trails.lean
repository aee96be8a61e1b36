import Mathlib
import CodeMotion.Proofs.Moved

/-! Walks after a motion are the old paths with the new blocks put in. A block with a copy is left
on a walk exactly if the path takes the edge that the copy was made for. -/

namespace CodeMotion.Plan

variable {p : Plan} {g : Func} {k x y : Nat} {b : BlockId} {π : List Nat} {l : List BlockId}
  {q : Nat × Nat}

def trail (p : Plan) (π : List Nat) : List BlockId :=
  π.flatMap fun x => p.source x :: if p.isCut x then [p.splitId x] else []

theorem mem_trail {a : BlockId} :
    a ∈ p.trail π ↔ ∃ x ∈ π, a = p.source x ∨ (p.isCut x = true ∧ a = p.splitId x) := by
  unfold trail
  rw [List.mem_flatMap]
  refine exists_congr fun x => and_congr_right fun _ => ?_
  cases p.isCut x <;> simp

theorem trail_append (π : List Nat) (x : Nat) :
    p.trail (π ++ [x]) = p.trail π ++ p.source x :: if p.isCut x then [p.splitId x] else [] := by
  simp [trail]

/-- A block is left on a path if it is the place of a copy and its edge is taken. -/
theorem Feasible.place_mem_trail (h : p.Feasible) (hq : q ∈ p.copies)
    (hπ : ∀ y ∈ π, y < p.context.edges.size) : p.place q.1 ∈ p.trail π ↔ q.1 ∈ π := by
  obtain ⟨hx, he⟩ := mem_copies.1 hq
  rw [mem_trail]
  unfold place
  cases hc : p.isCut q.1 with
  | true =>
    rw [if_pos rfl]
    have hcut := mem_cuts.2 ⟨hx, hc⟩
    constructor
    · rintro ⟨y, hy, hs | ⟨-, hs⟩⟩
      · exact absurd hs.symm (h.ne_splitId (h.source_mem (hπ y hy)))
      · exact splitId_inj hcut hs ▸ hy
    · exact fun hm => ⟨q.1, hm, Or.inr ⟨hc, rfl⟩⟩
  | false =>
    rw [if_neg Bool.false_ne_true]
    constructor
    · rintro ⟨y, hy, hs | ⟨-, hs⟩⟩
      · -- the source has one successor only
        have hl := h.leads (hπ y hy)
        unfold Func.Leads at hl
        rw [← hs, h.succs_source hx he hc, List.mem_singleton] at hl
        exact h.edge_inj hx (hπ y hy) hs hl.symm ▸ hy
      · exact absurd hs (h.ne_splitId (h.source_mem hx))
    · exact fun hm => ⟨q.1, hm, Or.inl rfl⟩

theorem filter_copies (hx : x < p.context.edges.size) :
    p.copies.filter (·.1 == x) = p.copiesOn x := by
  have hof : ∀ y, (p.copiesOn y).filter (·.1 == x) = if y = x then p.copiesOn x else [] := by
    intro y
    split
    · next hyx =>
      subst hyx
      exact List.filter_eq_self.2 fun q hq => by simp [(mem_copiesOn.1 hq).1]
    · next hyx => exact List.filter_eq_nil_iff.2 fun q hq => by simp [(mem_copiesOn.1 hq).1, hyx]
  obtain ⟨l, r, hl⟩ := List.append_of_mem (List.mem_range.2 hx)
  have hnd := List.nodup_range (n := p.context.edges.size)
  rw [hl, List.nodup_middle, List.nodup_cons] at hnd
  have hother : ∀ l' : List Nat, (∀ y ∈ l', y ≠ x) → l'.flatMap (fun y => if y = x then p.copiesOn x
      else []) = [] :=
    fun l' hne =>
    List.flatMap_eq_nil_iff.2 fun y hy => if_neg (hne y hy)
  rw [copies, List.filter_flatMap, funext hof, hl, List.flatMap_append,
    List.flatMap_cons, if_pos rfl,
    hother l fun y hy hyx => hnd.1 (hyx ▸ List.mem_append_left _ hy), hother r fun y hy hyx =>
      hnd.1 (hyx ▸ List.mem_append_right _ hy)]
  simp

namespace Feasible

variable (h : p.Feasible)
include h

/-- The block on a split edge has the copies of the edge. -/
theorem placed_split (hx : x ∈ p.cuts) :
    p.placed p.copies (p.splitId x) = (p.copiesOn x).map p.copyId := by
  obtain ⟨hlt, hc⟩ := mem_cuts.1 hx
  rw [placed, ← filter_copies hlt]
  refine congrArg _ (List.filter_congr fun q hq => ?_)
  rw [Bool.eq_iff_iff, beq_iff_eq, beq_iff_eq]
  exact ⟨h.place_eq_splitId hx (mem_copies.1 hq).1, fun hqx => by rw [hqx, place, if_pos hc]⟩

/-- The source of an edge has the copies of the edge, unless it is split. -/
theorem placed_source (hx : x < p.context.edges.size) :
    p.placed p.copies (p.source x) = if p.isCut x then [] else (p.copiesOn x).map p.copyId := by
  have hof : ∀ q ∈ p.copies, p.place q.1 = p.source x ↔ q.1 = x ∧ p.isCut x = false := by
    intro q hq
    have htrail := h.place_mem_trail hq (π := [x]) (by simpa using hx)
    rw [List.mem_singleton, mem_trail] at htrail
    constructor
    · intro hp
      have hqx := htrail.1 ⟨x, List.mem_singleton_self x, Or.inl hp⟩
      refine ⟨hqx, Bool.eq_false_iff.2 fun hc => ?_⟩
      rw [hqx, place, if_pos hc] at hp
      exact h.ne_splitId (h.source_mem hx) hp.symm
    · rintro ⟨hqx, hc⟩
      rw [hqx, place, hc, if_neg Bool.false_ne_true]
  rw [placed]
  cases hc : p.isCut x with
  | true =>
    rw [if_pos rfl, List.filter_eq_nil_iff.2 fun q hq => ?_, List.map_nil]
    simp [hof q hq, hc]
  | false =>
    rw [if_neg Bool.false_ne_true, ← filter_copies hx]
    refine congrArg _ (List.filter_congr fun q hq => ?_)
    rw [Bool.eq_iff_iff, beq_iff_eq, beq_iff_eq, hof q hq, hc]
    simp

/-- A block that no copied edge leaves gets no copy. -/
theorem placed_eq_nil_of_copies (hb : b ∈ p.func.layout) (hno : ∀ q ∈ p.copies, p.source q.1 ≠ b) :
    p.placed p.copies b = [] := by
  rw [placed, List.filter_eq_nil_iff.2, List.map_nil]
  intro q hq
  rw [beq_iff_eq]
  unfold place
  split
  · exact fun he => h.ne_splitId hb he.symm
  · exact hno q hq

/-- A block that no edge leaves gets no copy. -/
theorem placed_eq_nil (hb : b ∈ p.func.layout) (hno : ∀ x < p.context.edges.size, p.source x ≠ b) :
    p.placed p.copies b = [] :=
  h.placed_eq_nil_of_copies hb fun q hq => hno q.1 (mem_copies.1 hq).1

end Feasible

namespace Moved

variable (hm : p.Moved g) (h : p.Feasible)
include hm h

theorem hasBlock (hb : b ∈ p.attached) : g.hasBlock b = true :=
  h.hasBlock_attached hm.blocks_size hb

theorem entry : g.entry? = p.func.entry? := by
  unfold Func.entry?
  rw [hm.head]
  cases hh : p.func.layout.head? with
  | none => rfl
  | some e =>
    have he := List.mem_of_mem_head? hh
    rw [Option.filter_some, Option.filter_some, hm.hasBlock h (List.mem_append_left _ he),
      h.hasBlock he]

theorem mem_succs (hb : b ∈ p.func.layout) {s : BlockId} :
    s ∈ g.succs b ↔ ∃ x < p.context.edges.size, p.source x = b ∧ s = p.next x :=
  h.mem_succs_of_targets hb (hm.targets b hb)

omit h in
theorem succs_split (hx : x ∈ p.cuts) : g.succs (p.splitId x) = [p.target x] := by
  unfold Func.succs
  rw [Func.targets_of_term (hm.term_split x hx), hm.jump x hx]
  rfl

theorem walk (hπ : p.context.Path π k) : g.Walk (p.trail π) (p.blockAt k) := by
  induction hπ with
  | entry h0 => exact .entry ((hm.entry h).trans (h.entry h0))
  | @step π x _ hx ih =>
    have hnext : g.Leads (p.source x) (p.next x) :=
      (hm.mem_succs h (h.source_mem hx)).2 ⟨x, hx, rfl, rfl⟩
    rw [trail_append]
    cases hc : p.isCut x with
    | true =>
      rw [next, if_pos hc] at hnext
      rw [if_pos rfl, List.append_cons]
      refine .step (.step ih hnext) ?_
      unfold Func.Leads
      rw [hm.succs_split (mem_cuts.2 ⟨hx, hc⟩)]
      exact List.mem_singleton_self _
    | false =>
      rw [next, hc, if_neg Bool.false_ne_true] at hnext
      exact .step ih hnext

theorem walk_split (hx : x ∈ p.cuts) (hπ : p.context.Path π (p.context.edge x).source) :
    g.Walk (p.trail π ++ [p.source x]) (p.splitId x) := by
  obtain ⟨hlt, hc⟩ := mem_cuts.1 hx
  refine .step (hm.walk h hπ) ((hm.mem_succs h (h.source_mem hlt)).2 ⟨x, hlt, rfl, ?_⟩)
  rw [next, if_pos hc]

/-- Every walk comes from a path; it ends in an old block, or in the middle of a split edge. -/
theorem exists_path (hl : g.Walk l b) :
    (∃ π k, p.context.Path π k ∧ b = p.blockAt k ∧ l = p.trail π) ∨
    ∃ x ∈ p.cuts, ∃ π, p.context.Path π (p.context.edge x).source ∧ b = p.splitId x ∧
      l = p.trail π ++ [p.source x] := by
  induction hl with
  | entry he =>
    rw [hm.entry h] at he
    obtain ⟨π, k, hπ, hk, hnil⟩ := h.exists_path (.entry he)
    rw [List.map_eq_nil_iff] at hnil
    subst hnil
    exact Or.inl ⟨[], k, hπ, hk.symm, rfl⟩
  | @step l a b _ hs ih =>
    rcases ih with ⟨π, k, hπ, rfl, rfl⟩ | ⟨x, hx, π, hπ, rfl, rfl⟩
    · obtain ⟨x, hx, hsource, rfl⟩ := (hm.mem_succs h (h.blockAt_mem (hπ.lt h.wired))).1 hs
      have hk : (p.context.edge x).source = k :=
        h.blockAt_inj (h.wired.source_lt x hx) (hπ.lt h.wired) hsource
      rw [← hk] at hπ
      rw [← hsource]
      unfold next
      cases hc : p.isCut x with
      | true => exact Or.inr ⟨x, mem_cuts.2 ⟨hx, hc⟩, π, hπ, if_pos rfl, rfl⟩
      | false =>
        refine Or.inl ⟨π ++ [x], _, .step hπ hx, if_neg Bool.false_ne_true, ?_⟩
        rw [trail_append, hc, if_neg Bool.false_ne_true]
    · obtain ⟨hlt, hc⟩ := mem_cuts.1 hx
      have hs' : b ∈ g.succs (p.splitId x) := hs
      rw [hm.succs_split hx, List.mem_singleton] at hs'
      refine Or.inl ⟨π ++ [x], _, .step hπ hlt, hs', ?_⟩
      rw [trail_append, if_pos hc, ← List.append_cons]

/-- What has been left before an old block is reached. -/
theorem precedes_blockAt {a : BlockId} (hk : k < p.context.nodes.size) :
    g.Precedes a (p.blockAt k) ↔ ∀ π, p.context.Path π k → a ∈ p.trail π := by
  constructor
  · exact fun hp π hπ => hp _ (hm.walk h hπ)
  · intro hall l hl
    rcases hm.exists_path h hl with ⟨π, j, hπ, hb, rfl⟩ | ⟨x, -, π, -, hb, -⟩
    · exact hall π (h.blockAt_inj hk (hπ.lt h.wired) hb ▸ hπ)
    · exact absurd hb (h.ne_splitId (h.blockAt_mem hk))

theorem precedes_splitId {a : BlockId} (hx : x ∈ p.cuts) :
    g.Precedes a (p.splitId x) ↔ ∀ π, p.context.Path π (p.context.edge x).source →
      a ∈ p.trail π ++ [p.source x] := by
  constructor
  · exact fun hp π hπ => hp _ (hm.walk_split h hx hπ)
  · intro hall l hl
    rcases hm.exists_path h hl with ⟨π, j, hπ, hb, rfl⟩ | ⟨y, -, π, hπ, hb, rfl⟩
    · exact absurd hb.symm (h.ne_splitId (h.blockAt_mem (hπ.lt h.wired)))
    · have hxy := splitId_inj hx hb
      subst hxy
      exact hall π hπ

end Moved
end CodeMotion.Plan
