import Mathlib
import CodeMotion.Proofs.Supply

/-! The address of a store is not among the operands that keep the store below their definitions. So
a copy of a store may come to stand above the definition of its address. It is said here when it
does not, in terms of the paths to the copy. -/

namespace CodeMotion.Plan

variable {p : Plan} {g : Func} {k x n : Nat} {b : BlockId} {d i : InstrId} {q r : Nat × Nat}
  {π : List Nat}

/-- A result was computed, in its own place or in that of its copy, whenever control comes to
a copy. -/
def AtHand (p : Plan) (q : Nat × Nat) (d : InstrId) : Prop :=
  (∀ r, p.Moves r → p.origin r.2 = d →
    r.1 = q.1 ∧ r.2 < q.2 ∨ ∀ π, p.context.Path π (p.context.edge q.1).source → r.1 ∈ π) ∧
  ((∀ r, p.Moves r → p.origin r.2 ≠ d) → ∃ home ∈ p.func.layout, d ∈ p.func.listed home ∧
    ∀ π, p.context.Path π (p.context.edge q.1).source → home = p.source q.1 ∨ home ∈ π.map p.source)

theorem pairwise_copies (p : Plan) :
    p.copies.Pairwise fun q r => q.1 < r.1 ∨ q.1 = r.1 ∧ q.2 < r.2 := by
  unfold copies
  refine List.pairwise_flatMap.2 ⟨fun x _ => ?_, ?_⟩
  · refine List.pairwise_map.2 (List.Pairwise.imp (fun h => Or.inr ⟨rfl, h⟩) ?_)
    exact List.pairwise_lt_range.filter _
  · refine List.pairwise_lt_range.imp fun {x y} hxy q hq r hr => Or.inl ?_
    rw [(mem_copiesOn.1 hq).1, (mem_copiesOn.1 hr).1]
    exact hxy

/-- Some path from a copy comes to an occurrence of its expression. -/
theorem Drafted.exists_occurrence (h : p.Drafted) (hq : q ∈ p.copies) : ∃ k i, p.context.Reach k ∧
    i ∈ (p.func.block (p.blockAt k)).body ∧ p.func.exprAt p.context.catalog i = some q.2 := by
  obtain ⟨hx, he⟩ := mem_copies.1 hq
  obtain ⟨c₀, hs⟩ := h.solved
  obtain ⟨⟨π, hπ⟩, hlater, -⟩ := (hs.mem_insertOn hx).1 (h.mem_insertOn hx he)
  have hant := (hs.ant_of_later hπ q.1 hx rfl hlater).1
  obtain ⟨ρ, j, hpath, hup, -⟩ :=
    hs.exists_occurrence (hs.marked.ends _ (h.wired.target_lt _ hx)) hant
  have hway := hpath _ (.step hπ hx)
  obtain ⟨i, hi, hie⟩ := (((hs.exposed j (hway.lt h.wired)).up q.2).1 hup).1
  exact ⟨j, i, ⟨_, hway⟩, hi, hie⟩

namespace Valid

variable (h : p.Valid)
include h

theorem place_inj (hq : q ∈ p.copies) (hr : r ∈ p.copies) (he : p.place q.1 = p.place r.1) :
    q.1 = r.1 := by
  have hlt : ∀ y ∈ [r.1], y < p.context.edges.size := fun y hy => by
    rw [List.mem_singleton.1 hy]
    exact (mem_copies.1 hr).1
  have hmem := (h.place_mem_trail hr hlt).2 (List.mem_singleton_self _)
  rw [← he, h.place_mem_trail hq hlt] at hmem
  exact List.mem_singleton.1 hmem

/-- The source of an edge with a copy holds no copies of other edges. -/
theorem place_ne_source (hq : q ∈ p.copies) (hr : r ∈ p.copies) (hne : r.1 ≠ q.1) :
    p.place r.1 ≠ p.source q.1 := by
  intro he
  have hlt : ∀ y ∈ [q.1], y < p.context.edges.size := fun y hy => by
    rw [List.mem_singleton.1 hy]
    exact (mem_copies.1 hq).1
  have hmem : p.place r.1 ∈ p.trail [q.1] := mem_trail.2 ⟨q.1, List.mem_singleton_self _, Or.inl he⟩
  rw [h.place_mem_trail hr hlt] at hmem
  exact hne (List.mem_singleton.1 hmem)

/-- All stores of one number have the same value and the same address. -/
theorem store_args {e : Nat} {m : Catalog.Entry Value InstrId}
    (hn : p.context.catalog.entries[e]? = some m) (hop : m.op = .store) :
    ∃ v, (m.expression p.func.reader).operands = [v] ∧ ∀ b ∈ p.func.layout,
      ∀ i ∈ (p.func.block b).body,
      p.func.exprAt p.context.catalog i = some e → (p.func.instr i).args = [v, m.dest] := by
  obtain ⟨c₀, hs⟩ := h.solved
  have hstore : ∀ b ∈ p.func.layout, ∀ i ∈ (p.func.block b).body,
    p.func.exprAt p.context.catalog i = some e →
      ∃ v, (m.expression p.func.reader).operands = [v] ∧ (p.func.instr i).args = [v, m.dest] := by
    intro b hb i hi hie
    have hx := ((hs.numbered.lawful.exprAt_iff_entry hn).1 hie).2
    have hst : (p.func.instr i).op = .store := (Reader.expression_op hx).symm.trans hop
    exact Func.args_of_store hx hst (h.sound.arity b hb i (Func.mem_listed_of_body hi) 2
      (by rw [hst]; rfl))
  obtain ⟨ho, -, b, hb, hbody⟩ := h.origin_of_entry hn
  obtain ⟨v, hv, -⟩ := hstore b hb _ hbody (ho ▸ hs.numbered.lawful.exprAt_instr hn)
  refine ⟨v, hv, fun b hb i hi hie => ?_⟩
  obtain ⟨w, hw, hargs⟩ := hstore b hb i hi hie
  rw [hv, List.cons.injEq] at hw
  rw [hargs, hw.1]

/-- The address of a copied store is defined somewhere. -/
theorem exists_home_of_address {m : Catalog.Entry Value InstrId} (hq : q ∈ p.copies)
    (hn : p.context.catalog.entries[q.2]? = some m) (hop : m.op = .store) (ha : m.dest = .instr d) :
    (p.func.instr d).op.hasResult = true ∧ ∃ home ∈ p.func.layout, d ∈ p.func.listed home := by
  obtain ⟨k, i, ⟨π, hπ⟩, hi, hie⟩ := h.exists_occurrence hq
  have hl := h.blockAt_mem (hπ.lt h.wired)
  obtain ⟨v, -, hargs⟩ := h.store_args hn hop
  have hd : .instr d ∈ (p.func.instr i).args := by simp [hargs _ hl i hi hie, ha]
  have hres := h.sound.results _ hl i (Func.mem_listed_of_body hi) d hd
  obtain ⟨n, hget⟩ := List.getElem?_of_mem hi
  have hready := (h.sound.supplied _ (h.walk hπ).reachable).uses i n (Func.place_of_body hget) d hd
  obtain ⟨home, hhome, hdl, -⟩ := h.sound.exists_home hready hres
  exact ⟨hres, home, hhome, hdl⟩

end Valid

namespace Moved

variable (hm : p.Moved g) (h : p.Valid)
include hm h

/-- What was left before control comes to the place of a copy. -/
theorem precedes_place {a : BlockId} (hq : q ∈ p.copies) (ha : a ≠ p.place q.1) :
    g.Precedes a (p.place q.1) ↔
    ∀ π, p.context.Path π (p.context.edge q.1).source → a ∈ p.trail π ∨ a = p.source q.1 := by
  obtain ⟨hx, -⟩ := mem_copies.1 hq
  unfold place at ha ⊢
  cases hc : p.isCut q.1 with
  | true =>
    rw [if_pos rfl, hm.precedes_splitId h (mem_cuts.2 ⟨hx, hc⟩)]
    simp only [List.mem_append, List.mem_singleton]
  | false =>
    rw [hc, if_neg Bool.false_ne_true] at ha
    rw [if_neg Bool.false_ne_true, source, hm.precedes_blockAt h (h.wired.source_lt _ hx)]
    exact forall₂_congr fun π _ => ⟨Or.inl, fun hor => hor.resolve_right ha⟩

omit hm in
theorem copyId_not_mem_body (hb : b ∈ p.attached) : p.copyId q ∉ (p.func.block b).body := by
  intro hmem
  rcases List.mem_append.1 hb with hb | hb
  · have hle := h.sound.listed_le hb (Func.mem_listed_of_body hmem)
    exact absurd (p.lt_copyId q) (Nat.not_lt_of_le hle)
  · obtain ⟨x, -, rfl⟩ := List.mem_map.1 hb
    rw [p.block_splitId] at hmem
    cases hmem

/-- From the place of a copy on, its block has copies only. -/
theorem drop_copy (hq : q ∈ p.copies) (hn : (g.block (p.place q.1)).body[n]? = some (p.copyId q)) :
    ∃ q₁ q₂, p.copies.filter (fun s => p.place s.1 == p.place q.1) = q₁ ++ q :: q₂ ∧
      (g.block (p.place q.1)).body.drop n = (q :: q₂).map p.copyId := by
  have hplace := h.place_mem (mem_copies.1 hq).1
  rcases hm.body_cases hplace hn with ⟨l₁, l₂, hbody, -⟩ | ⟨q₁, q', q₂, hfilter, hqq, hdrop⟩
  · refine absurd ?_ (copyId_not_mem_body h hplace (q := q))
    rw [hbody]
    exact List.mem_append_right _ List.mem_cons_self
  · have := copyId_inj hq hqq
    subst this
    exact ⟨q₁, q₂, hfilter, hdrop⟩

/-- The copies in one place stand in the order of their numbers. -/
theorem copyId_not_mem_drop (hq : q ∈ p.copies) (hr : r ∈ p.copies) (he : r.1 = q.1)
    (hn : (g.block (p.place q.1)).body[n]? = some (p.copyId q)) :
    p.copyId r ∉ (g.block (p.place q.1)).body.drop n ↔ r.2 < q.2 := by
  obtain ⟨q₁, q₂, hfilter, hdrop⟩ := hm.drop_copy h hq hn
  have hpw := p.pairwise_copies.filter (fun s => p.place s.1 == p.place q.1)
  have hmem : r ∈ p.copies.filter fun s => p.place s.1 == p.place q.1 :=
    List.mem_filter.2 ⟨hr, by rw [he, beq_self_eq_true]⟩
  rw [hfilter] at hpw hmem
  obtain ⟨-, hback, hfront⟩ := List.pairwise_append.1 hpw
  rw [hdrop]
  constructor
  · intro hno
    have hr₁ := (List.mem_append.1 hmem).resolve_right fun hr₂ => hno (List.mem_map_of_mem hr₂)
    rcases hfront r hr₁ q List.mem_cons_self with hlt | ⟨-, hlt⟩
    · exact absurd he (Nat.ne_of_lt hlt)
    · exact hlt
  · intro hlt hmem'
    obtain ⟨s, hs, hsr⟩ := List.mem_map.1 hmem'
    have := copyId_inj hr hsr.symm
    subst this
    rcases List.mem_cons.1 hs with rfl | hs
    · exact absurd hlt (Nat.lt_irrefl _)
    · rcases (List.pairwise_cons.1 hback).1 r hs with hlt' | ⟨-, hlt'⟩
      · exact absurd he.symm (Nat.ne_of_lt hlt')
      · exact absurd hlt (Nat.not_lt_of_lt hlt')

theorem old_not_mem_drop {d : Nat} (hq : q ∈ p.copies)
    (hn : (g.block (p.place q.1)).body[n]? = some (p.copyId q)) (hd : d ≤ p.func.instrs.size) :
    d ∉ (g.block (p.place q.1)).body.drop n := by
  obtain ⟨q₁, q₂, -, hdrop⟩ := hm.drop_copy h hq hn
  rw [hdrop]
  exact not_mem_map_copyId hd

/-- The copy of a value is defined at another copy if it stands in front of it, or its edge is on
every path there. -/
theorem ready_copy_iff (hq : q ∈ p.copies) (hr : p.Moves r)
    (hn : (g.block (p.place q.1)).body[n]? = some (p.copyId q)) :
    g.Ready (p.place q.1) n (p.copyId r) ↔
      r.1 = q.1 ∧ r.2 < q.2 ∨ ∀ π, p.context.Path π (p.context.edge q.1).source → r.1 ∈ π := by
  obtain ⟨hrx, -⟩ := mem_copies.1 hr.1
  have hready : g.Ready (p.place q.1) n (p.copyId r) ↔
      if p.place r.1 = p.place q.1 then p.copyId r ∉ (g.block (p.place q.1)).body.drop n
        else g.Precedes (p.place r.1) (p.place q.1) := by
    rw [Func.ready_iff, (hm.copy r hr.1).2.2.2]
    simp only [Option.some.injEq, exists_eq_left',
      and_iff_right ((hm.mem_layout _).2 (h.place_mem hrx))]
  rw [hready]
  by_cases he : r.1 = q.1
  · rw [if_pos (by rw [he]), hm.copyId_not_mem_drop h hq hr.1 he hn]
    constructor
    · exact fun hlt => Or.inl ⟨he, hlt⟩
    · rintro (⟨-, hlt⟩ | hall)
      · exact hlt
      · obtain ⟨π, hπ⟩ := h.reach_source hq
        obtain ⟨π', hπ', hno⟩ := hπ.exists_avoiding
        exact absurd (he ▸ hall π' hπ') hno
  · have hne : p.place r.1 ≠ p.place q.1 := fun hp => he (h.place_inj hr.1 hq hp)
    rw [if_neg hne, hm.precedes_place h hq hne]
    constructor
    · intro hall
      refine Or.inr fun π hπ => ?_
      rcases hall π hπ with ht | hs
      · exact (h.place_mem_trail hr.1 hπ.edge_lt).1 ht
      · exact absurd hs (h.place_ne_source hq hr.1 he)
    · rintro (⟨he', -⟩ | hall) π hπ
      · exact absurd he' he
      · exact Or.inl ((h.place_mem_trail hr.1 hπ.edge_lt).2 (hall π hπ))

/-- A result that keeps its place is defined at a copy if every path there passes its block. -/
theorem ready_kept_iff (hq : q ∈ p.copies) {home : BlockId} (hl : home ∈ p.func.layout)
    (hd : d ∈ p.func.listed home) (hres : (p.func.instr d).op.hasResult = true)
    (hno : ∀ r, p.Moves r → p.origin r.2 ≠ d)
    (hn : (g.block (p.place q.1)).body[n]? = some (p.copyId q)) : g.Ready (p.place q.1) n d ↔
      ∀ π, p.context.Path π (p.context.edge q.1).source → home = p.source q.1 ∨
        home ∈ π.map p.source := by
  have hblock := hm.block_kept h.sound.toStructured hl hd (h.notMem_gone hres hno)
  have hready : g.Ready (p.place q.1) n d ↔
      (home = p.place q.1 ∨ g.Precedes home (p.place q.1)) := by
    rw [Func.ready_iff, hblock]
    simp only [Option.some.injEq, exists_eq_left',
      and_iff_right ((hm.mem_layout home).2 (List.mem_append_left _ hl))]
    by_cases he : home = p.place q.1
    · rw [if_pos he]
      exact ⟨fun _ => Or.inl he, fun _ => hm.old_not_mem_drop h hq hn (h.sound.listed_le hl hd)⟩
    · rw [if_neg he]
      exact ⟨Or.inr, fun hor => hor.resolve_left he⟩
  have htrail : ∀ π, home ∈ p.trail π ↔ home ∈ π.map p.source := fun π => by
    rw [mem_trail, List.mem_map]
    refine exists_congr fun y => and_congr_right fun _ => ⟨?_, fun hs => Or.inl hs.symm⟩
    rintro (hs | ⟨-, hs⟩)
    · exact hs.symm
    · exact absurd hs (h.ne_splitId hl)
  rw [hready]
  by_cases he : home = p.place q.1
  · have hs : home = p.source q.1 := by
      unfold place at he
      split at he
      · exact absurd he (h.ne_splitId hl)
      · exact he
    exact ⟨fun _ π _ => Or.inl hs, fun _ => Or.inl he⟩
  · rw [hm.precedes_place h hq he, or_iff_right he]
    exact forall₂_congr fun π _ => by rw [htrail, or_comm]

/-- The address of a copied store is defined at the copy exactly if it was computed on
every path. -/
theorem ready_address_iff {m : Catalog.Entry Value InstrId} {d' : InstrId} (hq : q ∈ p.copies)
    (hm' : p.context.catalog.entries[q.2]? = some m) (hop : m.op = .store) (ha : m.dest = .instr d)
    (hr : p.rename (.instr d) = .instr d')
    (hn : (g.block (p.place q.1)).body[n]? = some (p.copyId q)) :
    g.Ready (p.place q.1) n d' ↔ p.AtHand q d := by
  obtain ⟨hres, home, hl, hd⟩ := h.exists_home_of_address hq hm' hop ha
  rcases h.rename_instr_eq hr with ⟨r, hmoves, hv, rfl⟩ | ⟨hno, rfl⟩
  · rw [hm.ready_copy_iff h hq hmoves hn]
    constructor
    · refine fun hor => ⟨fun s hs ho => ?_, fun hno => absurd hv (hno r hmoves)⟩
      rw [h.copy_of_origin hmoves hs (ho.trans hv.symm)]
      exact hor
    · exact fun hat => hat.1 r hmoves hv
  · rw [hm.ready_kept_iff h hq hl hd hres hno hn]
    constructor
    · exact fun hall => ⟨fun r hr ho => absurd ho (hno r hr), fun _ => ⟨home, hl, hd, hall⟩⟩
    · intro hat
      obtain ⟨home', hl', hd', hall⟩ := hat.2 hno
      rwa [h.sound.block_unique hl hl' hd hd']

/-- A copy stands in its place. -/
theorem exists_place (hq : q ∈ p.copies) :
    p.place q.1 ∈ g.preOrder ∧ ∃ n : Nat, (g.block (p.place q.1)).body[n]? = some (p.copyId q) := by
  obtain ⟨hx, -⟩ := mem_copies.1 hq
  constructor
  · obtain ⟨π, hπ⟩ := h.reach_source hq
    unfold place
    split
    · next hc => exact (hm.walk_split h (mem_cuts.2 ⟨hx, hc⟩) hπ).reachable
    · exact (hm.walk h hπ).reachable
  · refine List.getElem?_of_mem ?_
    rw [hm.body _ (h.place_mem hx)]
    exact List.mem_append_right _ (List.mem_map_of_mem (List.mem_filter.2 ⟨hq, beq_self_eq_true _⟩))

/-- A copy stands nowhere else. -/
theorem place_of_copy (hb : b ∈ p.attached) (hq : q ∈ p.copies)
    (hi : ((g.block b).body ++ (g.block b).term.toList)[n]? = some (p.copyId q)) :
    b = p.place q.1 ∧ (g.block b).body[n]? = some (p.copyId q) := by
  by_cases hn : n < (g.block b).body.length
  · rw [List.getElem?_append_left hn] at hi
    rcases hm.body_cases hb hi with ⟨l₁, l₂, hbody, -⟩ | ⟨q₁, r, q₂, hfilter, hqr, -⟩
    · refine absurd ?_ (copyId_not_mem_body h hb (q := q))
      rw [hbody]
      exact List.mem_append_right _ List.mem_cons_self
    · have := copyId_inj hq hqr
      subst this
      have hmem : q ∈ p.copies.filter fun q => p.place q.1 == b := by simp [hfilter]
      exact ⟨(beq_iff_eq.1 (List.mem_filter.1 hmem).2).symm, hi⟩
  · push Not at hn
    rw [List.getElem?_append_right hn] at hi
    have ht := List.mem_of_getElem? hi
    rcases List.mem_append.1 hb with hb | hb
    · rw [hm.term b hb] at ht
      exact absurd (p.lt_copyId q)
        (Nat.not_lt_of_le (h.sound.listed_le hb (List.mem_append_right _ ht)))
    · obtain ⟨x, hx, rfl⟩ := List.mem_map.1 hb
      rw [hm.term_split x hx, Option.toList_some, List.mem_singleton] at ht
      exact absurd ht (Nat.ne_of_lt (Nat.lt_of_le_of_lt (copyId_le hq) (p.lt_jumpId x)))

/-- The operands of a copied store. -/
theorem store_copy_args {m : Catalog.Entry Value InstrId} (hq : q ∈ p.copies)
    (hm' : p.context.catalog.entries[q.2]? = some m) (hop : m.op = .store) :
    (g.instr (p.copyId q)).op = .store ∧
      ∃ v, (g.instr (p.copyId q)).args = [p.rename v, p.rename m.dest] := by
  obtain ⟨ho, hop', b, hb, hbody⟩ := h.origin_of_entry hm'
  obtain ⟨c₀, hs⟩ := h.solved
  obtain ⟨v, -, hargs⟩ := h.store_args hm' hop
  refine ⟨by rw [(hm.copy q hq).1, hop', hop], v, ?_⟩
  rw [(hm.copy q hq).2.1,
    hargs b hb _ hbody (by rw [ho]; exact hs.numbered.lawful.exprAt_instr hm')]
  rfl

theorem mem_attached (hb : b ∈ g.preOrder) : b ∈ p.attached := by
  rcases hm.reach_cases h hb with ⟨k, ⟨π, hπ⟩, rfl⟩ | ⟨x, hx, -, rfl⟩
  · exact List.mem_append_left _ (h.blockAt_mem (hπ.lt h.wired))
  · exact List.mem_append_right _ (List.mem_map_of_mem hx)

omit h in
theorem mem_layout_of_phi (hb : b ∈ p.attached) (hi : i ∈ (g.block b).phis) :
    b ∈ p.func.layout ∧ i ∈ (p.func.block b).phis := by
  rw [hm.phis] at hi
  refine ⟨(List.mem_append.1 hb).resolve_right fun hb => ?_, hi⟩
  obtain ⟨x, -, rfl⟩ := List.mem_map.1 hb
  rw [p.block_splitId] at hi
  cases hi

/-- A use is behind its definition, or is the address of a copied store. -/
theorem ready_or_address {d' : InstrId} (hb : b ∈ g.preOrder)
    (hi : ((g.block b).body ++ (g.block b).term.toList)[n]? = some i)
    (hd : .instr d' ∈ (g.instr i).args) : g.Ready b n d' ∨ ∃ q ∈ p.copies, ∃ m d, b = p.place q.1 ∧
      (g.block b).body[n]? = some (p.copyId q) ∧ p.context.catalog.entries[q.2]? = some m ∧
        m.op = .store ∧ m.dest = .instr d ∧
      p.rename (.instr d) = .instr d' := by
  by_cases hop : ∀ q ∈ p.copies, i = p.copyId q → .instr d' ∈ g.operands i
  · exact Or.inl (hm.ready_use h hb hi hd hop)
  · push Not at hop
    obtain ⟨q, hq, rfl, hno⟩ := hop
    obtain ⟨hplace, hn⟩ := hm.place_of_copy h (hm.mem_attached h hb) hq hi
    obtain ⟨m, hm', -⟩ := h.exists_entry (mem_copies.1 hq).2 (mem_copies.1 hq).1
    have hst : (g.instr (p.copyId q)).op = .store := by
      by_contra hst
      unfold Func.operands at hno
      rw [if_neg hst] at hno
      exact hno hd
    have hmop : m.op = .store := by rw [← (h.origin_of_entry hm').2.1, ← (hm.copy q hq).1, hst]
    obtain ⟨-, v, hargs⟩ := hm.store_copy_args h hq hm' hmop
    unfold Func.operands at hno
    rw [if_pos hst, hargs] at hno
    rw [hargs, List.mem_cons, List.mem_singleton] at hd
    rcases hd with hv | hr
    · exact absurd (by rw [hv]; exact List.mem_cons_self) hno
    · obtain ⟨d, hdest, -⟩ := h.rename_eq_instr hr.symm
      exact Or.inr ⟨q, hq, m, d, hplace, hn, hm', hmop, hdest, by rw [← hdest, hr]⟩

end Moved
end CodeMotion.Plan
