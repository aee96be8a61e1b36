import Mathlib
import CodeMotion.Proofs.CopyPaths
import CodeMotion.Proofs.Trails

/-! After a motion every operand is defined where it is used, except perhaps the address of a copied
store: a use of a moved value is behind its copy, and a copy is behind the definitions of its
operands. -/

namespace CodeMotion

theorem exists_of_getElem?_filter {α : Type} {f : α → Bool} {l : List α} {n : Nat} {a : α}
    (h : (l.filter f)[n]? = some a) :
    ∃ l₁ l₂, l = l₁ ++ a :: l₂ ∧ (l.filter f).drop n = a :: l₂.filter f := by
  induction l generalizing n with
  | nil => simp at h
  | cons b t ih =>
    by_cases hb : f b = true
    · rw [List.filter_cons_of_pos hb] at h ⊢
      cases n with
      | zero =>
        rw [List.getElem?_cons_zero, Option.some.injEq] at h
        subst h
        exact ⟨[], t, rfl, rfl⟩
      | succ n =>
        obtain ⟨l₁, l₂, rfl, hd⟩ := ih h
        exact ⟨b :: l₁, l₂, rfl, hd⟩
    · rw [List.filter_cons_of_neg hb] at h ⊢
      obtain ⟨l₁, l₂, rfl, hd⟩ := ih h
      exact ⟨b :: l₁, l₂, rfl, hd⟩

namespace Plan

variable {p : Plan} {g : Func} {k x n : Nat} {b : BlockId} {d i : InstrId} {q : Nat × Nat}
  {π : List Nat}

/-- A path that comes to the block of a moved value takes the edge of its copy. -/
theorem Valid.edge_mem_of_home (h : p.Valid) (hq : p.Moves q) {home : BlockId}
    (hl : home ∈ p.func.layout) (hd : p.origin q.2 ∈ p.func.listed home) (hπ : p.context.Path π k)
    (hm : home = p.blockAt k ∨ home ∈ π.map p.source) : q.1 ∈ π := by
  obtain ⟨n, hn, -⟩ := h.exists_entry (mem_copies.1 hq.1).2 (mem_copies.1 hq.1).1
  obtain ⟨-, -, b, hb, hbody⟩ := h.origin_of_entry hn
  have hbh : b = home := h.sound.block_unique hb hl (Func.mem_listed_of_body hbody) hd
  subst hbh
  rcases hm with rfl | hm
  · exact h.edge_mem_path hq (hπ.lt h.wired) hbody hπ
  · obtain ⟨y, hy, rfl⟩ := List.mem_map.1 hm
    obtain ⟨π₁, π₂, rfl⟩ := List.append_of_mem hy
    exact List.mem_append_left _ (h.edge_mem_path hq (h.wired.source_lt y (hπ.edge_lt y hy)) hbody
      hπ.cut)

namespace Moved

variable (hm : p.Moved g) (h : p.Valid)
include hm h

/-- The copy of a value is defined wherever all paths take its edge. -/
theorem ready_copy (hq : p.Moves q) (hk : p.context.Reach k)
    (hall : ∀ π, p.context.Path π k → q.1 ∈ π) (n : Nat) :
    g.Ready (p.blockAt k) n (p.copyId q) := by
  obtain ⟨hx, -⟩ := mem_copies.1 hq.1
  obtain ⟨π₀, hπ₀⟩ := hk
  have hlt := hπ₀.lt h.wired
  have hne : p.place q.1 ≠ p.blockAt k := by
    intro hp
    unfold place at hp
    split at hp
    · exact h.ne_splitId (h.blockAt_mem hlt) hp.symm
    · have hs : (p.context.edge q.1).source = k := h.blockAt_inj (h.wired.source_lt _ hx) hlt hp
      subst hs
      obtain ⟨π', hπ', hno⟩ := hπ₀.exists_avoiding
      exact hno (hall π' hπ')
  refine Func.ready_iff.2 ⟨p.place q.1, (hm.copy q hq.1).2.2.2,
    (hm.mem_layout _).2 (h.place_mem hx), ?_⟩
  rw [if_neg hne, hm.precedes_blockAt h hlt]
  exact fun π hπ => (h.place_mem_trail hq.1 hπ.edge_lt).2 (hall π hπ)

theorem ready_copy_split (hq : p.Moves q) (hx : x ∈ p.cuts)
    (hr : p.context.Reach (p.context.edge x).source)
    (hall : ∀ π, p.context.Path π (p.context.edge x).source → q.1 ∈ π) (n : Nat) :
    g.Ready (p.splitId x) n (p.copyId q) := by
  obtain ⟨hqx, -⟩ := mem_copies.1 hq.1
  have hne : p.place q.1 ≠ p.splitId x := by
    intro hp
    have hqx' := h.place_eq_splitId hx hqx hp
    obtain ⟨π₀, hπ₀⟩ := hr
    obtain ⟨π', hπ', hno⟩ := hπ₀.exists_avoiding
    exact hno (hqx' ▸ hall π' hπ')
  refine Func.ready_iff.2 ⟨p.place q.1, (hm.copy q hq.1).2.2.2,
    (hm.mem_layout _).2 (h.place_mem hqx), ?_⟩
  rw [if_neg hne, hm.precedes_splitId h hx]
  exact fun π hπ => List.mem_append_left _ ((h.place_mem_trail hq.1 hπ.edge_lt).2 (hall π hπ))

end Moved

/-- A value without a copy is not deleted. -/
theorem Feasible.notMem_gone (h : p.Feasible) (hres : (p.func.instr d).op.hasResult = true)
    (hno : ∀ q, p.Moves q → p.origin q.2 ≠ d) : d ∉ p.gone := by
  intro hd
  obtain ⟨q, hq, rfl⟩ := List.mem_map.1 hd
  obtain ⟨c₀, hs⟩ := h.solved
  have hexpr := (h.site_spec hq).2.2
  obtain ⟨n, hn, -⟩ := Catalog.exprAt_entry hexpr
  obtain ⟨ho, hop, -⟩ := h.origin_of_entry hn
  have hsite : n.op = (p.func.instr (p.site q)).op :=
    Reader.expression_op ((hs.numbered.lawful.exprAt_iff_entry hn).1 hexpr).2
  have hne : n.op ≠ .store := fun hst => by
    rw [← hsite, hst] at hres
    cases hres
  obtain ⟨x, hx⟩ := h.exists_copy hq (by rw [hop, hsite, hres])
  exact hno _ hx (ho.trans (hs.numbered.lawful.instr_unique hn hne hexpr).symm)

namespace Moved

variable (hm : p.Moved g) (h : p.Valid)
include hm h

omit h in
/-- What is not taken away stays in its block. -/
theorem block_kept {home : BlockId} (hs : p.func.Structured) (hl : home ∈ p.func.layout)
    (hd : d ∈ p.func.listed home) (hno : d ∉ p.gone) : (g.instr d).block = some home := by
  rw [(hm.old home hl d hd).2.2.2, if_neg hno, (hs.fitting home hl).parent d hd]

/-- A result is defined, under its new name, where every path has come to its block. -/
theorem ready_block {home : BlockId} {d' : InstrId} (hl : home ∈ p.func.layout)
    (hd : d ∈ p.func.listed home) (hres : (p.func.instr d).op.hasResult = true)
    (hr : p.rename (.instr d) = .instr d') (hk : p.context.Reach k)
    (hall : ∀ π, p.context.Path π k → home = p.blockAt k ∨ home ∈ π.map p.source)
    (hplace : home = p.blockAt k → d ∉ (g.block home).body.drop n) :
    g.Ready (p.blockAt k) n d' := by
  rcases h.rename_instr_eq hr with ⟨q, hq, rfl, rfl⟩ | ⟨hno, rfl⟩
  · exact hm.ready_copy h hq hk (fun π hπ => h.edge_mem_of_home hq hl hd hπ (hall π hπ)) n
  · have hblock := hm.block_kept h.sound.toStructured hl hd (h.notMem_gone hres hno)
    refine Func.ready_iff.2 ⟨home, hblock, (hm.mem_layout _).2 (List.mem_append_left _ hl), ?_⟩
    by_cases hb : home = p.blockAt k
    · rw [if_pos hb, ← hb]
      exact hplace hb
    · obtain ⟨π₀, hπ₀⟩ := hk
      rw [if_neg hb, hm.precedes_blockAt h (hπ₀.lt h.wired)]
      intro π hπ
      obtain ⟨y, hy, hs⟩ := List.mem_map.1 ((hall π hπ).resolve_left hb)
      exact mem_trail.2 ⟨y, hy, Or.inl hs.symm⟩

theorem ready_split {home : BlockId} {d' : InstrId} (hl : home ∈ p.func.layout)
    (hd : d ∈ p.func.listed home) (hres : (p.func.instr d).op.hasResult = true)
    (hr : p.rename (.instr d) = .instr d') (hx : x ∈ p.cuts)
    (hk : p.context.Reach (p.context.edge x).source)
    (hall : ∀ π, p.context.Path π (p.context.edge x).source → home = p.source x ∨
      home ∈ π.map p.source) : g.Ready (p.splitId x) n d' := by
  rcases h.rename_instr_eq hr with ⟨q, hq, rfl, rfl⟩ | ⟨hno, rfl⟩
  · exact hm.ready_copy_split h hq hx hk (fun π hπ => h.edge_mem_of_home hq hl hd hπ (hall π hπ)) n
  · have hblock := hm.block_kept h.sound.toStructured hl hd (h.notMem_gone hres hno)
    refine Func.ready_iff.2 ⟨home, hblock, (hm.mem_layout _).2 (List.mem_append_left _ hl), ?_⟩
    rw [if_neg (h.ne_splitId hl), hm.precedes_splitId h hx]
    intro π hπ
    rcases hall π hπ with hs | hs
    · exact List.mem_append_right _ (by rw [hs]; exact List.mem_singleton_self _)
    · obtain ⟨y, hy, hs⟩ := List.mem_map.1 hs
      exact List.mem_append_left _ (mem_trail.2 ⟨y, hy, Or.inl hs.symm⟩)

omit h in
/-- What stands at a place of a body after the motion, and behind it. -/
theorem body_cases (hb : b ∈ p.attached) (hi : (g.block b).body[n]? = some i) :
    (∃ l₁ l₂, (p.func.block b).body = l₁ ++ i :: l₂ ∧
      (g.block b).body.drop n = i :: l₂.filter (· ∉ p.gone) ++ p.placed p.copies b) ∨
    ∃ q₁ q q₂, p.copies.filter (fun q => p.place q.1 == b) = q₁ ++ q :: q₂ ∧ i = p.copyId q ∧
      (g.block b).body.drop n = (q :: q₂).map p.copyId := by
  rw [hm.body b hb] at hi ⊢
  by_cases hn : n < ((p.func.block b).body.filter (· ∉ p.gone)).length
  · rw [List.getElem?_append_left hn] at hi
    obtain ⟨l₁, l₂, hl, hd⟩ := exists_of_getElem?_filter hi
    refine Or.inl ⟨l₁, l₂, hl, ?_⟩
    rw [List.drop_append_of_le_length (Nat.le_of_lt hn), hd]
  · push Not at hn
    rw [List.getElem?_append_right hn] at hi
    obtain ⟨m, hm'⟩ : ∃ m, m = n - ((p.func.block b).body.filter (· ∉ p.gone)).length := ⟨_, rfl⟩
    rw [← hm', placed, List.getElem?_map, Option.map_eq_some_iff] at hi
    obtain ⟨q, hq, rfl⟩ := hi
    obtain ⟨hlt, hget⟩ := List.getElem?_eq_some_iff.1 hq
    refine Or.inr ⟨(p.copies.filter fun q => p.place q.1 == b).take m, q,
      (p.copies.filter fun q => p.place q.1 == b).drop (m + 1), ?_, rfl, ?_⟩
    · rw [← hget, List.getElem_cons_drop, List.take_append_drop]
    · rw [List.drop_append, List.drop_eq_nil_of_le hn, List.nil_append, ← hm', placed,
        ← List.map_drop, ← hget, List.getElem_cons_drop]

/-- Where control is in the middle of a walk, in terms of the plan. -/
theorem reach_cases (hb : b ∈ g.preOrder) : (∃ k, p.context.Reach k ∧ b = p.blockAt k) ∨
    ∃ x ∈ p.cuts, p.context.Reach (p.context.edge x).source ∧ b = p.splitId x := by
  obtain ⟨l, hl⟩ := Func.exists_walk hb
  rcases hm.exists_path h hl with ⟨π, k, hπ, hk, -⟩ | ⟨x, hx, π, hπ, hk, -⟩
  · exact Or.inl ⟨k, ⟨π, hπ⟩, hk⟩
  · exact Or.inr ⟨x, hx, ⟨π, hπ⟩, hk⟩

/-- The uses in instructions that were there before. -/
theorem ready_old_use (hk : p.context.Reach k) {m : Nat}
    (hi : ((p.func.block (p.blockAt k)).body ++ (p.func.block (p.blockAt k)).term.toList)[m]? =
      some i)
    (hbehind : ∀ d, d ∈ (p.func.block (p.blockAt k)).phis ∨
      d ∈ (p.func.block (p.blockAt k)).body.take m → d ∉ (g.block (p.blockAt k)).body.drop n)
    {d' : InstrId} (hd' : .instr d' ∈ (g.instr i).args) : g.Ready (p.blockAt k) n d' := by
  obtain ⟨π₀, hπ₀⟩ := hk
  have hl := h.blockAt_mem (hπ₀.lt h.wired)
  have hil := Func.mem_listed_of_place hi
  rw [(hm.old _ hl i hil).2.1, List.mem_map] at hd'
  obtain ⟨v, hv, hr⟩ := hd'
  obtain ⟨d, rfl, -⟩ := h.rename_eq_instr hr
  have hres := h.sound.results _ hl i hil d hv
  have hready := (h.sound.supplied _ (h.walk hπ₀).reachable).uses i m hi d hv
  obtain ⟨home, hhome, hd, hcase⟩ := h.sound.exists_home hready hres
  refine hm.ready_block h hhome hd hres hr ⟨π₀, hπ₀⟩ (fun π hπ => ?_) fun hb => ?_
  · exact hcase.imp And.left fun hp => hp.2 _ (h.walk hπ)
  · rw [hb]
    rcases hcase with ⟨-, hdef⟩ | ⟨hne, -⟩
    · exact hbehind d hdef
    · exact absurd hb hne

/-- The uses in copies, except for the addresses of stores. -/
theorem ready_copy_use (hq : q ∈ p.copies) {d' : InstrId}
    (hd' : .instr d' ∈ g.operands (p.copyId q))
    (hold : ∀ d ≤ p.func.instrs.size, d ∉ (g.block (p.place q.1)).body.drop n) :
    g.Ready (p.place q.1) n d' := by
  obtain ⟨hx, he⟩ := mem_copies.1 hq
  obtain ⟨e, hn, ho⟩ := h.exists_entry he hx
  obtain ⟨c₀, hs⟩ := h.solved
  have hr := ((hs.mem_insertOn hx).1 (h.mem_insertOn hx he)).1
  have hexpr := (hs.numbered.lawful.entry q.2 e hn).1
  obtain ⟨hop, hargs, -, -⟩ := hm.copy q hq
  have hoperands : g.operands (p.copyId q) = (e.expression p.func.reader).operands.map
      p.rename := by
    rw [Func.operands_of_expression hexpr, ← ho]
    unfold Func.operands
    rw [hop, hargs]
    split
    · rw [List.map_take]
    · rfl
  rw [hoperands, List.mem_map] at hd'
  obtain ⟨v, hv, hren⟩ := hd'
  obtain ⟨d, rfl, -⟩ := h.rename_eq_instr hren
  obtain ⟨π₀, hπ₀⟩ := hr
  obtain ⟨home, hl, hd, -⟩ := h.operand_mem_path hq hn hv hπ₀
  have hall : ∀ π, p.context.Path π (p.context.edge q.1).source → home = p.source q.1 ∨
      home ∈ π.map p.source := by
    intro π hπ
    obtain ⟨home', hl', hd'', hmem⟩ := h.operand_mem_path hq hn hv hπ
    rw [h.sound.block_unique hl hl' hd hd'']
    rw [List.map_append, List.mem_append] at hmem
    exact hmem.symm.imp List.mem_singleton.1 id
  have hres : (p.func.instr d).op.hasResult = true := by
    obtain ⟨-, -, b, hb, hbody⟩ := h.origin_of_entry hn
    rw [Func.operands_of_expression hexpr, ← ho] at hv
    exact h.sound.results b hb _ (Func.mem_listed_of_body hbody) d (Func.mem_args_of_operands hv)
  unfold place at hold ⊢
  split
  · next hc => exact hm.ready_split h hl hd hres hren (mem_cuts.2 ⟨hx, hc⟩) ⟨π₀, hπ₀⟩ hall
  · next hc =>
    refine hm.ready_block h hl hd hres hren ⟨π₀, hπ₀⟩ hall fun hb => ?_
    rw [if_neg hc] at hold
    rw [hb]
    exact hold d (h.sound.listed_le hl hd)

omit hm h in
theorem not_mem_map_copyId {l : List (Nat × Nat)} {d : Nat} (hd : d ≤ p.func.instrs.size) :
    d ∉ l.map p.copyId := by
  intro hmem
  obtain ⟨q, -, rfl⟩ := List.mem_map.1 hmem
  exact absurd (p.lt_copyId q) (Nat.not_lt_of_le hd)

omit hm in
/-- What was in front of an old instruction still is. -/
theorem not_mem_behind (hb : b ∈ p.func.layout) {l₁ l₂ : List InstrId}
    (hbody : (p.func.block b).body = l₁ ++ i :: l₂)
    (hdrop : (g.block b).body.drop n = i :: l₂.filter (· ∉ p.gone) ++ p.placed p.copies b)
    (hd : d ∈ (p.func.block b).phis ∨ d ∈ l₁) : d ∉ (g.block b).body.drop n := by
  have hnd := h.sound.nodup_listed hb
  have hdl : d ∈ p.func.listed b := by
    unfold Func.listed
    rw [hbody]
    rcases hd with hd | hd <;> simp [hd]
  unfold Func.listed at hnd
  rw [hbody] at hnd
  have hnd' := (List.nodup_append.1 hnd).1
  rw [← List.append_assoc, List.nodup_append] at hnd'
  have hd' : d ∈ (p.func.block b).phis ++ l₁ := List.mem_append.2 hd
  rw [hdrop, List.mem_append, List.mem_cons, List.mem_filter]
  rintro ((rfl | ⟨hd₂, -⟩) | hc)
  · exact hnd'.2.2 d hd' d List.mem_cons_self rfl
  · exact hnd'.2.2 d hd' d (List.mem_cons_of_mem _ hd₂) rfl
  · exact not_mem_map_copyId (h.sound.listed_le hb hdl) hc

/-- Every operand is defined where it is used; of the operands of a copied store this is said of its
value only. -/
theorem ready_use (hb : b ∈ g.preOrder)
    (hi : ((g.block b).body ++ (g.block b).term.toList)[n]? = some i) {d' : InstrId}
    (hd' : .instr d' ∈ (g.instr i).args)
    (hop : ∀ q ∈ p.copies, i = p.copyId q → .instr d' ∈ g.operands i) : g.Ready b n d' := by
  have hcopy : ∀ q₁ q q₂, p.copies.filter (fun q => p.place q.1 == b) = q₁ ++ q :: q₂ →
    i = p.copyId q →
      (g.block b).body.drop n = (q :: q₂).map p.copyId → g.Ready b n d' := by
    intro q₁ q q₂ hfilter hiq hdrop
    have hq : q ∈ p.copies.filter fun q => p.place q.1 == b := by simp [hfilter]
    obtain ⟨hqc, hplace⟩ := List.mem_filter.1 hq
    rw [beq_iff_eq] at hplace
    have hres := hop q hqc hiq
    rw [hiq] at hres
    rw [← hplace] at hdrop ⊢
    refine hm.ready_copy_use h hqc hres fun d hd => ?_
    rw [hdrop]
    exact not_mem_map_copyId hd
  rcases hm.reach_cases h hb with ⟨k, hk, rfl⟩ | ⟨x, hx, hr, rfl⟩
  · obtain ⟨π, hπ⟩ := hk
    have hl := h.blockAt_mem (hπ.lt h.wired)
    by_cases hn : n < (g.block (p.blockAt k)).body.length
    · rw [List.getElem?_append_left hn] at hi
      rcases hm.body_cases (List.mem_append_left _ hl) hi with ⟨l₁, l₂, hbody, hdrop⟩ |
        ⟨q₁, q, q₂, h1, h2, h3⟩
      · refine hm.ready_old_use h ⟨π, hπ⟩ (m := l₁.length) (by rw [hbody]; simp)
          (fun d hd => ?_) hd'
        rw [hbody, List.take_left] at hd
        exact not_mem_behind h hl hbody hdrop hd
      · exact hcopy q₁ q q₂ h1 h2 h3
    · push Not at hn
      rw [List.getElem?_append_right hn, hm.term _ hl] at hi
      obtain ⟨t, ht, -⟩ := (h.sound.fitting _ hl).term
      have hit : i = t := by
        rw [ht] at hi
        have := List.mem_of_getElem? hi
        simpa using this
      refine hm.ready_old_use h ⟨π, hπ⟩ (m := (p.func.block (p.blockAt k)).body.length)
        (by rw [ht, hit]; simp) (fun d _ => ?_) hd'
      rw [List.drop_eq_nil_of_le hn]
      exact List.not_mem_nil
  · have hs : p.splitId x ∈ p.attached := List.mem_append_right _ (List.mem_map_of_mem hx)
    by_cases hn : n < (g.block (p.splitId x)).body.length
    · rw [List.getElem?_append_left hn] at hi
      rcases hm.body_cases hs hi with ⟨l₁, l₂, hbody, -⟩ | ⟨q₁, q, q₂, h1, h2, h3⟩
      · rw [p.block_splitId] at hbody
        simp at hbody
      · exact hcopy q₁ q q₂ h1 h2 h3
    · -- a jump has no operands
      push Not at hn
      rw [List.getElem?_append_right hn, hm.term_split x hx] at hi
      have hij : i = p.jumpId x := by simpa using List.mem_of_getElem? hi
      rw [hij, hm.jump x hx] at hd'
      cases hd'

/-- Every operand of a phi is defined at the end of the block it comes from. -/
theorem ready_phi (hb : b ∈ p.func.layout) (hi : i ∈ (p.func.block b).phis) {d' : InstrId}
    {s : BlockId} (hz : (Value.instr d', s) ∈ (g.instr i).args.zip (g.instr i).incoming)
    (hs : s ∈ g.preOrder) : g.Ready s ((g.block s).body.length + 1) d' := by
  have hil : i ∈ p.func.listed b := List.mem_append_left _ (List.mem_append_left _ hi)
  rw [(hm.old b hb i hil).2.1, hm.incoming b hb i hi, List.zip_map, List.mem_map] at hz
  obtain ⟨⟨v, a⟩, hz, he⟩ := hz
  obtain ⟨hv, ha⟩ := Prod.ext_iff.1 he
  dsimp only [Prod.map] at hv ha
  obtain ⟨d, rfl, -⟩ := h.rename_eq_instr hv
  have hfit := h.sound.fitting b hb
  have hpred := (hfit.phis i hi).2.2 a (List.of_mem_zip hz).2
  obtain ⟨j, hj, rfl⟩ := h.exists_node (h.sound.preds b hb a hpred)
  obtain ⟨x, hx, hsource, rfl⟩ := h.exists_edge hj (hfit.preds _ hpred).2
  have hsx : p.blockAt j = p.source x := by rw [source, hsource]
  rw [hsx, h.reroute_edge hx] at ha
  have hreach : p.context.Reach (p.context.edge x).source := by
    rw [← ha] at hs
    unfold place at hs
    split at hs
    · next hc =>
      rcases hm.reach_cases h hs with ⟨k, ⟨π, hπ⟩, hk⟩ | ⟨y, -, hr, hy⟩
      · exact absurd hk.symm (h.ne_splitId (h.blockAt_mem (hπ.lt h.wired)))
      · rwa [splitId_inj (mem_cuts.2 ⟨hx, hc⟩) hy]
    · rcases hm.reach_cases h hs with ⟨k, hr, hk⟩ | ⟨y, -, -, hy⟩
      · obtain ⟨π, hπ⟩ := hr
        rw [h.blockAt_inj (h.wired.source_lt x hx) (hπ.lt h.wired) hk]
        exact ⟨π, hπ⟩
      · exact absurd hy (h.ne_splitId (h.source_mem hx))
  obtain ⟨π₀, hπ₀⟩ := hreach
  have hres := h.sound.results _ hb i hil d (List.of_mem_zip hz).1
  rw [hsx] at hz
  have hready :=
    (h.sound.supplied _ (h.walk (.step hπ₀ hx)).reachable).phis i hi d _ hz (h.walk hπ₀).reachable
  obtain ⟨home, hl, hd, hcase⟩ := h.sound.exists_home hready hres
  have hall : ∀ π, p.context.Path π (p.context.edge x).source → home = p.source x ∨
      home ∈ π.map p.source :=
    fun π hπ =>
    hcase.imp And.left fun hp => hp.2 _ (h.walk hπ)
  rw [← ha]
  unfold place
  split
  · next hc => exact hm.ready_split h hl hd hres hv (mem_cuts.2 ⟨hx, hc⟩) ⟨π₀, hπ₀⟩ hall
  · refine hm.ready_block h hl hd hres hv ⟨π₀, hπ₀⟩ hall fun hb => ?_
    rw [hb]
    show d ∉ (g.block (p.source x)).body.drop ((g.block (p.source x)).body.length + 1)
    rw [List.drop_eq_nil_of_le (Nat.le_succ _)]
    exact List.not_mem_nil

end Moved
end Plan
end CodeMotion
