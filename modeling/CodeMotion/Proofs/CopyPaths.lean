import Mathlib
import CodeMotion.Proofs.Removal

/-! Where the edges with copies lie. The edge that gets the copy of a value is on every path to the
block of the value, and the definitions of the operands of a copied expression are on every path to
its edge. -/

namespace CodeMotion

theorem Func.Occurs.split {fn : Func} {cat : Catalog Value InstrId} {l : List InstrId} {e : Nat}
    (h : fn.Occurs cat l e) :
    ∃ i rest, l = fn.before cat l e ++ i :: rest ∧ fn.exprAt cat i = some e := by
  have hsplit := List.takeWhile_append_dropWhile (p := fun j => fn.exprAt cat j != some e) (l := l)
  cases hd : l.dropWhile fun j => fn.exprAt cat j != some e with
  | nil =>
    obtain ⟨i, hi, hie⟩ := h
    have := List.dropWhile_eq_nil_iff.1 hd i hi
    simp [hie] at this
  | cons i rest =>
    have hhead := List.head?_dropWhile_not (fun j => fn.exprAt cat j != some e) l
    rw [hd] at hsplit hhead
    exact ⟨i, rest, hsplit.symm, by simpa using hhead⟩

namespace Context

variable {fn : Func} {c c₀ : Context} {s : Sets} {k x e : Nat} {π ρ : List Nat}

namespace Solved

variable (h : Solved fn c₀ c s)
include h

/-- From a node at which an expression is anticipated a way leads to its next occurrence, and
nothing on it disturbs the expression. -/
theorem exists_occurrence (hk : c.Ends k) (he : e ∈ s.antIn.of k) :
    ∃ ρ j, (∀ π, c.Path π k → c.Path (π ++ ρ) j) ∧
    e ∈ s.up.of j ∧ ∀ x ∈ ρ, e ∉ s.up.of (c.edge x).source ∧ e ∉ s.kill.of (c.edge x).source := by
  induction hk with
  | @pinned k hk hp =>
    have hup := ((h.mem_antIn hk).1 he).resolve_right fun ho => h.not_mem_antOut_pinned hk hp ho.1
    exact ⟨[], k, fun π hπ => by simpa using hπ, hup, by simp⟩
  | @step x hx _ ih =>
    by_cases hup : e ∈ s.up.of (c.edge x).source
    · exact ⟨[], _, fun π hπ => by simpa using hπ, hup, by simp⟩
    · obtain ⟨ho, hkill⟩ := ((h.mem_antIn (h.wired.source_lt x hx)).1 he).resolve_left hup
      obtain ⟨ρ, j, hpath, hj, hrest⟩ := ih (h.antIn_of_antOut hx ho)
      refine ⟨x :: ρ, j, fun π hπ => ?_, hj, ?_⟩
      · rw [List.append_cons]
        exact hpath _ (.step hπ hx)
      · intro y hy
        rcases List.mem_cons.1 hy with rfl | hy
        · exact ⟨hup, hkill⟩
        · exact hrest y hy

end Solved
end Context

namespace Plan

variable {p : Plan} {k x e : Nat} {q : Nat × Nat} {π : List Nat} {b : BlockId} {d i : InstrId}

/-- A result is a definition that disturbs the expressions with this operand. -/
theorem kills_of_operand {n : Catalog.Entry Value InstrId}
    (hn : p.context.catalog.entries[e]? = some n)
    (hd : .instr d ∈ (n.expression p.func.reader).operands)
    (hres : (p.func.instr d).op.hasResult = true) : p.func.Kills p.context.catalog true d e := by
  have hne : (p.func.instr d).op ≠ .store := fun hs => by
    rw [hs] at hres
    cases hres
  exact ⟨n, hn, Or.inl ⟨.instr d, by rw [Scope.definition?_of_ne_store hne, if_pos hres], hd⟩⟩

namespace Valid

variable (h : p.Valid)
include h

/-- The edge of a copied value is on every path to the block of the value. -/
theorem edge_mem_path (hq : p.Moves q) (hk : k < p.context.nodes.size)
    (ho : p.origin q.2 ∈ (p.func.block (p.blockAt k)).body) (hπ : p.context.Path π k) :
    q.1 ∈ π := by
  obtain ⟨hx, he⟩ := mem_copies.1 hq.1
  obtain ⟨n, hn, horigin⟩ := h.exists_entry he hx
  obtain ⟨c₀, hs⟩ := h.solved
  obtain ⟨hon, hcarried⟩ := (h.decided.insert_iff _ hx _).1 he
  have hop := (h.origin_of_entry hn).2.1
  have hres : n.op.hasResult = true := by
    rw [← hop]
    exact hq.2
  obtain ⟨⟨y, -, hunique⟩, j, hj, hdel⟩ := hcarried h.single n hn hres
  have hhome : ∀ j < p.context.nodes.size,
      p.func.Occurs p.context.catalog (p.context.body p.func j) q.2 → j = k :=
    fun j hj hocc => h.node_unique hn hres hj hk hocc ⟨p.origin q.2, ho, by
      rw [horigin]
      exact hs.numbered.lawful.exprAt_instr hn⟩
  obtain ⟨h0, -, hup, hlater⟩ := (hs.mem_deleteIn hj).1 hdel
  have hjk := hhome j hj (((hs.exposed j hj).up q.2).1 hup).1
  subst hjk
  obtain ⟨π', hpre, hpath, hfirst⟩ := hπ.first
  have hdue : Context.Due p.sets q.2 j := ⟨(hs.mem_antIn hj).2 (Or.inl hup), hlater⟩
  obtain ⟨z, hz, hins⟩ :=
    hs.exists_insertion hpath (fun z hz hdown =>
      hfirst z hz (hhome _ (h.wired.source_lt z (hpath.edge_lt z hz))
    (((hs.exposed _ (h.wired.source_lt z (hpath.edge_lt z hz))).down q.2).1 hdown).1))
      (Or.inr ⟨h0, hdue⟩)
  have h1 := hunique z ⟨hpath.edge_lt z hz, hins⟩
  have h2 := hunique q.1 ⟨hx, hon⟩
  rw [h2, ← h1]
  exact hpre.subset hz

/-- The operands of an exposed occurrence are defined in blocks in front of its own. -/
theorem exists_home_of_up (hk : p.context.Reach k) (hup : e ∈ p.sets.up.of k)
    {n : Catalog.Entry Value InstrId} (hn : p.context.catalog.entries[e]? = some n)
    (hd : .instr d ∈ (n.expression p.func.reader).operands) :
    ∃ home ∈ p.func.layout, d ∈ p.func.listed home ∧ p.func.Kills p.context.catalog true d e ∧
      p.func.Precedes home (p.blockAt k) := by
  obtain ⟨c₀, hs⟩ := h.solved
  have hlt := hs.reach_lt hk
  obtain ⟨hocc, hcalm⟩ := ((hs.exposed k hlt).up e).1 hup
  obtain ⟨i, rest, hbody, hie⟩ := hocc.split
  obtain ⟨π, hπ⟩ := hk
  have hreach := (h.walk hπ).reachable
  have hlist : (p.func.block (p.blockAt k)).body =
      p.func.before p.context.catalog (p.context.body p.func k) e ++ i :: rest :=
    hbody
  have hil : i ∈ p.func.listed (p.blockAt k) := by simp [Func.listed, hlist]
  have harg : .instr d ∈ (p.func.instr i).args := by
    have hx := ((hs.numbered.lawful.exprAt_iff_entry hn).1 hie).2
    rw [Func.operands_of_expression hx] at hd
    exact Func.mem_args_of_operands hd
  have hres := h.sound.results _ (h.blockAt_mem hlt) i hil d harg
  have hkill := kills_of_operand hn hd hres
  have hready :=
    (h.sound.supplied _ hreach).uses i (p.func.before p.context.catalog
      (p.context.body p.func k) e).length
    (by rw [hlist]; simp) d harg
  obtain ⟨home, hl, hdl, ⟨rfl, hdef⟩ | ⟨-, hpre⟩⟩ := h.sound.exists_home hready hres
  · -- a definition in the block itself would disturb the occurrence
    refine absurd hkill (hcalm d (List.mem_append.2 (hdef.imp id fun hdb => ?_)))
    rw [hlist, List.take_left] at hdb
    exact hdb
  · exact ⟨home, hl, hdl, hkill, hpre⟩

/-- The definition of an operand of a copied expression is in a block that every path to the copy
leaves. -/
theorem operand_mem_path (hq : q ∈ p.copies) {n : Catalog.Entry Value InstrId}
    (hn : p.context.catalog.entries[q.2]? = some n)
    (hd : .instr d ∈ (n.expression p.func.reader).operands)
    (hπ : p.context.Path π (p.context.edge q.1).source) :
    ∃ home ∈ p.func.layout, d ∈ p.func.listed home ∧ home ∈ (π ++ [q.1]).map p.source := by
  obtain ⟨hx, he⟩ := mem_copies.1 hq
  obtain ⟨c₀, hs⟩ := h.solved
  obtain ⟨hr, hlater, -⟩ := (hs.mem_insertOn hx).1 (h.mem_insertOn hx he)
  have hant := (hs.ant_of_later hπ q.1 hx rfl hlater).1
  obtain ⟨ρ, j, hpath, hup, hcalm⟩ :=
    hs.exists_occurrence (hs.marked.ends _ (h.wired.target_lt _ hx)) hant
  have hway := hpath _ (.step hπ hx)
  obtain ⟨home, hl, hdl, hkill, hpre⟩ := h.exists_home_of_up ⟨_, hway⟩ hup hn hd
  refine ⟨home, hl, hdl, ?_⟩
  have hmem := hpre _ (h.walk hway)
  rw [List.map_append, List.mem_append] at hmem
  refine hmem.resolve_right fun hρ => ?_
  obtain ⟨y, hy, rfl⟩ := List.mem_map.1 hρ
  have hylt := hway.edge_lt y (List.mem_append_right _ hy)
  exact (hcalm y hy).2 (((hs.exposed _ (h.wired.source_lt y hylt)).kill q.2).2 ⟨d, hdl, hkill⟩)

end Valid
end Plan
end CodeMotion
