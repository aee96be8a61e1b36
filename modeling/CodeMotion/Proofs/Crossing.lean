import Mathlib
import CodeMotion.Proofs.Deletion
import CodeMotion.Proofs.Matching

/-! How the runs match on the way from a block to the next one, where the moved function executes
the copies of the edge. No copy on the edge is one of a value that was passed, and no two of them
write or read the same cell against each other. -/

namespace CodeMotion.Plan

variable {V : Type} {p : Plan} {g : Func} {I : Interp V} {σ σ' : Machine V} {k x e f : Nat}
  {b : BlockId} {d i j : InstrId}
  {n m : Catalog.Entry Value InstrId} {q : Nat × Nat} {done : List (Nat × Nat)}

def BehindEdge (p : Plan) (x : Nat) (d : InstrId) : Prop :=
  ∃ home ∈ p.func.layout, d ∈ p.func.listed home ∧
    ∀ π, p.context.Path π (p.context.edge x).source → home ∈ (π ++ [x]).map p.source

/-- Two runs match on an edge, behind some of its copies. -/
structure OnEdge (p : Plan) (I : Interp V) (x : Nat) (done : List (Nat × Nat)) (σ σ' : Machine V) :
    Prop where
  calls : σ'.calls = σ.calls
  staying : p.SameStaying σ σ'
  moved : ∀ q, p.Moves q → p.BehindEdge x (p.origin q.2) →
    σ'.env (p.copyId q) = σ.env (p.origin q.2)
  due : ∀ e n w, p.context.catalog.entries[e]? = some n → p.Names e n w →
    Context.Due p.sets e (p.context.edge x).target →
    e ∉ p.sets.insert.of x ∨ (x, e) ∈ done → n.kept w σ' = p.func.yield I σ n.instr
  mem : ∀ a, σ'.mem a = σ.mem a ∨ ∃ e n, p.context.catalog.entries[e]? = some n ∧
    n.op = .store ∧ n.dest = a ∧
    e ∈ p.sets.antIn.of (p.context.edge x).target ∧ σ'.mem a = p.func.yield I σ n.instr
  avail : ∀ e n, p.context.catalog.entries[e]? = some n →
    e ∈ p.sets.availOut.of (p.context.edge x).source →
    n.kept n.instr σ = p.func.yield I σ n.instr

namespace Valid

variable (h : p.Valid)
include h

/-- A store is not anticipated together with another store to its cell, nor with a load of it. -/
theorem eq_of_anticipated (hk : k < p.context.nodes.size) (he : e ∈ p.sets.antIn.of k)
    (hf : f ∈ p.sets.antIn.of k) (hn : p.context.catalog.entries[e]? = some n)
    (hm : p.context.catalog.entries[f]? = some m) (hst : n.op = .store)
    (hcell : m.op = .store ∧ m.dest = n.dest ∨ m.op = .load ∧
      (p.func.instr m.instr).args = [n.dest]) : e = f := by
  obtain ⟨c₀, hs⟩ := h.solved
  have hstore : ∀ {e n} (i : InstrId), p.context.catalog.entries[e]? = some n → n.op = .store →
      p.func.exprAt p.context.catalog i = some e → (p.func.instr i).op = .store ∧
        (p.func.instr i).args[1]? = some n.dest := by
    intro e n i hn hst hi
    have hx := ((hs.numbered.lawful.exprAt_iff_entry hn).1 hi).2
    have hop : (p.func.instr i).op = .store := (Reader.expression_op hx).symm.trans hst
    obtain ⟨v, a, rest, hargs, hexpr⟩ := Reader.expression_store hx hop
    have ha : n.dest = a := congrArg Expression.dest hexpr
    have hargs' : (p.func.instr i).args = v :: a :: rest := hargs
    exact ⟨hop, by rw [hargs', ha]; rfl⟩
  by_contra hne
  refine hs.not_both_anticipated (hs.marked.ends k hk) hne (fun i hi => ?_) (fun i hi => ?_) he hf
  · obtain ⟨hop, hargs⟩ := hstore i hn hst hi
    refine ⟨m, hm, ?_⟩
    rcases hcell with ⟨hmst, hdest⟩ | ⟨hld, hargs'⟩
    · refine Or.inr (Or.inl ⟨hmst, hop, by rw [hdest]; exact hargs, fun hi' => hne ?_⟩)
      rw [hi, Option.some.injEq] at hi'
      exact hi'
    · refine Or.inl ⟨n.dest, by simp [Func.definition?, hop, hargs], ?_⟩
      rw [h.entry_operands hm, Func.operands, if_neg, hargs']
      · exact List.mem_singleton_self _
      · rw [hs.numbered.lawful.entry_op hm, hld]
        exact fun hx => by cases hx
  · refine ⟨n, hn, Or.inr ?_⟩
    rcases hcell with ⟨hmst, hdest⟩ | ⟨hld, hargs'⟩
    · obtain ⟨hop, hargs⟩ := hstore i hm hmst hi
      refine Or.inl ⟨hst, hop, by rw [← hdest]; exact hargs, fun hi' => hne ?_⟩
      rw [hi, Option.some.injEq] at hi'
      exact hi'.symm
    · have him := hs.numbered.lawful.instr_unique hm (by rw [hld]; exact fun hx => by cases hx) hi
      rw [him]
      exact Or.inr ⟨hst, rfl, by rw [hs.numbered.lawful.entry_op hm, hld], by rw [hargs']; rfl⟩

/-- A value that was passed is not copied on the edge. -/
theorem edge_ne_of_behind (hr : p.context.Reach (p.context.edge x).source) (hq : p.Moves q)
    (hb : p.BehindEdge x (p.origin q.2)) : q.1 ≠ x := by
  intro heq
  obtain ⟨home, hl, hd, hall⟩ := hb
  obtain ⟨π₀, hπ₀⟩ := hr
  obtain ⟨π, hπ, hno⟩ := hπ₀.exists_avoiding
  refine hno (heq ▸ h.edge_mem_of_home hq hl hd hπ ?_)
  have hmem := hall π hπ
  rw [List.map_append, List.mem_append] at hmem
  exact hmem.symm.imp List.mem_singleton.1 id

/-- What was passed on an edge was passed at the end of its source. -/
theorem behind_of_edge (hq : p.Moves q) (hb : p.BehindEdge x (p.origin q.2))
    (hx : (p.context.edge x).source = k) :
    p.Behind k (p.func.block (p.blockAt k)).body (p.origin q.2) := by
  obtain ⟨home, hl, hd, hall⟩ := hb
  subst hx
  by_cases hh : home = p.source x
  · obtain ⟨m, hm, -⟩ := h.exists_entry (mem_copies.1 hq.1).2 (mem_copies.1 hq.1).1
    obtain ⟨-, -, b, hbl, hbody⟩ := h.origin_of_entry hm
    have hbh := h.sound.block_unique hbl hl (Func.mem_listed_of_body hbody) hd
    rw [hbh, hh] at hbody
    exact Or.inr (Or.inl hbody)
  · refine Or.inr (Or.inr ⟨home, hl, hd, fun π hπ => ?_⟩)
    have hmem := hall π hπ
    rw [List.map_append, List.mem_append] at hmem
    exact hmem.resolve_right fun hs => hh (List.mem_singleton.1 hs)

/-- An available value was passed. -/
theorem behind_of_avail (hx : x < p.context.edges.size) (hq : p.Moves q)
    (ha : q.2 ∈ p.sets.availOut.of (p.context.edge x).source) : p.BehindEdge x (p.origin q.2) := by
  obtain ⟨c₀, hs⟩ := h.solved
  obtain ⟨m, hm, ho⟩ := h.exists_entry (mem_copies.1 hq.1).2 (mem_copies.1 hq.1).1
  obtain ⟨-, hop, b, hbl, hbody⟩ := h.origin_of_entry hm
  refine ⟨b, hbl, Func.mem_listed_of_body hbody, fun π hπ => ?_⟩
  obtain ⟨π₁, y, π₂, heq, hy, -, hdown, -⟩ := hs.down_of_availOut hπ x hx rfl ha
  have hylt := h.wired.source_lt y hy
  obtain ⟨i, hi, hie⟩ := (((hs.exposed _ hylt).down q.2).1 hdown).1
  have him := hs.numbered.lawful.instr_unique hm (by rw [← hop]; exact (h.op_of_moves hq).2) hie
  rw [ho, ← him] at hbody
  have hby :=
    h.sound.block_unique hbl (h.blockAt_mem hylt) (Func.mem_listed_of_body hbody)
      (Func.mem_listed_of_body hi)
  rw [heq, hby]
  exact List.mem_map_of_mem (List.mem_append_right _ List.mem_cons_self)

/-- A copy is made of every store, and of every moved value, that is to be inserted. -/
theorem mem_insert_of_on (hx : x < p.context.edges.size)
    (hn : p.context.catalog.entries[e]? = some n) {w : InstrId} (hw : p.Names e n w)
    (he : e ∈ p.context.insertOn p.sets x) : e ∈ p.sets.insert.of x := by
  refine (h.decided.insert_iff x hx e).2 ⟨he, ?_⟩
  rcases hw with hst | ⟨q, hq, rfl, -⟩
  · intro _ m hm hres
    rw [hn, Option.some.injEq] at hm
    rw [← hm, hst] at hres
    cases hres
  · exact ((h.decided.insert_iff q.1 (mem_copies.1 hq.1).1 q.2).1 (mem_copies.1 hq.1).2).2

end Valid

namespace OnEdge

/-- At the end of a block the runs match in front of the copies of an edge. -/
theorem start (hin : p.InBlock I k (p.func.block (p.blockAt k)).body [] σ σ') (h : p.Valid)
    (hk : p.context.Reach k) (hx : x < p.context.edges.size)
    (hsource : (p.context.edge x).source = k) : p.OnEdge I x [] σ σ' := by
  obtain ⟨c₀, hs⟩ := h.solved
  subst hsource
  have htarget := h.wired.target_lt x hx
  refine ⟨hin.calls, hin.staying, fun q hq hb => hin.moved q hq (h.behind_of_edge hq hb rfl),
    ?_, fun a => ?_, fun e n hn ha => hin.avail e n hn (hs.availAt_of_availOut hk ha)⟩
  · rintro e n w hn hw hdue (hno | hmem)
    · rcases hs.due_source hx hk hdue with ha | hon | ⟨h0, hdue', hkill, hup⟩
      · have hval := hin.avail e n hn (hs.availAt_of_availOut hk ha)
        rw [← hval]
        unfold Catalog.Entry.kept at hval ⊢
        split
        · next hst =>
          rw [if_pos hst] at hval
          rcases hin.mem n.dest with heq | ⟨f, m, hm, hst', hdest, hant, hval'⟩
          · exact heq
          · -- the store that is ahead is the available one
            have hfe :=
              h.eq_of_anticipated htarget (hs.antIn_of_antOut hx hant.nil) hdue.1 hm hn hst'
                (Or.inl ⟨hst, hdest.symm⟩)
            subst hfe
            rw [hn, Option.some.injEq] at hm
            subst hm
            rw [hval', hval]
        · next hst =>
          obtain ⟨q, hq, rfl, rfl⟩ := hw.resolve_left hst
          rw [hin.moved q hq (h.behind_of_edge hq (h.behind_of_avail hx hq ha) rfl),
            (h.origin_of_entry hn).1]
      · exact absurd (h.mem_insert_of_on hx hn hw hon) hno
      · exact hin.due e n w hn hw hdue' h0 (hs.untouched_of_not_kill (hs.reach_lt hk) hkill hup)
    · cases hmem
  · rcases hin.mem a with heq | ⟨e, n, hn, hst, hdest, hant, hval⟩
    · exact Or.inl heq
    · exact Or.inr ⟨e, n, hn, hst, hdest, hs.antIn_of_antOut hx hant.nil, hval⟩

variable (h : p.Valid) (hm : p.Moved g) (hfix : p.func.FixedAddresses)
include h hm hfix

omit hm hfix in
/-- The operands of a copy have the values that the operands of the expression have. -/
theorem value_operand (ho : p.OnEdge I x done σ σ') (hq : (x, e) ∈ p.copies) {v : Value}
    (hv : v ∈ p.func.operands (p.origin e)) : I.value σ' (p.rename v) = I.value σ v := by
  obtain ⟨n, hn, horigin⟩ := h.exists_entry (mem_copies.1 hq).2 (mem_copies.1 hq).1
  refine h.value_rename ho.staying fun d hd => ?_
  rw [hd, horigin, ← h.entry_operands hn] at hv
  obtain ⟨π₀, hπ₀⟩ := h.reach_source hq
  obtain ⟨home, hl, hdl, -⟩ := h.operand_mem_path hq hn hv hπ₀
  refine ⟨h.sound.listed_le hl hdl, fun r hr ho' => ?_⟩
  rw [← ho'] at hdl ⊢
  refine ho.moved r hr ⟨home, hl, hdl, fun π hπ => ?_⟩
  obtain ⟨home', hl', hdl', hmem⟩ := h.operand_mem_path hq hn (ho' ▸ hv) hπ
  rwa [h.sound.block_unique hl hl' hdl hdl']

/-- A copy yields what its expression yields in the original. -/
theorem yield_copy (ho : p.OnEdge I x done σ σ') (hq : (x, e) ∈ p.copies) :
    g.yield I σ' (p.copyId (x, e)) = p.func.yield I σ (p.origin e) := by
  obtain ⟨hx, he⟩ := mem_copies.1 hq
  obtain ⟨n, hn, horigin⟩ := h.exists_entry he hx
  obtain ⟨c₀, hs⟩ := h.solved
  obtain ⟨-, hop, b, hb, hbody⟩ := h.origin_of_entry hn
  obtain ⟨hop', hargs, -⟩ := hm.copy _ hq
  have hmov := (hs.numbered.lawful.entry e n hn).2.1
  rw [← horigin] at hmov
  refine yield_eq hop' hargs (fun hal => ?_) (fun v hv => ho.value_operand h hq hv) fun hld => ?_
  · rw [hal] at hmov
    cases hmov
  · obtain ⟨a, ha⟩ := h.load_address hb hbody hld
    refine ⟨a, ha, ?_⟩
    rw [h.rename_address fun d hd => hfix _ hb _ hbody d (Or.inl ⟨hld, by rw [ha, hd]; rfl⟩)]
    rcases ho.mem a with heq | ⟨f, m, hm', hst, hdest, hant, -⟩
    · exact heq
    · -- a load is not moved to where a store to its cell is anticipated
      obtain ⟨⟨π, hπ⟩, hlater, -⟩ := (hs.mem_insertOn hx).1 (h.mem_insertOn hx he)
      have hant' := (hs.ant_of_later hπ x hx rfl hlater).1
      have hfe := h.eq_of_anticipated (h.wired.target_lt x hx) hant hant' hm' hn hst
        (Or.inr ⟨hop.symm.trans hld, by rw [← horigin, ha, hdest]⟩)
      subst hfe
      rw [hm', Option.some.injEq] at hn
      subst hn
      rw [hop, hst] at hld
      cases hld

/-- A copied store writes the cell of its expression. -/
theorem cell_copy (hq : (x, e) ∈ p.copies) (hn : p.context.catalog.entries[e]? = some n)
    (hst : n.op = .store) : (g.instr (p.copyId (x, e))).args.getD 1 (.const 0) = n.dest := by
  obtain ⟨c₀, hs⟩ := h.solved
  obtain ⟨horigin, hop, b, hb, hbody⟩ := h.origin_of_entry hn
  obtain ⟨v, -, hall⟩ := h.store_args hn hst
  have hargs := hall b hb _ hbody (by rw [horigin]; exact hs.numbered.lawful.exprAt_instr hn)
  have hren : p.rename n.dest = n.dest := h.rename_address fun d hd =>
    hfix _ hb _ hbody d (Or.inr ⟨hop.trans hst, by rw [hargs, hd]; rfl⟩)
  rw [(hm.copy _ hq).2.1, hargs]
  exact hren

/-- Past a copy. -/
theorem copy (ho : p.OnEdge I x done σ σ') (hq : (x, e) ∈ p.copies) :
    p.OnEdge I x (done ++ [(x, e)]) σ (g.exec I σ' (p.copyId (x, e))) := by
  obtain ⟨hx, he⟩ := mem_copies.1 hq
  obtain ⟨n, hn, horigin⟩ := h.exists_entry he hx
  obtain ⟨c₀, hs⟩ := h.solved
  have hop' := (hm.copy _ hq).1
  rw [(h.origin_of_entry hn).2.1] at hop'
  have hyield := ho.yield_copy h hm hfix hq
  rw [horigin] at hyield
  obtain ⟨⟨π, hπ⟩, hlater, -⟩ := (hs.mem_insertOn hx).1 (h.mem_insertOn hx he)
  have hant := (hs.ant_of_later hπ x hx rfl hlater).1
  have hmov := (hs.numbered.lawful.entry e n hn).2.1
  rw [hs.numbered.lawful.entry_op hn] at hmov
  have hcall : (g.instr (p.copyId (x, e))).op ≠ .call := fun hc => by
    rw [← hop', hc] at hmov
    cases hmov
  have haddr := cell_copy h hm hfix hq hn
  have hother : ∀ r, r ∈ p.copies → r ≠ (x, e) → p.copyId r ≠ p.copyId (x, e) :=
    fun r hr hne heq => hne (copyId_inj hr heq)
  refine ⟨?_, fun d hd hno => ?_, fun r hr hbehind => ?_, fun f m w hm' hw hdue hdone => ?_,
    fun a => ?_, ho.avail⟩
  · rw [Func.exec_calls_of_ne hcall]
    exact ho.calls
  · have hne : d ≠ p.copyId (x, e) :=
      fun hdc => absurd (p.lt_copyId (x, e)) (Nat.not_lt_of_le (hdc ▸ hd))
    rw [Func.exec_env_of_ne hne]
    exact ho.staying d hd hno
  · have hne := h.edge_ne_of_behind ⟨π, hπ⟩ hr hbehind
    rw [Func.exec_env_of_ne (hother r hr.1 fun heq => hne (congrArg Prod.fst heq))]
    exact ho.moved r hr hbehind
  · by_cases hfe : f = e
    · subst hfe
      rw [hn, Option.some.injEq] at hm'
      subst hm'
      unfold Catalog.Entry.kept
      split
      · next hst =>
        rw [Func.exec_store (hop'.trans hst), haddr hst, hyield]
        exact Function.update_self _ _ _
      · next hst =>
        obtain ⟨r, hr, hre, rfl⟩ := hw.resolve_left hst
        have hrq : (x, f) = r := h.copy_unique hr hq hre.symm
        rw [← hrq, Func.exec_value (by rw [hop']; exact hst) hcall, hyield]
        exact Function.update_self _ _ _
    · have hdone' : f ∉ p.sets.insert.of x ∨ (x, f) ∈ done := by
        refine hdone.imp id fun hmem => ?_
        rcases List.mem_append.1 hmem with hmem | hmem
        · exact hmem
        · exact absurd (congrArg Prod.snd (List.mem_singleton.1 hmem)) hfe
      rw [← ho.due f m w hm' hw hdue hdone']
      unfold Catalog.Entry.kept
      split
      · next hst =>
        refine Func.exec_mem_of_ne fun hst' heq => hfe ?_
        rw [haddr (hop'.symm.trans hst')] at heq
        exact h.eq_of_anticipated (h.wired.target_lt x hx) hdue.1 hant hm' hn hst
          (Or.inl ⟨hop'.symm.trans hst', heq⟩)
      · next hst =>
        obtain ⟨r, hr, hrf, rfl⟩ := hw.resolve_left hst
        exact Func.exec_env_of_ne (hother r hr.1 fun heq => hfe (by rw [← hrf, heq]))
  · by_cases hst : n.op = .store ∧ n.dest = a
    · obtain ⟨hst, rfl⟩ := hst
      refine Or.inr ⟨e, n, hn, hst, rfl, hant, ?_⟩
      rw [Func.exec_store (hop'.trans hst), haddr hst, hyield]
      exact Function.update_self _ _ _
    · rw [Func.exec_mem_of_ne fun hst' heq => hst ⟨hop'.symm.trans hst',
        by rw [← haddr (hop'.symm.trans hst')]; exact heq⟩]
      exact ho.mem a

/-- Past all copies of an edge. -/
theorem foldl_copies (ho : p.OnEdge I x [] σ σ') (hx : x < p.context.edges.size) :
    p.OnEdge I x (p.copiesOn x) σ (((p.copiesOn x).map p.copyId).foldl (g.exec I) σ') := by
  have hgen : ∀ l done τ', p.copiesOn x = done ++ l → p.OnEdge I x done σ τ' →
      p.OnEdge I x (p.copiesOn x) σ ((l.map p.copyId).foldl (g.exec I) τ') := by
    intro l
    induction l with
    | nil =>
      intro done τ' heq hon
      rw [heq, List.append_nil]
      exact hon
    | cons q l ih =>
      intro done τ' heq hon
      have hq : q ∈ p.copiesOn x := by
        rw [heq]
        exact List.mem_append_right _ List.mem_cons_self
      obtain ⟨rfl, hqe⟩ := mem_copiesOn.1 hq
      exact ih (done ++ [q]) _ (by rw [heq]; simp) (hon.copy h hm hfix (mem_copies.2 ⟨hx, hqe⟩))
  exact hgen _ [] σ' rfl ho

end OnEdge

namespace Valid

variable (h : p.Valid)
include h

/-- Control comes to a block from different places on different edges. -/
theorem place_inj_of_target {y : Nat} (hx : x < p.context.edges.size)
    (hy : y < p.context.edges.size) (ht : p.target y = p.target x) (hp : p.place y = p.place x) :
    y = x := by
  cases hc : p.isCut x with
  | true => exact h.place_eq_splitId (mem_cuts.2 ⟨hx, hc⟩) hy (by rw [hp, place, if_pos hc])
  | false =>
    have hxs : p.place x = p.source x := by rw [place, hc, if_neg Bool.false_ne_true]
    rw [hxs] at hp
    cases hcy : p.isCut y with
    | true =>
      rw [place, if_pos hcy] at hp
      exact absurd hp.symm (h.ne_splitId (h.source_mem hx))
    | false =>
      rw [place, hcy, if_neg Bool.false_ne_true] at hp
      exact h.edge_inj hy hx hp ht

/-- The operand that a phi takes on an edge was passed there. -/
theorem behind_of_phi (hx : x < p.context.edges.size)
    (hr : p.context.Reach (p.context.edge x).source) (hi : i ∈ (p.func.block (p.target x)).phis)
    (hz : (Value.instr d, p.source x) ∈ (p.func.instr i).args.zip (p.func.instr i).incoming) :
    p.BehindEdge x d := by
  obtain ⟨π₀, hπ₀⟩ := hr
  have hl := h.target_mem hx
  have hil : i ∈ p.func.listed (p.target x) := List.mem_append_left _ (List.mem_append_left _ hi)
  have hready :=
    (h.sound.supplied _ (h.walk (.step hπ₀ hx)).reachable).phis i hi d _ hz (h.walk hπ₀).reachable
  obtain ⟨home, hhome, hd, hcase⟩ :=
    h.sound.exists_home hready (h.sound.results _ hl i hil d (List.of_mem_zip hz).1)
  refine ⟨home, hhome, hd, fun π hπ => ?_⟩
  rw [List.map_append, List.mem_append]
  rcases hcase with ⟨rfl, -⟩ | ⟨-, hprec⟩
  · exact Or.inr (List.mem_singleton_self _)
  · exact Or.inl (hprec _ (h.walk hπ))

end Valid

/-- A phi takes the same value in both runs. -/
theorem OnEdge.merge (ho : p.OnEdge I x done σ σ') (h : p.Valid) (hm : p.Moved g)
    (hx : x < p.context.edges.size) (hr : p.context.Reach (p.context.edge x).source)
    (hi : i ∈ (p.func.block (p.target x)).phis) :
    g.merge I (some (p.place x)) σ' i = p.func.merge I (some (p.source x)) σ i := by
  have hl := h.target_mem hx
  have hil : i ∈ p.func.listed (p.target x) := List.mem_append_left _ (List.mem_append_left _ hi)
  have hfit := h.sound.fitting _ hl
  unfold Func.merge
  rw [(hm.old _ hl i hil).2.1, hm.incoming _ hl i hi, List.zip_map, List.find?_map]
  have hfind : ((p.func.instr i).args.zip (p.func.instr i).incoming).find?
      ((fun q => some q.2 == some (p.place x)) ∘ Prod.map p.rename
        (p.reroute p.cuts (p.target x))) =
      ((p.func.instr i).args.zip (p.func.instr i).incoming).find? fun q =>
        some q.2 == some (p.source x) := by
    refine List.find?_congr ?_
    rintro ⟨v, a⟩ hq
    have hpred := (hfit.phis i hi).2.2 a (List.of_mem_zip hq).2
    obtain ⟨j, hj, rfl⟩ := h.exists_node (h.sound.preds _ hl a hpred)
    obtain ⟨y, hy, hsource, htarget⟩ := h.exists_edge hj (hfit.preds _ hpred).2
    have hsy : p.blockAt j = p.source y := by rw [source, hsource]
    have hplace : p.place y = p.place x ↔ p.source y = p.source x := by
      constructor
      · exact fun hp => by rw [h.place_inj_of_target hx hy htarget hp]
      · exact fun hs => by rw [h.edge_inj hy hx hs htarget]
    rw [Bool.eq_iff_iff]
    simp only [Function.comp_apply, Prod.map_apply, beq_iff_eq, Option.some.injEq]
    rw [hsy, ← htarget, h.reroute_edge hy, hplace]
  rw [hfind]
  cases hf : ((p.func.instr i).args.zip (p.func.instr i).incoming).find? fun q =>
    some q.2 == some (p.source x) with
  | none => rfl
  | some q =>
    obtain ⟨v, a⟩ := q
    have ha : a = p.source x := by simpa using List.find?_some hf
    have hz := List.mem_of_find?_eq_some hf
    rw [ha] at hz
    refine h.value_rename ho.staying fun d hd => ?_
    rw [hd] at hz
    have hbehind := h.behind_of_phi hx hr hi hz
    obtain ⟨home, hhome, hdl, -⟩ := id hbehind
    exact ⟨h.sound.listed_le hhome hdl, fun q hq hqd =>
      by rw [← hqd] at hbehind ⊢; exact ho.moved q hq hbehind⟩

theorem Valid.copyId_not_phi (h : p.Valid) (hb : b ∈ p.func.layout) (q : Nat × Nat) :
    p.copyId q ∉ (p.func.block b).phis := fun hq =>
  absurd (p.lt_copyId q)
    (Nat.not_lt_of_le (h.sound.listed_le hb (List.mem_append_left _ (List.mem_append_left _ hq))))

theorem Valid.entry_not_phi (h : p.Valid) (hb : b ∈ p.func.layout)
    (hn : p.context.catalog.entries[e]? = some n) : n.instr ∉ (p.func.block b).phis := by
  intro hphi
  obtain ⟨c₀, hs⟩ := h.solved
  have hmov := (hs.numbered.lawful.entry e n hn).2.1
  rw [((h.sound.fitting b hb).phis _ hphi).1] at hmov
  cases hmov

/-- The runs match in front of the body of the next block. -/
theorem OnEdge.enter (ho : p.OnEdge I x (p.copiesOn x) σ σ') (h : p.Valid) (hm : p.Moved g)
    (hx : x < p.context.edges.size) (hr : p.context.Reach (p.context.edge x).source) :
    p.InBlock I (p.context.edge x).target [] (p.func.block (p.target x)).body
      (p.func.enter I (p.target x) (some (p.source x)) σ)
      (g.enter I (p.target x) (some (p.place x)) σ') := by
  obtain ⟨c₀, hs⟩ := h.solved
  have hl := h.target_mem hx
  have hlt := h.wired.target_lt x hx
  have hrt := Context.reach_target hx hr
  have hphis := hm.phis (p.target x)
  refine ⟨ho.calls, fun d hd hno => ?_, fun q hq hb => ?_, fun e n w hn hw hdue _ hun => ?_,
    fun a => ?_, fun e n hn ha => ?_⟩
  · simp only [Func.enter, hphis]
    split
    · next hphi => exact ho.merge h hm hx hr hphi
    · exact ho.staying d hd hno
  · obtain ⟨m, hm', horigin⟩ := h.exists_entry (mem_copies.1 hq.1).2 (mem_copies.1 hq.1).1
    have hnot := h.entry_not_phi hl hm'
    rw [← horigin] at hnot
    simp only [Func.enter, hphis, if_neg (h.copyId_not_phi hl q), if_neg hnot]
    refine ho.moved q hq ?_
    rcases hb with hphi | hpre | ⟨home, hhome, hdl, hall⟩
    · exact absurd hphi hnot
    · cases hpre
    · exact ⟨home, hhome, hdl, fun π hπ => hall _ (.step hπ hx)⟩
  · have hno : ∀ j ∈ (p.func.block (p.target x)).phis, ¬ p.func.Kills p.context.catalog false j e :=
      fun j hj =>
      hun.2 j (List.mem_append_left _ hj)
    have hdone : e ∉ p.sets.insert.of x ∨ (x, e) ∈ p.copiesOn x := by
      by_cases he : e ∈ p.sets.insert.of x
      · exact Or.inr (mem_copiesOn.2 ⟨rfl, he⟩)
      · exact Or.inl he
    rw [h.yield_enter hn hl hno, ← ho.due e n w hn hw hdue hdone]
    unfold Catalog.Entry.kept
    split
    · rfl
    · next hst =>
      obtain ⟨q, -, -, rfl⟩ := hw.resolve_left hst
      simp only [Func.enter, hphis, if_neg (h.copyId_not_phi hl q)]
  · rcases ho.mem a with heq | ⟨e, n, hn, hst, hdest, hant, hval⟩
    · exact Or.inl heq
    · obtain ⟨hno, hat⟩ := hs.antAt_of_antIn hlt hant
      refine Or.inr ⟨e, n, hn, hst, hdest, hat, ?_⟩
      rw [h.yield_enter hn hl fun j hj hkill => hno j hj hkill.of_false]
      exact hval
  · rcases ha with ⟨hin, hno⟩ | ⟨⟨j, hj, -⟩, -⟩
    · have hout := ((hs.mem_availIn hrt (h.target_ne_zero hx)).1 hin).2 x hx rfl
      rw [h.yield_enter hn hl fun j hj => hno j (List.mem_append_left _ hj), ← ho.avail e n hn hout]
      unfold Catalog.Entry.kept
      split
      · rfl
      · simp only [Func.enter, if_neg (h.entry_not_phi hl hn)]
    · cases hj

/-- The runs match in front of the body of the entry. -/
theorem InBlock.start (h : p.Valid) (hm : p.Moved g) (h0 : 0 < p.context.nodes.size)
    (σ : Machine V) :
    p.InBlock I 0 [] (p.func.block (p.blockAt 0)).body (p.func.enter I (p.blockAt 0) none σ)
      (g.enter I (p.blockAt 0) none σ) := by
  obtain ⟨c₀, hs⟩ := h.solved
  have hmerge : ∀ (fn : Func) i, fn.merge I none σ i = I.absent := by
    intro fn i
    unfold Func.merge
    have hnone :
        ((fn.instr i).args.zip (fn.instr i).incoming).find? (fun q => some q.2 == none) = none :=
      List.find?_eq_none.2 fun q _ => by simp
    rw [hnone]
  refine ⟨rfl, fun d _ _ => ?_, fun q hq hb => ?_, fun e n w _ _ _ hk => absurd rfl hk,
    fun a => Or.inl rfl, fun e n hn ha => ?_⟩
  · simp only [Func.enter, hm.phis, hmerge]
  · rcases hb with hphi | hpre | ⟨home, -, -, hall⟩
    · obtain ⟨m, hm', horigin⟩ := h.exists_entry (mem_copies.1 hq.1).2 (mem_copies.1 hq.1).1
      rw [horigin] at hphi
      exact absurd hphi (h.entry_not_phi (h.blockAt_mem h0) hm')
    · cases hpre
    · cases hall [] (.entry h0)
  · rcases ha with ⟨hin, -⟩ | ⟨⟨j, hj, -⟩, -⟩
    · exact absurd hin (hs.not_mem_availIn_zero h0)
    · cases hj

end CodeMotion.Plan
