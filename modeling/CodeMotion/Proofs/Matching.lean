import Mathlib
import CodeMotion.Proofs.Keeping

/-! How the run of a function and the run of the moved function match inside of a block. Values that
stay have the same names and the same values. A moved value has the value of its copy once its own
instruction was passed, and before that the copy has the value that is due. Memory may be ahead of
the original in cells that a store will write before they are read. -/

namespace CodeMotion

/-- All addresses of loads and stores are parameters, globals, constants or allocas. -/
def Func.FixedAddresses (fn : Func) : Prop := ∀ b ∈ fn.layout, ∀ i ∈ (fn.block b).body, ∀ d,
  (fn.instr i).op = .load ∧ (fn.instr i).args[0]? = some (.instr d) ∨ (fn.instr i).op = .store ∧
    (fn.instr i).args[1]? = some (.instr d) →
    (fn.instr d).op = .alloca

namespace Plan

variable {V : Type} {p : Plan} {g : Func} {I : Interp V} {σ σ' : Machine V} {k x e : Nat}
  {b : BlockId} {d i j : InstrId}
  {n : Catalog.Entry Value InstrId} {q : Nat × Nat} {pre post : List InstrId}

def Behind (p : Plan) (k : Nat) (pre : List InstrId) (d : InstrId) : Prop :=
  d ∈ (p.func.block (p.blockAt k)).phis ∨ d ∈ pre ∨
    ∃ home ∈ p.func.layout, d ∈ p.func.listed home ∧ ∀ π, p.context.Path π k → home ∈ π.map p.source

/-- The name under which an expression is kept after the motion; a store needs none. -/
def Names (p : Plan) (e : Nat) (n : Catalog.Entry Value InstrId) (w : InstrId) : Prop :=
  n.op = .store ∨ ∃ q, p.Moves q ∧ q.2 = e ∧ w = p.copyId q

def SameStaying (p : Plan) (σ σ' : Machine V) : Prop :=
  ∀ d : Nat, d ≤ p.func.instrs.size → (∀ q, p.Moves q → p.origin q.2 ≠ d) → σ'.env d = σ.env d

structure InBlock (p : Plan) (I : Interp V) (k : Nat) (pre post : List InstrId) (σ σ' : Machine V) :
    Prop where
  calls : σ'.calls = σ.calls
  staying : p.SameStaying σ σ'
  moved : ∀ q, p.Moves q → p.Behind k pre (p.origin q.2) →
    σ'.env (p.copyId q) = σ.env (p.origin q.2)
  due : ∀ e n w, p.context.catalog.entries[e]? = some n → p.Names e n w →
    Context.Due p.sets e k → k ≠ 0 →
    Context.Untouched p.func p.context k pre e → n.kept w σ' = p.func.yield I σ n.instr
  mem : ∀ a, σ'.mem a = σ.mem a ∨ ∃ e n, p.context.catalog.entries[e]? = some n ∧
    n.op = .store ∧ n.dest = a ∧
    Context.AntAt p.func p.context p.sets k post e ∧ σ'.mem a = p.func.yield I σ n.instr
  avail : ∀ e n, p.context.catalog.entries[e]? = some n →
    Context.AvailAt p.func p.context p.sets k pre e →
    n.kept n.instr σ = p.func.yield I σ n.instr

namespace Valid

variable (h : p.Valid)
include h

theorem value_rename {v : Value} (hs : p.SameStaying σ σ')
    (hv : ∀ d : Nat, v = .instr d → d ≤ p.func.instrs.size ∧ ∀ q, p.Moves q → p.origin q.2 = d →
      σ'.env (p.copyId q) = σ.env d) :
    I.value σ' (p.rename v) = I.value σ v := by
  by_cases hm : ∃ q, p.Moves q ∧ v = .instr (p.origin q.2)
  · obtain ⟨q, hq, rfl⟩ := hm
    rw [h.rename_moved hq]
    exact (hv _ rfl).2 q hq rfl
  · push Not at hm
    rw [h.rename_unmoved hm]
    refine Interp.value_congr fun d hd => ?_
    exact hs d (hv d hd).1 fun q hq ho => hm q hq (by rw [hd, ho])

theorem op_of_moves (hq : p.Moves q) :
    (p.func.instr (p.origin q.2)).op.isMovable = true ∧
      (p.func.instr (p.origin q.2)).op ≠ .store := by
  obtain ⟨m, hm, ho⟩ := h.exists_entry (mem_copies.1 hq.1).2 (mem_copies.1 hq.1).1
  obtain ⟨c₀, hs⟩ := h.solved
  have hmov := (hs.numbered.lawful.entry q.2 m hm).2.1
  rw [← ho] at hmov
  refine ⟨hmov, fun hst => ?_⟩
  have hres := hq.2
  rw [hst] at hres
  cases hres

/-- An address that is not computed keeps its name. -/
theorem rename_address {a : Value} (ha : ∀ d, a = .instr d → (p.func.instr d).op = .alloca) :
    p.rename a = a := by
  refine h.rename_unmoved fun q hq heq => ?_
  have hmov := (h.op_of_moves hq).1
  rw [ha _ heq] at hmov
  cases hmov

/-- A moved value is taken away from its place. -/
theorem origin_gone (hq : p.Moves q) : p.origin q.2 ∈ p.gone := by
  obtain ⟨hx, he⟩ := mem_copies.1 hq.1
  obtain ⟨n, hn, ho⟩ := h.exists_entry he hx
  obtain ⟨c₀, hs⟩ := h.solved
  obtain ⟨-, hcarried⟩ := (h.decided.insert_iff _ hx _).1 he
  have hop := (h.origin_of_entry hn).2.1
  obtain ⟨-, k, hk, hdel⟩ := hcarried h.single n hn (by rw [← hop]; exact hq.2)
  have hdel' : (k, q.2) ∈ p.deletions :=
    h.mem_deletions_iff.2 ⟨hk, (h.decided.delete_iff k hk q.2).2 ⟨hdel, hcarried⟩⟩
  have hsite :=
    hs.numbered.lawful.instr_unique hn (by rw [← hop]; exact (h.op_of_moves hq).2)
      (h.site_spec hdel').2.2
  rw [ho, ← hsite]
  exact List.mem_map_of_mem hdel'

/-- The site of a deletion is the first occurrence in its block. -/
theorem not_occurs_before_site (hq : (k, e) ∈ p.deletions)
    (hbody : (p.func.block (p.blockAt k)).body = pre ++ p.site (k, e) :: post) :
    ¬ p.func.Occurs p.context.catalog pre e := by
  rintro ⟨j, hj, hje⟩
  obtain ⟨hk, -⟩ := h.mem_deletions_iff.1 hq
  obtain ⟨c₀, hs⟩ := h.solved
  have hnd : (pre ++ p.site (k, e) :: post).Nodup := by
    rw [← hbody]
    exact h.assembled.nodup_body (h.blockAt_mem hk)
  have hfind : (p.context.body p.func k).find? (fun i => p.func.exprAt p.context.catalog i ==
      some e) = some (p.site (k, e)) := by
    rw [← (hs.exposed k hk).sites e]
    exact (h.site_spec hq).1
  have hb : p.context.body p.func k = pre ++ p.site (k, e) :: post := hbody
  rw [hb, List.find?_append] at hfind
  cases hf : pre.find? (fun i => p.func.exprAt p.context.catalog i == some e) with
  | none =>
    have := List.find?_eq_none.1 hf j hj
    simp [hje] at this
  | some l =>
    rw [hf, Option.some_or, Option.some.injEq] at hfind
    have hl := List.mem_of_find?_eq_some hf
    rw [hfind] at hl
    exact (List.nodup_append.1 hnd).2.2 _ hl _ List.mem_cons_self rfl

/-- Nothing in front of the site of a deletion touches its expression. -/
theorem untouched_before_site (hq : (k, e) ∈ p.deletions)
    (hbody : (p.func.block (p.blockAt k)).body = pre ++ p.site (k, e) :: post)
    (hup : e ∈ p.sets.up.of k) : Context.Untouched p.func p.context k pre e := by
  have hocc := h.not_occurs_before_site hq hbody
  have hexpr := (h.site_spec hq).2.2
  obtain ⟨c₀, hs⟩ := h.solved
  have hx := hs.exposed k (h.mem_deletions_iff.1 hq).1
  refine ⟨hocc, fun j hj hkill => ((hx.up e).1 hup).2 j ?_ hkill.of_false⟩
  have hb : p.context.body p.func k = (pre ++ [p.site (k, e)]) ++ post := by
    rw [List.append_assoc]
    exact hbody
  rw [hb, Context.before_append_of_occurs ⟨_, List.mem_append_right _ (List.mem_singleton_self _),
    hexpr⟩, Context.before_append_self hocc hexpr]
  exact hj

/-- An instruction that is taken away is the first occurrence of an expression that is due. -/
theorem due_of_gone (hk : k < p.context.nodes.size)
    (hbody : (p.func.block (p.blockAt k)).body = pre ++ i :: post) (hi : i ∈ p.gone) :
    ∃ e n, p.context.catalog.entries[e]? = some n ∧ p.func.exprAt p.context.catalog i = some e ∧
      Context.Due p.sets e k ∧ k ≠ 0 ∧ Context.Untouched p.func p.context k pre e ∧
      (n.op = .store ∨ ∃ q, p.Moves q ∧ q.2 = e ∧ p.origin q.2 = i) := by
  obtain ⟨⟨k', e⟩, hq, rfl⟩ := List.mem_map.1 hi
  obtain ⟨-, hmem, hexpr⟩ := h.site_spec hq
  obtain ⟨hk', he⟩ := h.mem_deletions_iff.1 hq
  obtain ⟨c₀, hs⟩ := h.solved
  have hkk : k' = k := by
    refine h.blockAt_inj hk' hk (h.sound.block_unique (i := p.site (k', e))
      (h.blockAt_mem hk') (h.blockAt_mem hk) ?_ ?_)
    · exact Func.mem_listed_of_body hmem
    · refine Func.mem_listed_of_body ?_
      rw [hbody]
      exact List.mem_append_right _ List.mem_cons_self
  subst hkk
  obtain ⟨h0, -, hup, hlater⟩ := (hs.mem_deleteIn hk).1 ((h.decided.delete_iff _ hk _).1 he).1
  obtain ⟨n, hn, -⟩ := Catalog.exprAt_entry hexpr
  refine ⟨e, n, hn, hexpr, ⟨(hs.mem_antIn hk).2 (Or.inl hup), hlater⟩, h0,
    h.untouched_before_site hq hbody hup, ?_⟩
  by_cases hst : n.op = .store
  · exact Or.inl hst
  · have hsite := hs.numbered.lawful.instr_unique hn hst hexpr
    obtain ⟨ho, hop, home, hl, hbody'⟩ := h.origin_of_entry hn
    have hmov := (hs.numbered.lawful.entry e n hn).2.1
    have hres : (p.func.instr (p.origin e)).op.hasResult = true := by
      rw [← ho] at hmov
      rw [hop] at hmov ⊢
      cases hnop : n.op <;> simp_all [Op.isMovable, Op.hasResult]
    obtain ⟨x, hx⟩ := h.exists_copy hq hres
    exact Or.inr ⟨(x, e), hx, rfl, ho.trans hsite.symm⟩

/-- The operands of an instruction were passed before it. -/
theorem behind_of_use {m : Nat} (hk : p.context.Reach k)
    (hi : ((p.func.block (p.blockAt k)).body ++ (p.func.block (p.blockAt k)).term.toList)[m]? =
      some i) (hd : .instr d ∈ (p.func.instr i).args) :
    p.Behind k ((p.func.block (p.blockAt k)).body.take m) d ∧ (d : Nat) ≤ p.func.instrs.size := by
  obtain ⟨π, hπ⟩ := hk
  have hl := h.blockAt_mem (hπ.lt h.wired)
  have hil := Func.mem_listed_of_place hi
  have hready := (h.sound.supplied _ (h.walk hπ).reachable).uses i m hi d hd
  obtain ⟨home, hhome, hdl, hcase⟩ := h.sound.exists_home hready (h.sound.results _ hl i hil d hd)
  refine ⟨?_, h.sound.listed_le hhome hdl⟩
  rcases hcase with ⟨-, hphi | hpre⟩ | ⟨-, hprec⟩
  · exact Or.inl hphi
  · exact Or.inr (Or.inl hpre)
  · exact Or.inr (Or.inr ⟨home, hhome, hdl, fun π hπ => hprec _ (h.walk hπ)⟩)

end Valid

theorem InBlock.value_args (hin : p.InBlock I k pre post σ σ') (h : p.Valid)
    (hk : p.context.Reach k) (hbody : (p.func.block (p.blockAt k)).body = pre ++ post)
    (hi : (post ++ (p.func.block (p.blockAt k)).term.toList)[0]? = some i) {v : Value}
    (hv : v ∈ (p.func.instr i).args) : I.value σ' (p.rename v) = I.value σ v := by
  refine h.value_rename hin.staying fun d hd => ?_
  have hget : ((p.func.block (p.blockAt k)).body ++
      (p.func.block (p.blockAt k)).term.toList)[pre.length]? = some i := by
    rw [hbody, List.append_assoc, List.getElem?_append_right (Nat.le_refl _), Nat.sub_self]
    exact hi
  obtain ⟨hbehind, hle⟩ := h.behind_of_use hk hget (hd ▸ hv)
  rw [hbody, List.take_left] at hbehind
  exact ⟨hle, fun q hq ho => by rw [← ho] at hbehind ⊢; exact hin.moved q hq hbehind⟩

/-- An instruction with the operands of another, under new names, yields the same if the operands
have the same values. -/
theorem yield_eq {r : Value → Value} (hop : (g.instr j).op = (p.func.instr i).op)
    (hargs : (g.instr j).args = (p.func.instr i).args.map r)
    (hslot : (p.func.instr i).op = .alloca → j = i)
    (hv : ∀ v ∈ p.func.operands i, I.value σ' (r v) = I.value σ v)
    (hm : (p.func.instr i).op = .load → ∃ a, (p.func.instr i).args = [a] ∧ σ'.mem (r a) = σ.mem a) :
    g.yield I σ' j = p.func.yield I σ i := by
  unfold Func.yield
  unfold Func.operands at hv
  rw [hop, hargs]
  split
  · next hld =>
    obtain ⟨a, ha, hmem⟩ := hm hld
    rw [ha]
    exact hmem
  · next hst =>
    rw [if_pos hst] at hv
    cases ha : (p.func.instr i).args with
    | nil => rfl
    | cons v t => exact hv v (by rw [ha]; exact List.mem_cons_self)
  · next hal => rw [hslot hal]
  · next hst _ =>
    rw [if_neg hst] at hv
    rw [List.map_map]
    exact congrArg _ (List.map_congr_left fun v hv' => hv v hv')

namespace InBlock

theorem behind_of_snoc (hb : p.Behind k (pre ++ [i]) d) (hne : d ≠ i) : p.Behind k pre d := by
  rcases hb with hphi | hpre | hhome
  · exact Or.inl hphi
  · rcases List.mem_append.1 hpre with hpre | hi
    · exact Or.inr (Or.inl hpre)
    · exact absurd (List.mem_singleton.1 hi) hne
  · exact Or.inr (Or.inr hhome)

variable (hin : p.InBlock I k pre (i :: post) σ σ') (h : p.Valid) (hk : p.context.Reach k)
  (hbody : (p.func.block (p.blockAt k)).body = pre ++ i :: post)
include hin h hk hbody

omit hin in
theorem mem_body : p.blockAt k ∈ p.func.layout ∧ i ∈ (p.func.block (p.blockAt k)).body := by
  obtain ⟨π, hπ⟩ := hk
  refine ⟨h.blockAt_mem (hπ.lt h.wired), ?_⟩
  rw [hbody]
  exact List.mem_append_right _ List.mem_cons_self

/-- What is available stays so, or an occurrence makes it available. -/
theorem avail_step (hn : p.context.catalog.entries[e]? = some n)
    (ha : Context.AvailAt p.func p.context p.sets k (pre ++ [i]) e) :
    n.kept n.instr (p.func.exec I σ i) = p.func.yield I (p.func.exec I σ i) n.instr := by
  obtain ⟨hl, hi⟩ := mem_body h hk hbody
  have hget : (p.func.block (p.blockAt k)).body[pre.length]? = some i := by
    rw [hbody, List.getElem?_append_right (Nat.le_refl _), Nat.sub_self]
    rfl
  by_cases he : p.func.exprAt p.context.catalog i = some e
  · rw [h.kept_self hn hl hi he, h.yield_self hn hk hget he]
  · rcases ha.snoc with he' | ⟨hkill, ha⟩
    · exact absurd he' he
    · rw [h.kept_of_not_kills hn hl hi hkill he, h.yield_of_not_kills hn hl hi hkill]
      exact hin.avail e n hn ha

/-- A cell that an instruction does not write stays the same, or ahead by the same store. -/
theorem mem_step {a : Value} {τ' : Machine V} (hsame : (p.func.exec I σ i).mem a = σ.mem a)
    (hsame' : τ'.mem a = σ'.mem a)
    (hother : ∀ e n, p.context.catalog.entries[e]? = some n → n.op = .store → n.dest = a →
      p.func.exprAt p.context.catalog i ≠ some e) :
    τ'.mem a = (p.func.exec I σ i).mem a ∨ ∃ e n, p.context.catalog.entries[e]? = some n ∧
      n.op = .store ∧ n.dest = a ∧
      Context.AntAt p.func p.context p.sets k post e ∧
        τ'.mem a = p.func.yield I (p.func.exec I σ i) n.instr := by
  obtain ⟨hl, hi⟩ := mem_body h hk hbody
  rw [hsame, hsame']
  rcases hin.mem a with heq | ⟨e, n, hn, hst, hdest, hant, hval⟩
  · exact Or.inl heq
  · rcases hant.cons with he | ⟨hkill, hant⟩
    · exact absurd he (hother e n hn hst hdest)
    · refine Or.inr ⟨e, n, hn, hst, hdest, hant, ?_⟩
      rw [h.yield_of_not_kills hn hl hi fun hkill' => hkill hkill'.of_false]
      exact hval

/-- Past an instruction that was taken away. -/
theorem skip (hg : i ∈ p.gone) : p.InBlock I k (pre ++ [i]) post (p.func.exec I σ i) σ' := by
  obtain ⟨hl, hi⟩ := mem_body h hk hbody
  obtain ⟨e, n, hn, hexpr, hdue, h0, hun, hcase⟩ :=
    h.due_of_gone (hk.elim fun _ hπ => hπ.lt h.wired) hbody hg
  obtain ⟨c₀, hs⟩ := h.solved
  obtain ⟨hmov, hx⟩ := (hs.numbered.lawful.exprAt_iff_entry hn).1 hexpr
  have hop : (p.func.instr i).op = n.op := (Reader.expression_op hx).symm
  have hcall : (p.func.instr i).op ≠ .call := fun hc => by
    rw [hc] at hmov
    cases hmov
  refine ⟨?_, fun d hd hno => ?_, fun r hr hb => ?_, fun f m w hm hw hdue' h0' hun' =>
    ?_, fun a => ?_, fun f m hm ha => hin.avail_step h hk hbody hm ha⟩
  · rw [Func.exec_calls_of_ne hcall]
    exact hin.calls
  · by_cases hdi : d = i
    · rcases hcase with hst | ⟨q, hq, -, ho⟩
      · rw [Func.exec_store (hop.trans hst)]
        exact hin.staying d hd hno
      · exact absurd (ho.trans hdi.symm) (hno q hq)
    · rw [Func.exec_env_of_ne hdi]
      exact hin.staying d hd hno
  · by_cases hri : p.origin r.2 = i
    · -- the copy has the value that the instruction would compute
      obtain ⟨m, hm, ho⟩ := h.exists_entry (mem_copies.1 hr.1).2 (mem_copies.1 hr.1).1
      have hre := hs.numbered.lawful.exprAt_instr hm
      rw [← ho, hri, hexpr, Option.some.injEq] at hre
      subst hre
      rw [hn, Option.some.injEq] at hm
      subst hm
      have hst : n.op ≠ .store := by
        rw [← (h.origin_of_entry hn).2.1]
        exact (h.op_of_moves hr).2
      have h1 := hin.due r.2 n (p.copyId r) hn (Or.inr ⟨r, hr, rfl, rfl⟩) hdue h0 hun
      have h2 := h.kept_self (I := I) (σ := σ) hn hl hi hexpr
      unfold Catalog.Entry.kept at h1 h2
      rw [if_neg hst] at h1 h2
      rw [h1, ← h2, ho]
    · rw [Func.exec_env_of_ne hri]
      exact hin.moved r hr (behind_of_snoc hb hri)
  · obtain ⟨hun', hne, hkill⟩ := hun'.of_snoc
    rw [h.yield_of_not_kills hm hl hi hkill]
    exact hin.due f m w hm hw hdue' h0' hun'
  · by_cases hst : n.op = .store ∧ n.dest = a
    · obtain ⟨hst, rfl⟩ := hst
      have h1 := hin.due e n i hn (Or.inl hst) hdue h0 hun
      have h2 := h.kept_self (I := I) (σ := σ) hn hl hi hexpr
      unfold Catalog.Entry.kept at h1 h2
      rw [if_pos hst] at h1 h2
      exact Or.inl (h1.trans h2.symm)
    · refine hin.mem_step h hk hbody (Func.exec_mem_of_ne fun hi' haddr =>
        hst ⟨hop.symm.trans hi', ?_⟩) rfl ?_
      · obtain ⟨v, -, hargs⟩ := h.store_args hn (hop.symm.trans hi')
        rw [hargs _ hl i hi hexpr] at haddr
        exact haddr
      · rintro f m hm hst' hdest hf
        rw [hexpr, Option.some.injEq] at hf
        subst hf
        rw [hn, Option.some.injEq] at hm
        subst hm
        exact hst ⟨hst', hdest⟩

omit hk hbody in
/-- A cell is not ahead where it is read. -/
theorem mem_load {a : Value} (hop : (p.func.instr i).op = .load)
    (ha : (p.func.instr i).args = [a]) : σ'.mem a = σ.mem a := by
  rcases hin.mem a with heq | ⟨e, n, hn, hst, hdest, hant, -⟩
  · exact heq
  · rcases hant.cons with he | ⟨hkill, -⟩
    · obtain ⟨c₀, hs⟩ := h.solved
      have := Reader.expression_op ((hs.numbered.lawful.exprAt_iff_entry hn).1 he).2
      have hop' : n.op = (p.func.instr i).op := this
      rw [hst, hop] at hop'
      cases hop'
    · exact absurd ⟨n, hn, Or.inr (Or.inr ⟨hst, rfl, hop, by rw [ha, hdest]; rfl⟩)⟩ hkill

omit hin in
/-- A store writes the same cell in both runs. -/
theorem cell_eq (hm : p.Moved g) (hfix : p.func.FixedAddresses)
    (hst : (p.func.instr i).op = .store) :
    (g.instr i).args.getD 1 (.const 0) = (p.func.instr i).args.getD 1 (.const 0) := by
  obtain ⟨hl, hi⟩ := mem_body h hk hbody
  obtain ⟨v, a, ha⟩ := h.store_address hl hi hst
  have hren : p.rename a = a :=
    h.rename_address fun d hd => hfix _ hl i hi d (Or.inr ⟨hst, by rw [ha, hd]; rfl⟩)
  rw [(hm.old _ hl i (Func.mem_listed_of_body hi)).2.1, ha]
  exact hren

theorem yield_keep (hm : p.Moved g) (hfix : p.func.FixedAddresses) :
    g.yield I σ' i = p.func.yield I σ i := by
  obtain ⟨hl, hi⟩ := mem_body h hk hbody
  obtain ⟨hop, hargs, -⟩ := hm.old _ hl i (Func.mem_listed_of_body hi)
  refine yield_eq hop hargs (fun _ => rfl) (fun v hv => hin.value_args h hk hbody rfl
    (Func.mem_args_of_operands hv)) fun hld => ?_
  obtain ⟨a, ha⟩ := h.load_address hl hi hld
  refine ⟨a, ha, ?_⟩
  rw [h.rename_address fun d hd => hfix _ hl i hi d (Or.inl ⟨hld, by rw [ha, hd]; rfl⟩)]
  exact hin.mem_load h hld ha

/-- Past an instruction that stays. -/
theorem keep (hm : p.Moved g) (hfix : p.func.FixedAddresses) (hg : i ∉ p.gone) :
    p.InBlock I k (pre ++ [i]) post (p.func.exec I σ i) (g.exec I σ' i) := by
  obtain ⟨hl, hi⟩ := mem_body h hk hbody
  have hil : i ∈ p.func.listed (p.blockAt k) := Func.mem_listed_of_body hi
  have hle := h.sound.listed_le hl hil
  obtain ⟨hop, hargs, hcallee, -⟩ := hm.old _ hl i hil
  have hvals : (g.instr i).args.map (I.value σ') = (p.func.instr i).args.map (I.value σ) := by
    rw [hargs, List.map_map]
    exact List.map_congr_left fun v hv => hin.value_args h hk hbody rfl hv
  have hcopy : ∀ q, p.copyId q ≠ i :=
    fun q heq => absurd (p.lt_copyId q) (Nat.not_lt_of_le (heq ▸ hle))
  have hyield := hin.yield_keep h hk hbody hm hfix
  have haddr := cell_eq h hk hbody hm hfix
  refine ⟨?_, fun d hd hno => ?_, fun r hr hb => ?_, fun f m w hm' hw hdue hk0 hun =>
    ?_, fun a => ?_, fun f m hm' ha => hin.avail_step h hk hbody hm' ha⟩
  · by_cases hc : (p.func.instr i).op = .call
    · rw [Func.exec_call hc, Func.exec_call (hop.trans hc)]
      simp only [hin.calls, hcallee, hvals]
    · rw [Func.exec_calls_of_ne hc, Func.exec_calls_of_ne (by rw [hop]; exact hc)]
      exact hin.calls
  · by_cases hdi : d = i
    · by_cases hst : (p.func.instr i).op = .store
      · rw [Func.exec_store hst, Func.exec_store (hop.trans hst)]
        exact hin.staying d hd hno
      · by_cases hc : (p.func.instr i).op = .call
        · rw [Func.exec_call hc, Func.exec_call (hop.trans hc), hdi]
          simp only [Function.update_self, hin.calls, hcallee, hvals]
        · rw [Func.exec_value hst hc,
            Func.exec_value (by rw [hop]; exact hst) (by rw [hop]; exact hc), hdi]
          simp only [Function.update_self, hyield]
    · rw [Func.exec_env_of_ne hdi, Func.exec_env_of_ne hdi]
      exact hin.staying d hd hno
  · have hri : p.origin r.2 ≠ i := fun heq => hg (heq ▸ h.origin_gone hr)
    rw [Func.exec_env_of_ne hri, Func.exec_env_of_ne (hcopy r)]
    exact hin.moved r hr (behind_of_snoc hb hri)
  · obtain ⟨hun, hne, hkill⟩ := hun.of_snoc
    rw [h.yield_of_not_kills hm' hl hi hkill, ← hin.due f m w hm' hw hdue hk0 hun]
    unfold Catalog.Entry.kept
    split
    · next hst =>
      refine Func.exec_mem_of_ne fun hst' heq =>
        hkill ⟨m, hm', Or.inr (Or.inl ⟨hst, hop.symm.trans hst', ?_, hne⟩)⟩
      rw [haddr (hop.symm.trans hst')] at heq
      obtain ⟨v, a, ha⟩ := h.store_address hl hi (hop.symm.trans hst')
      rw [ha] at heq ⊢
      exact congrArg some heq
    · next hst =>
      obtain ⟨q, -, -, rfl⟩ := hw.resolve_left hst
      exact Func.exec_env_of_ne (hcopy q)
  · by_cases hst : (p.func.instr i).op = .store ∧ (p.func.instr i).args.getD 1 (.const 0) = a
    · obtain ⟨hst, rfl⟩ := hst
      refine Or.inl ?_
      rw [Func.exec_store hst, Func.exec_store (hop.trans hst), haddr hst, hyield]
      simp only [Function.update_self]
    · refine hin.mem_step h hk hbody (Func.exec_mem_of_ne fun hi' heq => hst ⟨hi', heq⟩)
        (Func.exec_mem_of_ne fun hi' heq => hst ⟨hop.symm.trans hi', ?_⟩) ?_
      · rw [← haddr (hop.symm.trans hi')]
        exact heq
      · rintro f m hm' hst' rfl hf
        obtain ⟨c₀, hs⟩ := h.solved
        have hop' : (p.func.instr i).op = m.op :=
          (Reader.expression_op ((hs.numbered.lawful.exprAt_iff_entry hm').1 hf).2).symm
        obtain ⟨v, -, hargs'⟩ := h.store_args hm' hst'
        exact hst ⟨hop'.trans hst', by rw [hargs' _ hl i hi hf]; rfl⟩

end InBlock

/-- The runs match to the end of the block. -/
theorem InBlock.run (hin : p.InBlock I k pre post σ σ') (h : p.Valid) (hm : p.Moved g)
    (hfix : p.func.FixedAddresses) (hk : p.context.Reach k)
    (hbody : (p.func.block (p.blockAt k)).body = pre ++ post) :
    p.InBlock I k (p.func.block (p.blockAt k)).body [] (post.foldl (p.func.exec I) σ)
      ((post.filter (· ∉ p.gone)).foldl (g.exec I) σ') := by
  induction post generalizing pre σ σ' with
  | nil =>
    rw [hbody, List.append_nil]
    exact hin
  | cons i post ih =>
    have hbody' : (p.func.block (p.blockAt k)).body = (pre ++ [i]) ++ post := by
      rw [List.append_assoc]
      exact hbody
    by_cases hg : i ∈ p.gone
    · rw [List.filter_cons_of_neg (by simpa using hg)]
      exact ih (hin.skip h hk hbody hg) hbody'
    · rw [List.filter_cons_of_pos (by simpa using hg)]
      exact ih (hin.keep h hk hbody hm hfix hg) hbody'

end Plan
end CodeMotion
