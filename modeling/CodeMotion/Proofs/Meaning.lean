import Mathlib
import CodeMotion.Proofs.Crossing
import CodeMotion.Proofs.Optimize

/-! A run of the optimizer keeps the meaning of a function. Block by block the moved function
follows the original one, with one more step for each split edge that it takes. -/

namespace CodeMotion

variable {V : Type} {I : Interp V}

namespace Func

variable {fn : Func} {b : BlockId} {σ : Machine V} {c d : Config V} {r : Outcome V}

def Ends (fn : Func) (I : Interp V) (σ : Machine V) (r : Outcome V) : Prop :=
  ∃ b ∈ fn.entry?, ∃ n, fn.run I n ⟨b, none, σ⟩ = .inr r

/-- A run from the entry makes some calls, and then ends or goes on. -/
def Emits (fn : Func) (I : Interp V) (σ : Machine V) (l : List (Event V)) : Prop :=
  ∃ b ∈ fn.entry?, ∃ n, callsOf (fn.run I n ⟨b, none, σ⟩) = l

/-- No meaning of the operations tells two functions apart, by how they end or by their calls. -/
def SameMeaning (fn g : Func) : Prop := ∀ (V : Type) (I : Interp V) (σ : Machine V),
  (∀ r, g.Ends I σ r ↔ fn.Ends I σ r) ∧ ∀ l, g.Emits I σ l ↔ fn.Emits I σ l

def address? (fn : Func) (i : InstrId) : Option Value :=
  match (fn.instr i).op with
  | .load => (fn.instr i).args[0]?
  | .store => (fn.instr i).args[1]?
  | _ => none

theorem fixedAddresses_iff : fn.FixedAddresses ↔
    ∀ b ∈ fn.layout, ∀ i ∈ (fn.block b).body, ∀ v ∈ fn.address? i, ∀ d ∈ v.instr?,
      (fn.instr d).op = .alloca := by
  have haddr : ∀ i d, fn.address? i = some (.instr d) ↔
      (fn.instr i).op = .load ∧ (fn.instr i).args[0]? = some (.instr d) ∨ (fn.instr i).op = .store ∧
        (fn.instr i).args[1]? = some (.instr d) := by
    intro i d
    unfold address?
    split <;> simp_all
  refine forall₄_congr fun b _ i _ =>
    ⟨fun h v hv d hd => ?_, fun h d hd => h _ ((haddr i d).2 hd) d rfl⟩
  cases v with
  | instr d' =>
    cases hd
    exact h d ((haddr i d).1 hv)
  | const _ => cases hd
  | param _ _ => cases hd
  | global _ _ => cases hd

instance : Decidable fn.FixedAddresses := decidable_of_iff' _ fixedAddresses_iff

theorem SameMeaning.refl (fn : Func) : fn.SameMeaning fn :=
  fun _ _ _ => ⟨fun _ => Iff.rfl, fun _ => Iff.rfl⟩

theorem run_of_inl (h : fn.step I c = .inl d) (n : Nat) : fn.run I (n + 1) c = fn.run I n d := by
  rw [run, h]

theorem run_of_inr (h : fn.step I c = .inr r) (n : Nat) : fn.run I (n + 1) c = .inr r := by
  rw [run, h]

theorem step_of_goto (h : fn.goto? I c.block (fn.pass I c.block c.last c.machine) = some b) :
    fn.step I c = .inl ⟨b, some c.block, fn.pass I c.block c.last c.machine⟩ := by
  simp only [step, h]

theorem step_of_none (h : fn.goto? I c.block (fn.pass I c.block c.last c.machine) = none) :
    fn.step I c = .inr ⟨fn.ending I c.block (fn.pass I c.block c.last c.machine),
      (fn.pass I c.block c.last c.machine).mem, (fn.pass I c.block c.last c.machine).calls⟩ := by
  simp only [step, h]

theorem goto?_of_term {t : InstrId} (ht : (fn.block b).term = some t) : fn.goto? I b σ =
    (fn.targets b)[I.pick (fn.instr t).op ((fn.instr t).args.map (I.value σ)) %
      (fn.targets b).length]? := by
  unfold goto? ending
  rw [ht]
  rfl

end Func

namespace Plan

variable {p : Plan} {g : Func} {σ σ' : Machine V} {k x : Nat} {b : BlockId} {c c' d : Config V}
  {r : Outcome V}

/-- Two runs stand in front of the same block of the original function, and match there. -/
def Meets (p : Plan) (g : Func) (I : Interp V) (c c' : Config V) : Prop :=
  ∃ k, p.context.Reach k ∧ c.block = p.blockAt k ∧ c'.block = p.blockAt k ∧
    p.InBlock I k [] (p.func.block (p.blockAt k)).body (p.func.enter I c.block c.last c.machine)
      (g.enter I c'.block c'.last c'.machine)

theorem Meets.calls (h : p.Meets g I c c') : c'.machine.calls = c.machine.calls := by
  obtain ⟨k, -, -, -, hin⟩ := h
  exact hin.calls

namespace Valid

variable (h : p.Valid)
include h

theorem pinned_of_targets (hk : k < p.context.nodes.size) (ht : p.func.targets (p.blockAt k) = []) :
    (∀ x < p.context.edges.size, p.source x ≠ p.blockAt k) ∧
      (p.context.node k).isPinned = true := by
  have hno : ∀ x < p.context.edges.size, p.source x ≠ p.blockAt k := by
    intro x hx hs
    have hl := h.leads hx
    unfold Func.Leads at hl
    rw [Func.mem_succs, hs, ht] at hl
    cases hl
  refine ⟨hno, ?_⟩
  obtain ⟨c₀, hs⟩ := h.solved
  cases hs.marked.ends k hk with
  | pinned _ hp => exact hp
  | step hx => exact absurd rfl (hno _ hx)

end Valid

section Step

variable (h : p.Valid) (hm : p.Moved g) (hfix : p.func.FixedAddresses)
include h hm

/-- The terminator finds the same operands in front of the copies. -/
theorem InBlock.ending_eq (hin : p.InBlock I k (p.func.block (p.blockAt k)).body [] σ σ')
    (hk : p.context.Reach k) : g.ending I (p.blockAt k) σ' = p.func.ending I (p.blockAt k) σ := by
  obtain ⟨c₀, hs⟩ := h.solved
  have hb := h.blockAt_mem (hs.reach_lt hk)
  obtain ⟨t, ht, -⟩ := (h.sound.fitting _ hb).term
  obtain ⟨hop, hargs, -⟩ := hm.old _ hb t (by simp [Func.listed, ht])
  have hvalues : ∀ v ∈ (p.func.instr t).args, I.value σ' (p.rename v) = I.value σ v := fun v hv =>
    hin.value_args h hk (List.append_nil _).symm (by rw [ht]; rfl) hv
  unfold Func.ending
  rw [hm.term _ hb, ht, Option.map_some, Option.map_some, hop, hargs, List.map_map]
  exact congrArg (fun l => some (_, l)) (List.map_congr_left hvalues)

/-- A block leads to the block that follows the source on an edge, whatever copies it has. -/
theorem InBlock.goto_eq (hin : p.InBlock I k (p.func.block (p.blockAt k)).body [] σ σ')
    (hk : p.context.Reach k) (hgoto : p.func.goto? I (p.blockAt k) σ = some b) :
    ∃ x < p.context.edges.size, (p.context.edge x).source = k ∧ p.target x = b ∧
      g.goto? I (p.blockAt k) ((p.placed p.copies (p.blockAt k)).foldl (g.exec I) σ') =
        some (p.next x) := by
  obtain ⟨c₀, hs⟩ := h.solved
  have hlt := hs.reach_lt hk
  have hb := h.blockAt_mem hlt
  obtain ⟨t, ht, -⟩ := (h.sound.fitting _ hb).term
  obtain ⟨x, hx, hxk, hxb⟩ : ∃ x < p.context.edges.size, (p.context.edge x).source = k ∧
      p.target x = b := by
    rw [Func.goto?_of_term ht] at hgoto
    exact h.exists_edge hlt (Func.mem_succs.2 (List.mem_of_getElem? hgoto))
  refine ⟨x, hx, hxk, hxb, ?_⟩
  have hsame := hin.ending_eq h hm hk
  rw [show p.blockAt k = p.source x by rw [source, hxk]] at hb ht hgoto hsame ⊢
  have hnext : p.retarget p.cuts (p.source x) b = p.next x := hxb ▸ h.retarget_edge hx
  have htargets : g.targets (p.source x) = (p.func.targets (p.source x)).map
      (p.retarget p.cuts (p.source x)) :=
    hm.targets _ hb
  by_cases hno : p.placed p.copies (p.source x) = []
  · -- without copies the terminator chooses as before
    rw [hno, List.foldl_nil, Func.goto?, hsame, htargets]
    unfold Func.goto? at hgoto
    obtain ⟨⟨op, vs⟩, hend, hget⟩ := Option.bind_eq_some_iff.1 hgoto
    dsimp only at hget
    rw [hend, Option.bind_some, List.length_map]
    dsimp only
    rw [List.getElem?_map, hget, Option.map_some, hnext]
  · -- with copies all targets are the same
    have hcut : p.isCut x = false := by
      rw [h.placed_source hx] at hno
      cases hc : p.isCut x with
      | true => simp [hc] at hno
      | false => rfl
    obtain ⟨e, he⟩ : ∃ e, e ∈ p.sets.insert.of x := by
      rw [h.placed_source hx, hcut, if_neg Bool.false_ne_true, List.map_eq_nil_iff,
        List.eq_nil_iff_forall_not_mem] at hno
      push Not at hno
      obtain ⟨q, hq⟩ := hno
      exact ⟨q.2, (mem_copiesOn.1 hq).2⟩
    have hall : ∀ s ∈ g.targets (p.source x), s = p.next x := by
      intro s hs
      rw [htargets, List.mem_map] at hs
      obtain ⟨a, ha, rfl⟩ := hs
      have ha' := Func.mem_succs.2 ha
      rw [h.succs_source hx he hcut, List.mem_singleton] at ha'
      rw [ha', h.retarget_edge hx]
    have hpos : 0 < (g.targets (p.source x)).length := by
      rw [htargets, List.length_map]
      exact List.length_pos_of_mem (Func.mem_succs.1 (h.leads hx))
    rw [Func.goto?_of_term ((hm.term _ hb).trans ht), List.getElem?_eq_getElem (Nat.mod_lt _ hpos),
      hall _ (List.getElem_mem _)]

include hfix

/-- The run through a block: what the original has done and the copies that are left to execute. -/
theorem InBlock.pass_eq {last last' : Option BlockId} (hk : p.context.Reach k)
    (hin : p.InBlock I k [] (p.func.block (p.blockAt k)).body (p.func.enter I (p.blockAt k) last σ)
      (g.enter I (p.blockAt k) last' σ')) :
    ∃ τ', p.InBlock I k (p.func.block (p.blockAt k)).body []
        (p.func.pass I (p.blockAt k) last σ) τ' ∧
      g.pass I (p.blockAt k) last' σ' = (p.placed p.copies (p.blockAt k)).foldl (g.exec I) τ' := by
  refine ⟨_, hin.run h hm hfix hk rfl, ?_⟩
  obtain ⟨c₀, hs⟩ := h.solved
  have hb := h.blockAt_mem (hs.reach_lt hk)
  rw [Func.pass, hm.body _ (List.mem_append_left _ hb), List.foldl_append]

/-- The runs end together. -/
theorem Meets.step_inr (hc : p.Meets g I c c') (hstep : p.func.step I c = .inr r) :
    g.step I c' = .inr r := by
  obtain ⟨⟨_, last, σ⟩, _, last', σ'⟩ := c, c'
  obtain ⟨k, hk, rfl, rfl, hin⟩ := hc
  obtain ⟨c₀, hs⟩ := h.solved
  have hlt := hs.reach_lt hk
  have hb := h.blockAt_mem hlt
  obtain ⟨t, ht, -⟩ := (h.sound.fitting _ hb).term
  obtain ⟨τ', hend, hpass⟩ := hin.pass_eq h hm hfix hk
  cases hgoto : p.func.goto? I (p.blockAt k) (p.func.pass I (p.blockAt k) last σ) with
  | some b =>
    rw [Func.step_of_goto (c := ⟨p.blockAt k, last, σ⟩) hgoto] at hstep
    cases hstep
  | none =>
    rw [Func.step_of_none (c := ⟨p.blockAt k, last, σ⟩) hgoto, Sum.inr.injEq] at hstep
    have htargets : p.func.targets (p.blockAt k) = [] := by
      by_contra hne
      rw [Func.goto?_of_term ht, List.getElem?_eq_none_iff] at hgoto
      exact absurd (Nat.mod_lt _ (List.length_pos_of_ne_nil hne)) (Nat.not_lt_of_le hgoto)
    obtain ⟨hno, hpin⟩ := h.pinned_of_targets hlt htargets
    rw [h.placed_eq_nil hb hno, List.foldl_nil] at hpass
    have hgoto' : g.goto? I (p.blockAt k) τ' = none := by
      rw [Func.goto?_of_term ((hm.term _ hb).trans ht), hm.targets _ hb, htargets]
      rfl
    have hmem : τ'.mem = (p.func.pass I (p.blockAt k) last σ).mem := by
      funext a
      rcases hend.mem a with heq | ⟨e, n, -, -, -, hant, -⟩
      · exact heq
      · -- nothing is anticipated behind a block without successors
        exact absurd hant.nil (hs.not_mem_antOut_pinned hlt hpin)
    rw [← hpass] at hgoto' hmem
    rw [Func.step_of_none (c := ⟨p.blockAt k, last', σ'⟩) hgoto', ← hstep, hmem, hpass,
      hend.ending_eq h hm hk, hend.calls]

/-- The moved function follows a step in one step, or in two with the block on a split edge
between. -/
theorem Meets.step_inl (hc : p.Meets g I c c') (hstep : p.func.step I c = .inl d) :
    ∃ d', p.Meets g I d d' ∧
    (g.step I c' = .inl d' ∨ ∃ m, g.step I c' = .inl m ∧ m.machine.calls = d.machine.calls ∧
      g.step I m = .inl d') := by
  obtain ⟨⟨_, last, σ⟩, _, last', σ'⟩ := c, c'
  obtain ⟨k, hk, rfl, rfl, hin⟩ := hc
  obtain ⟨τ', hend, hpass⟩ := hin.pass_eq h hm hfix hk
  cases hgoto : p.func.goto? I (p.blockAt k) (p.func.pass I (p.blockAt k) last σ) with
  | none =>
    rw [Func.step_of_none (c := ⟨p.blockAt k, last, σ⟩) hgoto] at hstep
    cases hstep
  | some b =>
    rw [Func.step_of_goto (c := ⟨p.blockAt k, last, σ⟩) hgoto, Sum.inl.injEq] at hstep
    subst hstep
    obtain ⟨x, hx, rfl, rfl, hnext⟩ := hend.goto_eq h hm hk hgoto
    rw [← hpass] at hnext
    have hleft := Func.step_of_goto (c := ⟨p.source x, last', σ'⟩) hnext
    have hedge := (OnEdge.start hend h hk hx rfl).foldl_copies h hm hfix hx
    have hmeets := hedge.enter h hm hx hk
    have hreach := Context.reach_target hx hk
    have hplaced := h.placed_source hx
    change g.pass I (p.source x) last' σ' = (p.placed p.copies (p.source x)).foldl (g.exec I) τ'
      at hpass
    cases hcut : p.isCut x with
    | false =>
      rw [hcut, if_neg Bool.false_ne_true] at hplaced
      rw [place, hcut, if_neg Bool.false_ne_true] at hmeets
      rw [next, hcut, if_neg Bool.false_ne_true, hpass, hplaced] at hleft
      exact ⟨⟨p.target x, some (p.source x), _⟩, ⟨_, hreach, rfl, rfl, hmeets⟩, Or.inl hleft⟩
    | true =>
      have hxc := mem_cuts.2 ⟨hx, hcut⟩
      rw [hcut, if_pos rfl] at hplaced
      rw [place, if_pos hcut] at hmeets
      rw [next, if_pos hcut, hpass, hplaced, List.foldl_nil] at hleft
      -- the block on the edge has the copies and a jump
      have hsplit : g.pass I (p.splitId x) (some (p.source x)) τ' =
          ((p.copiesOn x).map p.copyId).foldl (g.exec I) τ' := by
        have henter : g.enter I (p.splitId x) (some (p.source x)) τ' = τ' := by
          simp only [Func.enter, hm.phis, p.block_splitId, List.not_mem_nil, if_false]
        rw [Func.pass, henter, hm.body _ (List.mem_append_right _ (List.mem_map_of_mem hxc)),
          p.block_splitId, h.placed_split hxc]
        rfl
      have hjump : ∀ τ, g.goto? I (p.splitId x) τ = some (p.target x) := fun τ => by
        rw [Func.goto?_of_term (hm.term_split x hxc), Func.targets_of_term (hm.term_split x hxc),
          hm.jump x hxc, List.length_singleton, Nat.mod_one]
        rfl
      have hsecond :=
        Func.step_of_goto (I := I) (c := ⟨p.splitId x, some (p.source x), τ'⟩) (hjump _)
      rw [hsplit] at hsecond
      exact ⟨⟨p.target x, some (p.splitId x), _⟩, ⟨_, hreach, rfl, rfl, hmeets⟩,
        Or.inr ⟨_, hleft, hend.calls, hsecond⟩⟩

/-- Whatever the original comes to, the moved function comes to. -/
theorem Meets.run (n : Nat) : ∀ {c c' : Config V}, p.Meets g I c c' →
    ∃ m, callsOf (g.run I m c') = callsOf (p.func.run I n c) ∧ ∀ r, p.func.run I n c = .inr r →
      g.run I m c' = .inr r := by
  induction n with
  | zero => exact fun hc => ⟨0, hc.calls, fun r hr => by cases hr⟩
  | succ n ih =>
    intro c c' hc
    cases hstep : p.func.step I c with
    | inr r =>
      exact ⟨1, by rw [Func.run_of_inr hstep, Func.run_of_inr (hc.step_inr h hm hfix hstep)],
        fun r' hr => by
        rw [Func.run_of_inr hstep] at hr
        rw [Func.run_of_inr (hc.step_inr h hm hfix hstep), hr]⟩
    | inl d =>
      obtain ⟨d', hd, hone | ⟨m, hone, -, htwo⟩⟩ := hc.step_inl h hm hfix hstep
      · obtain ⟨k, hk⟩ := ih hd
        refine ⟨k + 1, ?_⟩
        rwa [Func.run_of_inl hstep, Func.run_of_inl hone]
      · obtain ⟨k, hk⟩ := ih hd
        refine ⟨k + 2, ?_⟩
        rwa [Func.run_of_inl hstep, Func.run_of_inl hone, Func.run_of_inl htwo]

/-- Whatever the moved function comes to, the original comes to. -/
theorem Meets.run_back (m : Nat) : ∀ {c c' : Config V}, p.Meets g I c c' →
    ∃ n, callsOf (p.func.run I n c) = callsOf (g.run I m c') ∧ ∀ r, g.run I m c' = .inr r →
      p.func.run I n c = .inr r := by
  induction m using Nat.strong_induction_on with
  | _ m ih =>
    intro c c' hc
    cases m with
    | zero => exact ⟨0, hc.calls.symm, fun r hr => by cases hr⟩
    | succ m =>
      cases hstep : p.func.step I c with
      | inr r =>
        have hstep' := hc.step_inr h hm hfix hstep
        exact ⟨1, by rw [Func.run_of_inr hstep, Func.run_of_inr hstep'], fun r' hr => by
          rw [Func.run_of_inr hstep'] at hr
          rw [Func.run_of_inr hstep, hr]⟩
      | inl d =>
        obtain ⟨d', hd, hone | ⟨a, hone, hcalls, htwo⟩⟩ := hc.step_inl h hm hfix hstep
        · obtain ⟨n, hn⟩ := ih m (Nat.lt_succ_self m) hd
          refine ⟨n + 1, ?_⟩
          rwa [Func.run_of_inl hstep, Func.run_of_inl hone]
        · cases m with
          | zero =>
            -- the moved function stands in front of the block on the edge
            refine ⟨1, ?_⟩
            rw [Func.run_of_inl hstep, Func.run_of_inl hone]
            exact ⟨hcalls.symm, fun r hr => by cases hr⟩
          | succ m =>
            obtain ⟨n, hn⟩ := ih m (by omega) hd
            refine ⟨n + 1, ?_⟩
            rwa [Func.run_of_inl hstep, Func.run_of_inl hone, Func.run_of_inl htwo]

/-- Code motion keeps the meaning of a function. -/
theorem Moved.sameMeaning : p.func.SameMeaning g := by
  intro V I σ
  have hentry : ∀ b, b ∈ p.func.entry? → p.Meets g I ⟨b, none, σ⟩ ⟨b, none, σ⟩ := by
    intro b hb
    obtain ⟨π, k, hπ, hk, hnil⟩ := h.exists_path (.entry hb)
    rw [List.map_eq_nil_iff] at hnil
    subst hk
    cases hπ with
    | entry h0 => exact ⟨0, ⟨[], .entry h0⟩, rfl, rfl, .start h hm h0 σ⟩
    | step _ _ => simp at hnil
  unfold Func.Ends Func.Emits
  rw [hm.entry h]
  refine ⟨fun r => exists_congr fun b => and_congr_right fun hb => ⟨?_, ?_⟩,
    fun l => exists_congr fun b => and_congr_right fun hb => ⟨?_, ?_⟩⟩
  · rintro ⟨m, hr⟩
    obtain ⟨n, -, hn⟩ := (hentry b hb).run_back h hm hfix m
    exact ⟨n, hn r hr⟩
  · rintro ⟨n, hr⟩
    obtain ⟨m, -, hm'⟩ := (hentry b hb).run h hm hfix n
    exact ⟨m, hm' r hr⟩
  · rintro ⟨m, rfl⟩
    obtain ⟨n, hn, -⟩ := (hentry b hb).run_back h hm hfix m
    exact ⟨n, hn⟩
  · rintro ⟨n, rfl⟩
    obtain ⟨m, hm', -⟩ := (hentry b hb).run h hm hfix n
    exact ⟨m, hm'⟩

end Step
end Plan

namespace Workspace

variable {w : Workspace} {o : Options} {f : Nat}

/-- A run of the optimizer with single insertion comes to an end and keeps the meaning of a sound
function whose addresses are not computed. -/
theorem optimize_sameMeaning (hv : (w.func f).verify = .ok none) (ht : (w.func f).Tidy)
    (hfix : (w.func f).FixedAddresses) (htr : o.trace = .off) (hs : o.singleInsertion = true) :
    ∃ res err w', optimize o f w = .ok (res, err) w' ∧ (w.func f).SameMeaning (w'.func f) := by
  obtain ⟨res, err, w', hrun, hcases⟩ := optimize_ok hv ht htr hs
  refine ⟨res, err, w', hrun, ?_⟩
  rcases hcases with ⟨hfunc, -⟩ | ⟨hne, c, s, ha, hm, -⟩
  · rw [hfunc]
    exact .refl _
  · exact hm.sameMeaning (ha.valid (ht.sound hv hne) hs).clean hfix

/-- The store that is moved out of the loop to where there is no slot yet still writes the
same cell. -/
theorem optimize_sameMeaning_slot : (slot.verify = .ok none ∧ slot.Tidy ∧ slot.FixedAddresses) ∧
    ∃ res err w', optimize {} 0 { funcs := #[slot] } = .ok (res, err) w' ∧
      slot.SameMeaning (w'.func 0) :=
  ⟨by decide +kernel, optimize_sameMeaning (w := { funcs := #[slot] }) (f := 0) (o := {})
    (by decide +kernel) (by decide +kernel) (by decide +kernel) rfl rfl⟩

end Workspace
end CodeMotion
