import Mathlib
import CodeMotion.Proofs.Alike
import CodeMotion.Proofs.Deletion

/-! Two analyses of functions with the same code agree on every block and every edge that both have.
What can miss in one of them misses along a way from the entry or to an exit, and such a way is a
way of the other as well. -/

namespace CodeMotion

/-- A way on which a fact is missed can be followed in another problem if the nodes on it have
counterparts there. -/
theorem Flow.Missed.transfer {p p' : Flow} (hp : p.Regular) {R : Nat → Nat → Prop} {f f' : Nat}
    (hpin : ∀ {j j'}, R j j' → p.pinned j = true → p'.pinned j' = true)
    (hsource : ∀ {j j' i}, R j j' → i ∈ p.sources j → p.Reached i → ∃ i', R i i' ∧
      i' ∈ p'.sources j' ∧ p'.Reached i') (hgen : ∀ {i i'}, R i i' → f' ∈ p'.gen i' → f ∈ p.gen i)
    (hkill : ∀ {i i'}, R i i' → f ∈ p.kill i → f' ∈ p'.kill i') {j j' : Nat} (h : p.Missed f j)
    (hj : j < p.size) (hr : R j j') : p'.Missed f' j' := by
  induction h generalizing j' with
  | pinned hpinned => exact .pinned (hpin hr hpinned)
  | killed hi hs hk hg =>
    obtain ⟨i', hi', hs', hr'⟩ := hsource hr hs hi
    exact .killed hr' hs' (hkill hi' hk) fun hg' => hg (hgen hi' hg')
  | passed hi hs hg ih =>
    have hlt := hp.sources_lt _ hj _ hs
    obtain ⟨i', hi', hs', -⟩ := hsource hr hs (hi.reached hp hlt)
    exact .passed (ih hlt hi') hs' fun hg' => hg (hgen hi' hg')

namespace Context

variable {fn fn' : Func} {c c' c₀ : Context} {s s' : Sets} {k k' j j' x x' e e' : Nat}

/-- What waits at a node is what no way to it lets lapse. -/
theorem Solved.mem_laterIn_iff (h : Solved fn c₀ c s) (hk : k < c.nodes.size) :
    e ∈ s.laterIn.of k ↔ e < c.catalog.size ∧ ¬ ∃ π, c.Lapsed s.up s.earliest e π k := by
  have hlapsed : ∀ {π : List Nat} {k : Nat}, c.Lapsed s.up s.earliest e π k →
      e ∉ s.laterIn.of k := by
    intro π k hl
    induction hl with
    | entry _ => exact h.not_mem_laterIn_zero
    | @used π x hπ hx hu hne =>
      intro hin
      have h0 : (c.edge x).target ≠ 0 := fun h0 => h.not_mem_laterIn_zero (h0 ▸ hin)
      have hlater := ((h.mem_laterIn ⟨_, .step hπ hx⟩ h0).1 hin).2 x hx rfl
      rcases (h.mem_later hx ⟨_, hπ⟩).1 hlater with he | ⟨-, hnu⟩
      · exact hne he
      · exact hnu hu
    | @passed π x hl hx hne ih =>
      intro hin
      have h0 : (c.edge x).target ≠ 0 := fun h0 => h.not_mem_laterIn_zero (h0 ▸ hin)
      have hlater := ((h.mem_laterIn ⟨_, .step hl.path hx⟩ h0).1 hin).2 x hx rfl
      rcases (h.mem_later hx ⟨_, hl.path⟩).1 hlater with he | ⟨hwait, -⟩
      · exact hne he
      · exact ih hwait
  constructor
  · intro he
    refine ⟨?_, fun ⟨π, hπ⟩ => hlapsed hπ he⟩
    rw [← h.numbered.fits.laterIn.2 k hk]
    exact BitSet.lt_size he
  · rintro ⟨hlt, hnone⟩
    by_contra he
    exact hnone (h.delayed.lapsed k hk e hlt he)

theorem Solved.not_mem_earliest (h : Solved fn c₀ c s) (hx : x < c.edges.size)
    (hr : ¬ c.Reach (c.edge x).source) : e ∉ s.earliest.of x := by
  have hmark : (c.node (c.edge x).source).isReachable = false := by
    rw [← Bool.not_eq_true, h.marked.reachable_iff _ (h.wired.source_lt x hx)]
    exact hr
  rw [h.earliest x hx]
  simp [earliestOn, hmark, BitSet.not_mem_empty]

structure Twin (c c' : Context) (k k' : Nat) : Prop where
  lt : k < c.nodes.size
  lt' : k' < c'.nodes.size
  block : (c'.node k').block = (c.node k).block

theorem Twin.symm (h : Twin c c' k k') : Twin c' c k' k := ⟨h.lt', h.lt, h.block.symm⟩

structure TwinEdge (c c' : Context) (x x' : Nat) : Prop where
  lt : x < c.edges.size
  lt' : x' < c'.edges.size
  source : Twin c c' (c.edge x).source (c'.edge x').source
  target : Twin c c' (c.edge x).target (c'.edge x').target

theorem TwinEdge.symm (h : TwinEdge c c' x x') : TwinEdge c' c x' x :=
  ⟨h.lt', h.lt, h.source.symm, h.target.symm⟩

structure Paired (fn fn' : Func) (c c' : Context) (s s' : Sets) : Prop where
  alike : fn.Alike fn'
  options : c'.options = c.options
  left : ∃ c₀, Solved fn c₀ c s ∧ Decided c s
  right : ∃ c₀, Solved fn' c₀ c' s' ∧ Decided c' s'

/-- Two sets have the same of the expressions that both catalogs know. -/
def Agree (fn fn' : Func) (c c' : Context) (a b : BitSet) : Prop :=
  ∀ e e', Catalog.Match fn fn' c.catalog c'.catalog e e' → (e ∈ a ↔ e' ∈ b)

namespace Paired

theorem symm (h : Paired fn fn' c c' s s') : Paired fn' fn c' c s' s :=
  ⟨h.alike.symm, h.options.symm, h.right, h.left⟩

variable (h : Paired fn fn' c c' s s')
include h

/-! Twins among the nodes and edges. -/

theorem charts : Charts fn c := h.left.elim fun _ hs => hs.1.charts h.alike.enclosed

theorem twin_unique (hk : Twin c c' k k') (hj : Twin c c' k j') : k' = j' :=
  h.symm.charts.block_inj hk.lt' hj.lt' (hk.block.trans hj.block.symm)

theorem exists_twin (hk : k < c.nodes.size) (hb : (c.node k).block ∈ fn'.layout) :
    ∃ k', Twin c c' k k' := by
  obtain ⟨k', hk', hb'⟩ := h.symm.charts.exists_node hb
  exact ⟨k', hk, hk', hb'⟩

theorem reach_iff (hk : Twin c c' k k') : c.Reach k ↔ c'.Reach k' := by
  rw [h.charts.reach_iff hk.lt, h.symm.charts.reach_iff hk.lt', hk.block, h.alike.preOrder]

theorem exists_twin_of_reach (hr : c.Reach k) : ∃ k', Twin c c' k k' := by
  obtain ⟨π, hπ⟩ := hr
  have hk := hπ.lt h.charts.wired
  have hb := (h.charts.reach_iff hk).1 ⟨π, hπ⟩
  rw [← h.alike.preOrder] at hb
  exact h.exists_twin hk (h.alike.enclosed'.attached hb)

theorem eq_zero (hk : Twin c c' k k') (h0 : k = 0) : k' = 0 := by
  subst h0
  have he := h.charts.entry hk.lt
  rw [← h.alike.entry?] at he
  obtain ⟨h0, hb⟩ := h.symm.charts.entry_node he
  exact h.twin_unique hk ⟨hk.lt, h0, hb⟩

theorem isPinned (hk : Twin c c' k k') (hp : (c.node k).isPinned = true) :
    (c'.node k').isPinned = true := by
  rw [h.charts.isPinned_iff hk.lt] at hp
  rw [h.symm.charts.isPinned_iff hk.lt', hk.block, h.alike.succs, h.alike.exits]
  exact hp

theorem exists_twinEdge (hx : x < c.edges.size) (hk : Twin c c' (c.edge x).source k') :
    ∃ x', TwinEdge c c' x x' ∧ (c'.edge x').source = k' := by
  have hl := h.charts.leads hx
  rw [← h.alike.leads, ← hk.block] at hl
  obtain ⟨x', hx', rfl, ht⟩ := h.symm.charts.exists_edge hk.lt' hl
  exact ⟨x', ⟨hx, hx', hk, h.charts.wired.target_lt x hx, h.symm.charts.wired.target_lt x' hx', ht⟩,
    rfl⟩

/-- An edge into a node has a twin into the twin of the node if it comes from a reachable one. -/
theorem exists_twinEdge_into (hx : x < c.edges.size) (hr : c.Reach (c.edge x).source)
    (hk : Twin c c' (c.edge x).target k') :
    ∃ x', TwinEdge c c' x x' ∧ (c'.edge x').target = k' := by
  obtain ⟨i', hi'⟩ := h.exists_twin_of_reach hr
  obtain ⟨x', hx', -⟩ := h.exists_twinEdge hx hi'
  exact ⟨x', hx', h.twin_unique hx'.target hk⟩

/-- A block that both functions have is found in both analyses. -/
theorem nodeOf_twin {b : BlockId} (hb : b ∈ fn.layout) (hb' : b ∈ fn'.layout) :
    ∃ k k', c.nodeOf fn b = .ok k ∧ c'.nodeOf fn' b = .ok k' ∧ Twin c c' k k' := by
  obtain ⟨k, hk, rfl⟩ := h.charts.exists_node hb
  obtain ⟨k', hk'⟩ := h.exists_twin hk hb'
  have hnode' := h.symm.charts.nodeOf_block hk'.lt'
  rw [hk'.block] at hnode'
  exact ⟨k, k', h.charts.nodeOf_block hk, hnode', hk'⟩

theorem edgeOf_twin {a b : BlockId} (ha : a ∈ fn.layout) (ha' : a ∈ fn'.layout)
    (hb : b ∈ fn.succs a) :
    ∃ x x', c.edgeOf fn a b = .ok (some x) ∧ c'.edgeOf fn' a b = .ok (some x') ∧
      TwinEdge c c' x x' := by
  obtain ⟨k, hk, rfl⟩ := h.charts.exists_node ha
  obtain ⟨k', hk'⟩ := h.exists_twin hk ha'
  obtain ⟨x, hx, rfl, rfl⟩ := h.charts.exists_edge hk hb
  obtain ⟨x', hx', -⟩ := h.exists_twinEdge hx hk'
  have hedge' := h.symm.charts.edgeOf_edge hx'.lt'
  rw [hx'.source.block, hx'.target.block] at hedge'
  exact ⟨x, x', h.charts.edgeOf_edge hx, hedge', hx'⟩

/-! The local sets. -/

theorem lawful : c.catalog.Lawful fn := h.left.elim fun _ hs => hs.1.numbered.lawful

theorem body (hk : Twin c c' k k') : c'.body fn' k' = c.body fn k := by
  rw [Context.body, hk.block, h.alike.body, Context.body]

variable (hm : Catalog.Match fn fn' c.catalog c'.catalog e e')
include hm

theorem mem_exprs (hk : Twin c c' k k') : e ∈ s.exprs.of k ↔ e' ∈ s'.exprs.of k' := by
  obtain ⟨_, hs, -⟩ := h.left
  obtain ⟨_, hs', -⟩ := h.right
  rw [hs.numbered.mem_exprs k hk.lt, hs'.numbered.mem_exprs k' hk.lt', h.body hk]
  exact hm.occurs h.alike h.lawful h.symm.lawful _

theorem mem_kill (hk : Twin c c' k k') : e ∈ s.kill.of k ↔ e' ∈ s'.kill.of k' := by
  obtain ⟨_, hs, -⟩ := h.left
  obtain ⟨_, hs', -⟩ := h.right
  rw [(hs.exposed k hk.lt).kill, (hs'.exposed k' hk.lt').kill, hk.block, h.alike.listed]
  simp only [hm.kills h.alike h.lawful h.symm.lawful]

theorem mem_down (hk : Twin c c' k k') : e ∈ s.down.of k ↔ e' ∈ s'.down.of k' := by
  obtain ⟨_, hs, -⟩ := h.left
  obtain ⟨_, hs', -⟩ := h.right
  rw [(hs.exposed k hk.lt).down, (hs'.exposed k' hk.lt').down, h.body hk,
    hm.before h.alike h.lawful h.symm.lawful]
  simp only [hm.occurs h.alike h.lawful h.symm.lawful, hm.kills h.alike h.lawful h.symm.lawful]

theorem mem_up (hk : Twin c c' k k') : e ∈ s.up.of k ↔ e' ∈ s'.up.of k' := by
  obtain ⟨_, hs, -⟩ := h.left
  obtain ⟨_, hs', -⟩ := h.right
  rw [(hs.exposed k hk.lt).up, (hs'.exposed k' hk.lt').up, h.body hk, hk.block, h.alike.phis,
    hm.before h.alike h.lawful h.symm.lawful]
  simp only [hm.occurs h.alike h.lawful h.symm.lawful, hm.kills h.alike h.lawful h.symm.lawful]

/-! What is available. -/

theorem missed_availability (hk : Twin c c' k k') (hl : (c.availability s).Missed e k) :
    (c'.availability s').Missed e' k' := by
  obtain ⟨_, hs, -⟩ := h.left
  obtain ⟨_, hs', -⟩ := h.right
  refine Flow.Missed.transfer (R := Twin c c') (regular_availability hs.wired hs.numbered.fits.down)
    (fun hj hp => ?_)
    (fun {j j' i} hj hi hr => ?_) (fun hi => (h.mem_down hm hi).2) (fun hi =>
      (h.mem_kill hm hi).1) hl hk.lt hk
  · simp only [availability, beq_iff_eq] at hp ⊢
    exact h.eq_zero hj hp
  · obtain ⟨x, hx, rfl⟩ := List.mem_map.1 hi
    obtain ⟨hlt, rfl⟩ := (hs.wired.mem_pred j hj.lt x).1 hx
    obtain ⟨x', hx', rfl⟩ := h.exists_twinEdge_into hlt (path_of_reached hs.wired hr) hj
    obtain ⟨π, hπ⟩ := (h.reach_iff hx'.source).1 (path_of_reached hs.wired hr)
    refine ⟨_, hx'.source, List.mem_map.2 ⟨x', ?_, rfl⟩, reached_availability hs'.wired hπ⟩
    exact (hs'.wired.mem_pred _ hj.lt' x').2 ⟨hx'.lt', rfl⟩

theorem mem_availIn (hk : Twin c c' k k') : e ∈ s.availIn.of k ↔ e' ∈ s'.availIn.of k' := by
  obtain ⟨_, hs, -⟩ := h.left
  obtain ⟨_, hs', -⟩ := h.right
  have hin :=
    hs.avail.mem_entry (f := e) (regular_availability hs.wired hs.numbered.fits.down) hk.lt
  have hin' :=
    hs'.avail.mem_entry (f := e') (regular_availability hs'.wired hs'.numbered.fits.down) hk.lt'
  have hmissed : (c.availability s).Missed e k ↔ (c'.availability s').Missed e' k' :=
    ⟨h.missed_availability hm hk, h.symm.missed_availability hm.symm hk.symm⟩
  rw [hin, hin', hmissed]
  exact and_congr_left fun _ => ⟨fun _ => hm.symm.lt, fun _ => hm.lt⟩

theorem mem_availOut (hk : Twin c c' k k') : e ∈ s.availOut.of k ↔ e' ∈ s'.availOut.of k' := by
  obtain ⟨_, hs, -⟩ := h.left
  obtain ⟨_, hs', -⟩ := h.right
  by_cases hr : c.Reach k
  · rw [hs.mem_availOut hr, hs'.mem_availOut ((h.reach_iff hk).1 hr), h.mem_down hm hk,
      h.mem_availIn hm hk, h.mem_kill hm hk]
  · have hr' : ¬ c'.Reach k' := fun hr' => hr ((h.reach_iff hk).2 hr')
    have hfull :=
      hs.avail.exit_full k hk.lt (fun hreached => hr (path_of_reached hs.wired hreached)) e hm.lt
    have hfull' :=
      hs'.avail.exit_full k' hk.lt' (fun hreached => hr' (path_of_reached hs'.wired hreached)) e'
        hm.symm.lt
    exact ⟨fun _ => hfull', fun _ => hfull⟩

/-! What is anticipated. -/

theorem missed_anticipability (hk : Twin c c' k k') (hl : (c.anticipability s).Missed e k) :
    (c'.anticipability s').Missed e' k' := by
  obtain ⟨_, hs, -⟩ := h.left
  obtain ⟨_, hs', -⟩ := h.right
  refine Flow.Missed.transfer (R := Twin c c') (regular_anticipability hs.wired hs.numbered.fits.up)
    (fun hj hp => h.isPinned hj hp)
    (fun {j j' i} hj hi _ => ?_) (fun hi => (h.mem_up hm hi).2) (fun hi =>
      (h.mem_kill hm hi).1) hl hk.lt hk
  obtain ⟨x, hx, rfl⟩ := List.mem_map.1 hi
  obtain ⟨hlt, rfl⟩ := (hs.wired.mem_succ j hj.lt x).1 hx
  obtain ⟨x', hx', rfl⟩ := h.exists_twinEdge hlt hj
  refine ⟨_, hx'.target, List.mem_map.2 ⟨x', ?_, rfl⟩,
    reached_anticipability hs'.wired (hs'.marked.ends _ hx'.target.lt')⟩
  exact (hs'.wired.mem_succ _ hj.lt' x').2 ⟨hx'.lt', rfl⟩

theorem mem_antOut (hk : Twin c c' k k') : e ∈ s.antOut.of k ↔ e' ∈ s'.antOut.of k' := by
  obtain ⟨_, hs, -⟩ := h.left
  obtain ⟨_, hs', -⟩ := h.right
  have hout := hs.ant.mem_entry (f := e) (regular_anticipability hs.wired hs.numbered.fits.up) hk.lt
  have hout' :=
    hs'.ant.mem_entry (f := e') (regular_anticipability hs'.wired hs'.numbered.fits.up) hk.lt'
  have hmissed : (c.anticipability s).Missed e k ↔ (c'.anticipability s').Missed e' k' :=
    ⟨h.missed_anticipability hm hk, h.symm.missed_anticipability hm.symm hk.symm⟩
  rw [hout, hout', hmissed]
  exact and_congr_left fun _ => ⟨fun _ => hm.symm.lt, fun _ => hm.lt⟩

theorem mem_antIn (hk : Twin c c' k k') : e ∈ s.antIn.of k ↔ e' ∈ s'.antIn.of k' := by
  obtain ⟨_, hs, -⟩ := h.left
  obtain ⟨_, hs', -⟩ := h.right
  rw [hs.mem_antIn hk.lt, hs'.mem_antIn hk.lt', h.mem_up hm hk, h.mem_antOut hm hk,
    h.mem_kill hm hk]

/-! Where copies go. -/

theorem mem_earliest (hx : TwinEdge c c' x x') : e ∈ s.earliest.of x ↔ e' ∈ s'.earliest.of x' := by
  obtain ⟨_, hs, -⟩ := h.left
  obtain ⟨_, hs', -⟩ := h.right
  by_cases hr : c.Reach (c.edge x).source
  · have hzero : (c.edge x).source = 0 ↔ (c'.edge x').source = 0 :=
      ⟨h.eq_zero hx.source, h.symm.eq_zero hx.source.symm⟩
    rw [hs.mem_earliest hx.lt hr, hs'.mem_earliest hx.lt' ((h.reach_iff hx.source).1 hr),
      h.mem_antIn hm hx.target,
      h.mem_availOut hm hx.source, h.mem_antOut hm hx.source, h.mem_kill hm hx.source,
        ne_eq, ne_eq, hzero]
  · have hr' : ¬ c'.Reach (c'.edge x').source := fun hr' => hr ((h.reach_iff hx.source).2 hr')
    exact ⟨fun he => absurd he (hs.not_mem_earliest hx.lt hr),
      fun he => absurd he (hs'.not_mem_earliest hx.lt' hr')⟩

/-- A way on which an expression lapses. The induction is on the way: each of its nodes is reachable
and so has a twin. -/
theorem lapsed {π : List Nat} (hk : Twin c c' k k') (hl : c.Lapsed s.up s.earliest e π k) :
    ∃ π', c'.Lapsed s'.up s'.earliest e' π' k' := by
  induction hl generalizing k' with
  | entry h0 =>
    rw [h.eq_zero hk rfl]
    exact ⟨[], .entry (Nat.zero_lt_of_lt hk.lt')⟩
  | @used π x hπ hx hu hne =>
    obtain ⟨x', hx', rfl⟩ := h.exists_twinEdge_into hx ⟨π, hπ⟩ hk
    obtain ⟨π', hπ'⟩ := (h.reach_iff hx'.source).1 ⟨π, hπ⟩
    exact ⟨_, .used hπ' hx'.lt' ((h.mem_up hm hx'.source).1 hu) fun he =>
      hne ((h.mem_earliest hm hx').2 he)⟩
  | @passed π x hl hx hne ih =>
    obtain ⟨x', hx', rfl⟩ := h.exists_twinEdge_into hx ⟨π, hl.path⟩ hk
    obtain ⟨π', hπ'⟩ := ih hx'.source
    exact ⟨_, .passed hπ' hx'.lt' fun he => hne ((h.mem_earliest hm hx').2 he)⟩

theorem mem_laterIn (hk : Twin c c' k k') : e ∈ s.laterIn.of k ↔ e' ∈ s'.laterIn.of k' := by
  obtain ⟨_, hs, -⟩ := h.left
  obtain ⟨_, hs', -⟩ := h.right
  have hlapsed : (∃ π, c.Lapsed s.up s.earliest e π k) ↔ ∃ π, c'.Lapsed s'.up s'.earliest e' π k' :=
    ⟨fun ⟨_, hπ⟩ => h.lapsed hm hk hπ, fun ⟨_, hπ⟩ => h.symm.lapsed hm.symm hk.symm hπ⟩
  rw [hs.mem_laterIn_iff hk.lt, hs'.mem_laterIn_iff hk.lt', hlapsed]
  exact and_congr_left fun _ => ⟨fun _ => hm.symm.lt, fun _ => hm.lt⟩

theorem mem_later (hx : TwinEdge c c' x x') : e ∈ s.later.of x ↔ e' ∈ s'.later.of x' := by
  obtain ⟨_, hs, -⟩ := h.left
  obtain ⟨_, hs', -⟩ := h.right
  by_cases hr : c.Reach (c.edge x).source
  · rw [hs.mem_later hx.lt hr, hs'.mem_later hx.lt' ((h.reach_iff hx.source).1 hr),
      h.mem_earliest hm hx, h.mem_laterIn hm hx.source,
      h.mem_up hm hx.source]
  · have hr' : ¬ c'.Reach (c'.edge x').source := fun hr' => hr ((h.reach_iff hx.source).2 hr')
    exact ⟨fun _ => hs'.delayed.later_full x' hx.lt' hr' e' hm.symm.lt,
      fun _ => hs.delayed.later_full x hx.lt hr e hm.lt⟩

theorem mem_insertOn (hx : TwinEdge c c' x x') : e ∈ c.insertOn s x ↔ e' ∈ c'.insertOn s' x' := by
  obtain ⟨_, hs, -⟩ := h.left
  obtain ⟨_, hs', -⟩ := h.right
  rw [hs.mem_insertOn hx.lt, hs'.mem_insertOn hx.lt', h.reach_iff hx.source, h.mem_later hm hx,
    h.mem_laterIn hm hx.target]

theorem mem_deleteIn (hk : Twin c c' k k') : e ∈ c.deleteIn s k ↔ e' ∈ c'.deleteIn s' k' := by
  obtain ⟨_, hs, -⟩ := h.left
  obtain ⟨_, hs', -⟩ := h.right
  have hzero : k = 0 ↔ k' = 0 := ⟨h.eq_zero hk, h.symm.eq_zero hk.symm⟩
  rw [hs.mem_deleteIn hk.lt, hs'.mem_deleteIn hk.lt', ne_eq, ne_eq, hzero, h.reach_iff hk,
    h.mem_up hm hk, h.mem_laterIn hm hk]

/-- Whether the motion of a value is carried out depends on insertions and deletions at reachable
places only, and those have twins. -/
theorem carried (hc : c.Carried s e) : c'.Carried s' e' := by
  obtain ⟨_, hs, -⟩ := h.left
  obtain ⟨_, hs', -⟩ := h.right
  intro hopt n' hn' hres
  obtain ⟨n, hn, hx⟩ := hm.symm.entries hn'
  have hop : n.op = n'.op := congrArg Expression.op hx
  obtain ⟨⟨x, ⟨hlt, hins⟩, huniq⟩, k, hk, hdel⟩ := hc (h.options ▸ hopt) n hn (hop ▸ hres)
  constructor
  · obtain ⟨i', hi'⟩ := h.exists_twin_of_reach ((hs.mem_insertOn hlt).1 hins).1
    obtain ⟨x', hx', -⟩ := h.exists_twinEdge hlt hi'
    refine ⟨x', ⟨hx'.lt', (h.mem_insertOn hm hx').1 hins⟩, fun y' hy' => ?_⟩
    -- a second place would come from a second place on the other side
    obtain ⟨hylt', hyins'⟩ := hy'
    obtain ⟨i, hi⟩ := h.symm.exists_twin_of_reach ((hs'.mem_insertOn hylt').1 hyins').1
    obtain ⟨y, hy, -⟩ := h.symm.exists_twinEdge hylt' hi
    have hyx : y = x := huniq y ⟨hy.lt', (h.mem_insertOn hm hy.symm).2 hyins'⟩
    subst hyx
    exact h.symm.charts.edge_inj hylt' hx'.lt' (h.twin_unique hy.symm.source hx'.source)
      (h.twin_unique hy.symm.target hx'.target)
  · obtain ⟨k', hk'⟩ := h.exists_twin_of_reach ((hs.mem_deleteIn hk).1 hdel).2.1
    exact ⟨k', hk'.lt', (h.mem_deleteIn hm hk').1 hdel⟩

theorem carried_iff : c.Carried s e ↔ c'.Carried s' e' := ⟨h.carried hm, h.symm.carried hm.symm⟩

omit hm

/-- All sets of a block agree. -/
theorem ofNode_agree (hk : Twin c c' k k') :
    List.Forall₂ (Agree fn fn' c c') (s.ofNode k) (s'.ofNode k') := by
  obtain ⟨_, hs, hdec⟩ := h.left
  obtain ⟨_, hs', hdec'⟩ := h.right
  have hdelete : Agree fn fn' c c' (s.delete.of k) (s'.delete.of k') := fun e e' hm => by
    rw [hdec.delete_iff k hk.lt, hdec'.delete_iff k' hk.lt', h.mem_deleteIn hm hk, h.carried_iff hm]
  simp only [Sets.ofNode, List.map_cons, List.map_nil, List.forall₂_cons,
    List.Forall₂.nil, and_true]
  exact ⟨fun _ _ hm => h.mem_exprs hm hk, fun _ _ hm => h.mem_kill hm hk, fun _ _ hm =>
    h.mem_down hm hk, fun _ _ hm => h.mem_up hm hk,
    fun _ _ hm => h.mem_availIn hm hk, fun _ _ hm => h.mem_availOut hm hk, fun _ _ hm =>
      h.mem_antIn hm hk,
    fun _ _ hm => h.mem_antOut hm hk, fun _ _ hm => h.mem_laterIn hm hk, hdelete⟩

/-- All sets of an edge agree. -/
theorem ofEdge_agree (hx : TwinEdge c c' x x') :
    List.Forall₂ (Agree fn fn' c c') (s.ofEdge x) (s'.ofEdge x') := by
  obtain ⟨_, hs, hdec⟩ := h.left
  obtain ⟨_, hs', hdec'⟩ := h.right
  have hinsert : Agree fn fn' c c' (s.insert.of x) (s'.insert.of x') := fun e e' hm => by
    rw [hdec.insert_iff x hx.lt, hdec'.insert_iff x' hx.lt', h.mem_insertOn hm hx, h.carried_iff hm]
  simp only [Sets.ofEdge, List.map_cons, List.map_nil, List.forall₂_cons,
    List.Forall₂.nil, and_true]
  exact ⟨fun _ _ hm => h.mem_earliest hm hx, fun _ _ hm => h.mem_later hm hx, hinsert⟩

end Paired

theorem Answers.cataloged {o : Options} (h : Answers fn o c s) (he : fn.Enclosed) :
    fn.Cataloged c.catalog := by
  obtain ⟨_, h₀, hc, -⟩ := h
  exact (ofFunc_fresh h₀).1.cataloged_of_analyze he hc

theorem Answers.paired {o : Options} (h : Answers fn o c s) (h' : Answers fn' o c' s')
    (hf : fn.Alike fn') : Paired fn fn' c c' s s' := by
  obtain ⟨c₀, ho, hs⟩ := h.solved
  obtain ⟨c₀', ho', hs'⟩ := h'.solved
  exact ⟨hf, ho'.trans ho.symm, ⟨c₀, hs⟩, ⟨c₀', hs'⟩⟩

end Context
end CodeMotion
