import Mathlib
import CodeMotion.Context.Phase
import CodeMotion.Proofs.Delay
import CodeMotion.Proofs.Exposure
import CodeMotion.Proofs.Flow

/-! An analysis that ends leaves sets that solve all its equations: availability, anticipability,
the earliest edges and the delay. Insertions and deletions are what the equations say, except that
the motion of a value may have been cancelled as a whole. -/

namespace CodeMotion

namespace Flow.Solution

variable {p : Flow} {s : State}

theorem entry_fits (h : p.Solution s) : s.entry.Fits p.size p.width := ⟨h.entry_count, h.entry_size⟩

theorem exit_fits (h : p.Solution s) : s.exit.Fits p.size p.width := ⟨h.exit_count, h.exit_size⟩

end Flow.Solution

namespace Context

variable {fn : Func} {c c₀ d : Context} {s : Sets} {k x : Nat}

/-- One node follows another along an edge exactly if that one comes before it along an edge. -/
theorem Wired.follows_iff (hc : c.Wired) {i j : Nat} (hi : i < c.nodes.size)
    (hj : j < c.nodes.size) :
    j ∈ (c.node i).succ.map (fun x => (c.edge x).target) ↔
      i ∈ (c.node j).pred.map (fun x => (c.edge x).source) := by
  simp only [List.mem_map, hc.mem_succ i hi, hc.mem_pred j hj]
  constructor
  · rintro ⟨x, ⟨hx, rfl⟩, rfl⟩
    exact ⟨x, ⟨hx, rfl⟩, rfl⟩
  · rintro ⟨x, ⟨hx, rfl⟩, rfl⟩
    exact ⟨x, ⟨hx, rfl⟩, rfl⟩

theorem regular_availability (hc : c.Wired) (hs : s.down.Fits c.nodes.size c.catalog.size) :
    (c.availability s).Regular where
  sinks_lt i hi j hj := by
    obtain ⟨x, hx, rfl⟩ := List.mem_map.1 hj
    exact hc.target_lt x ((hc.mem_succ i hi x).1 hx).1
  mem_sinks i hi j hj := hc.follows_iff hi hj
  sources_lt j hj i hi := by
    obtain ⟨x, hx, rfl⟩ := List.mem_map.1 hi
    exact hc.source_lt x ((hc.mem_pred j hj x).1 hx).1
  gen_size := hs.2

theorem regular_anticipability (hc : c.Wired) (hs : s.up.Fits c.nodes.size c.catalog.size) :
    (c.anticipability s).Regular where
  sinks_lt i hi j hj := by
    obtain ⟨x, hx, rfl⟩ := List.mem_map.1 hj
    exact hc.source_lt x ((hc.mem_pred i hi x).1 hx).1
  mem_sinks i hi j hj := (hc.follows_iff hj hi).symm
  sources_lt j hj i hi := by
    obtain ⟨x, hx, rfl⟩ := List.mem_map.1 hi
    exact hc.target_lt x ((hc.mem_succ j hj x).1 hx).1
  gen_size := hs.2

/-- Availability is solved where paths from the entry lead. -/
theorem reached_availability (hc : c.Wired) {π : List Nat} (h : c.Path π k) :
    (c.availability s).Reached k := by
  induction h with
  | entry h0 => exact .seed h0 rfl
  | @step π x hp hx ih =>
    refine ih.next (List.mem_map.2 ⟨x, ?_, rfl⟩)
    exact (hc.mem_succ _ (hp.lt hc) x).2 ⟨hx, rfl⟩

theorem path_of_reached (hc : c.Wired) (h : (c.availability s).Reached k) : ∃ π, c.Path π k := by
  induction h with
  | @seed i hi hp =>
    have : i = 0 := by simpa [availability] using hp
    subst this
    exact ⟨[], .entry hi⟩
  | @next i j _ hj ih =>
    obtain ⟨π, hπ⟩ := ih
    obtain ⟨x, hx, rfl⟩ := List.mem_map.1 hj
    obtain ⟨hlt, rfl⟩ := (hc.mem_succ i (hπ.lt hc) x).1 hx
    exact ⟨π ++ [x], .step hπ hlt⟩

/-- Anticipability is solved where paths to a pinned node start. -/
theorem reached_anticipability (hc : c.Wired) (h : c.Ends k) : (c.anticipability s).Reached k := by
  induction h with
  | pinned hk hp => exact .seed hk hp
  | @step x hx h ih =>
    refine ih.next (List.mem_map.2 ⟨x, ?_, rfl⟩)
    exact (hc.mem_pred _ (hc.target_lt x hx) x).2 ⟨hx, rfl⟩

theorem forM_ok_of_forall {α : Type} {f : α → Except Fault Unit} {l : List α}
    (h : ∀ a ∈ l, f a = .ok ()) : l.forM f = .ok () := by
  induction l with
  | nil => rfl
  | cons a t ih =>
    show (f a >>= fun _ => t.forM f) = .ok ()
    rw [h a (by simp)]
    exact ih fun b hb => h b (by simp [hb])

theorem check_ok (hs : c.sets = some s) (hf : s.Fits c.nodes.size c.edges.size c.catalog.size) :
    c.check = .ok () := by
  have hsize : ∀ t : BitSet, t.size = c.catalog.size → t.checkSize c.catalog.size = .ok () := by
    intro t ht
    rw [BitSet.checkSize, if_pos (by rw [ht])]
  have hnode : ((List.range c.nodes.size).forM fun i =>
      (s.ofNode i).forM (·.checkSize c.catalog.size)) = .ok () := by
    refine forM_ok_of_forall fun k hk => forM_ok_of_forall fun t ht => hsize t ?_
    have hk' := List.mem_range.1 hk
    simp only [Sets.ofNode, List.map_cons, List.map_nil, List.mem_cons, List.not_mem_nil, or_false]
      at ht
    rcases ht with rfl | rfl | rfl | rfl | rfl | rfl | rfl | rfl | rfl | rfl
    · exact hf.exprs.2 k hk'
    · exact hf.kill.2 k hk'
    · exact hf.down.2 k hk'
    · exact hf.up.2 k hk'
    · exact hf.availIn.2 k hk'
    · exact hf.availOut.2 k hk'
    · exact hf.antIn.2 k hk'
    · exact hf.antOut.2 k hk'
    · exact hf.laterIn.2 k hk'
    · exact hf.delete.2 k hk'
  have hedge : ((List.range c.edges.size).forM fun i =>
      (s.ofEdge i).forM (·.checkSize c.catalog.size)) = .ok () := by
    refine forM_ok_of_forall fun x hx => forM_ok_of_forall fun t ht => hsize t ?_
    have hx' := List.mem_range.1 hx
    simp only [Sets.ofEdge, List.map_cons, List.map_nil, List.mem_cons, List.not_mem_nil, or_false]
      at ht
    rcases ht with rfl | rfl | rfl
    · exact hf.earliest.2 x hx'
    · exact hf.later.2 x hx'
    · exact hf.insert.2 x hx'
  unfold check
  rw [sized_of_sets hs]
  simp only [bind, Except.bind]
  rw [hnode]
  exact hedge

def withAvail (c : Context) (s : Sets) : Sets :=
  { s with
    availIn := (c.availability s).solve.2.entry
    availOut := (c.availability s).solve.2.exit }

def withAnt (c : Context) (s : Sets) : Sets :=
  { s with
    antIn := (c.anticipability s).solve.2.exit
    antOut := (c.anticipability s).solve.2.entry }

/-- All equations of an analysis but those of the insertions and deletions. -/
structure Solved (fn : Func) (c₀ c : Context) (s : Sets) : Prop where
  drawn : Drawn fn c₀
  graph : c₀.SameGraph c
  numbered : Numbered fn c s
  exposed : ∀ k < c.nodes.size, Exposed fn c s k
  avail : (c.availability s).Solution ⟨s.availIn, s.availOut⟩
  ant : (c.anticipability s).Solution ⟨s.antOut, s.antIn⟩
  earliest : ∀ x < c.edges.size, s.earliest.of x = c.earliestOn s x
  delayed : Delayed c s ⟨s.laterIn, s.later⟩

theorem size_earliestOn (hc : c.Wired) (hf : s.Fits c.nodes.size c.edges.size c.catalog.size)
    (hx : x < c.edges.size) : (c.earliestOn s x).size = c.catalog.size := by
  have hi := hc.source_lt x hx
  have hj := hc.target_lt x hx
  unfold earliestOn
  dsimp only
  split
  · rfl
  · split
    · rw [BitSet.size_diff, hf.antIn.2 _ hj]
    · have hcompl : (s.antOut.of (c.edge x).source).compl.size = c.catalog.size := hf.antOut.2 _ hi
      rw [BitSet.size_inter, BitSet.size_diff, BitSet.size_union, hf.antIn.2 _ hj, hcompl,
        hf.kill.2 _ hi, max_self, max_self]

theorem size_insertOn (hs : s.later.Fits c.edges.size c.catalog.size) (hx : x < c.edges.size) :
    (c.insertOn s x).size = c.catalog.size := by
  unfold insertOn
  split
  · exact hs.2 x hx
  · rfl

theorem size_deleteIn (hs : s.up.Fits c.nodes.size c.catalog.size) (hk : k < c.nodes.size) :
    (c.deleteIn s k).size = c.catalog.size := by
  unfold deleteIn
  split
  · exact hs.2 k hk
  · rfl

theorem fits_withAvail (hc : c.Wired) (hf : s.Fits c.nodes.size c.edges.size c.catalog.size) :
    (c.withAvail s).Fits c.nodes.size c.edges.size c.catalog.size := by
  have h := Flow.solution (regular_availability hc hf.down)
  exact { hf with availIn := h.entry_fits, availOut := h.exit_fits }

theorem fits_withFacts (hc : c.Wired) (hf : s.Fits c.nodes.size c.edges.size c.catalog.size) :
    (c.withAnt (c.withAvail s)).Fits c.nodes.size c.edges.size c.catalog.size := by
  have h := Flow.solution (regular_anticipability hc hf.up)
  exact { fits_withAvail hc hf with antIn := h.exit_fits, antOut := h.entry_fits }

/-- The sets after the placement. -/
theorem place_spec (hc : c.Wired) (hf : s.Fits c.nodes.size c.edges.size c.catalog.size) :
    (c.place s).2.Fits c.nodes.size c.edges.size c.catalog.size ∧
      (∀ x < c.edges.size, (c.place s).2.earliest.of x = c.earliestOn (c.place s).2 x) ∧
      Delayed c (c.place s).2 ⟨(c.place s).2.laterIn, (c.place s).2.later⟩ ∧
      (∀ x < c.edges.size, (c.place s).2.insert.of x = c.insertOn (c.place s).2 x) ∧
      ∀ k < c.nodes.size, (c.place s).2.delete.of k = c.deleteIn (c.place s).2 k := by
  have he : (Family.ofFn c.edges.size (c.earliestOn s)).Fits c.edges.size c.catalog.size :=
    Family.fits_ofFn fun x hx => size_earliestOn hc hf hx
  have hd := delay_spec (s := { s with earliest := .ofFn c.edges.size (c.earliestOn s) }) hc he
  refine ⟨?_, fun x hx => Family.of_ofFn hx, ?_, fun x hx => Family.of_ofFn hx,
    fun k hk => Family.of_ofFn hk⟩
  · exact { hf with
      earliest := he
      laterIn := hd.laterIn_fits
      later := hd.later_fits
      insert := Family.fits_ofFn fun x hx => size_insertOn hd.later_fits hx
      delete := Family.fits_ofFn fun k hk => size_deleteIn hf.up hk }
  · exact ⟨hd.laterIn_fits, hd.later_fits, hd.entry, hd.laterIn_iff, hd.later_iff,
      hd.later_full, hd.lapsed⟩

def solution (c : Context) (s : Sets) : Sets := (c.place (c.withAnt (c.withAvail s))).2

/-- The placement does not touch what it reads. -/
theorem solution_frame (c : Context) (s : Sets) :
    (c.solution s).exprs = s.exprs ∧ (c.solution s).kill = s.kill ∧
    (c.solution s).down = s.down ∧ (c.solution s).up = s.up ∧
    (⟨(c.solution s).availIn, (c.solution s).availOut⟩ : Flow.State) = (c.availability s).solve.2 ∧
    (⟨(c.solution s).antOut, (c.solution s).antIn⟩ : Flow.State) =
      (c.anticipability s).solve.2 := by
  unfold solution place
  dsimp only
  exact ⟨rfl, rfl, rfl, rfl, rfl, rfl⟩

theorem solved_solution (hd : Drawn fn c₀) (h : Stage fn c₀ c s)
    (hx : ∀ k < c.nodes.size, Exposed fn c s k) :
    Solved fn c₀ c (c.solution s) ∧
      (∀ x < c.edges.size, (c.solution s).insert.of x = c.insertOn (c.solution s) x) ∧
      ∀ k < c.nodes.size, (c.solution s).delete.of k = c.deleteIn (c.solution s) k := by
  have hc : c.Wired := h.graph.wired hd.wired
  have hf := h.numbered.fits
  obtain ⟨hfit, hearl, hdel, hins, hdlt⟩ := place_spec hc (fits_withFacts hc hf)
  obtain ⟨hexprs, hkill, hdown, hup, hav, hant⟩ := solution_frame c s
  have hflow : c.availability (c.solution s) = c.availability s := by
    unfold availability
    rw [hkill, hdown]
  have hflow' : c.anticipability (c.solution s) = c.anticipability s := by
    unfold anticipability
    rw [hkill, hup]
  refine ⟨⟨hd, h.graph, ⟨h.numbered.lawful, hfit, ?_, h.numbered.numbered⟩,
    fun k hk => ⟨?_, ?_, ?_, (hx k hk).sites⟩, ?_, ?_, hearl, hdel⟩,
    hins, hdlt⟩
  · rw [hexprs]
    exact h.numbered.mem_exprs
  · rw [hkill]
    exact (hx k hk).kill
  · rw [hdown]
    exact (hx k hk).down
  · rw [hup]
    exact (hx k hk).up
  · rw [hflow, hav]
    exact Flow.solution (regular_availability hc hf.down)
  · rw [hflow', hant]
    exact Flow.solution (regular_anticipability hc hf.up)

end Context

/-! Cancelling the motion of values. -/

namespace Family

variable {f : Family} {n w e v x : Nat}

theorem members_eq (h : f.members.size = n) : f.members.toList = (List.range n).map f.of := by
  refine List.ext_getElem (by simp [h]) fun i h1 h2 => ?_
  have hi : i < f.members.size := by simpa using h1
  simp [of, Array.getD, hi]

theorem count_eq_card (h : f.members.size = n) :
    f.count e = ((Finset.range n).filter (e ∈ f.of ·)).card := by
  have hset : (Finset.range n).filter (e ∈ f.of ·) = ((List.range n).filter fun x =>
      (f.of x).contains e).toFinset := by
    ext x
    simp [BitSet.mem_iff, BitSet.contains]
  rw [hset, List.toFinset_card_of_nodup (List.nodup_range.filter _), ← List.countP_eq_length_filter,
    count, members_eq h, List.countP_map]
  rfl

theorem count_eq_one (h : f.members.size = n) : f.count e = 1 ↔ ∃! x, x < n ∧ e ∈ f.of x := by
  rw [count_eq_card h, Finset.card_eq_one]
  simp only [Finset.eq_singleton_iff_unique_mem, Finset.mem_filter, Finset.mem_range]
  rfl

theorem count_eq_zero (h : f.members.size = n) : f.count e = 0 ↔ ∀ x < n, e ∉ f.of x := by
  rw [count_eq_card h, Finset.card_eq_zero]
  simp [Finset.filter_eq_empty_iff]

theorem mem_eraseAll : e ∈ (f.eraseAll v).of x ↔ e ≠ v ∧ e ∈ f.of x := by
  by_cases hx : x < f.members.size
  · have : (f.eraseAll v).of x = (f.of x).erase v := by simp [eraseAll, of, Array.getD, hx]
    rw [this, BitSet.mem_erase]
  · have h1 : (f.eraseAll v).of x = default := of_eq_default (by simpa [eraseAll] using hx)
    rw [h1, of_eq_default (Nat.not_lt.1 hx)]
    constructor
    · exact fun h => absurd h BitSet.not_mem_empty
    · exact fun h => absurd h.2 BitSet.not_mem_empty

def Thinned (f g : Family) (done : List Nat) (keep : Nat → Prop) : Prop :=
  ∀ e x, e ∈ g.of x ↔ e ∈ f.of x ∧ (e ∈ done → keep e)

variable {g : Family} {done : List Nat} {keep : Nat → Prop}

theorem Thinned.spare (h : Thinned f g done keep) (hv : ∀ x, v ∈ f.of x → keep v) :
    Thinned f g (done ++ [v]) keep := by
  intro e x
  rw [h e x, List.mem_append, List.mem_singleton]
  refine and_congr_right fun he => ⟨fun hd hm => ?_, fun hd hm => hd (Or.inl hm)⟩
  rcases hm with hm | rfl
  · exact hd hm
  · exact hv x he

theorem Thinned.erase (h : Thinned f g done keep) (hv : ¬ keep v) :
    Thinned f (g.eraseAll v) (done ++ [v]) keep := by
  intro e x
  rw [mem_eraseAll, h e x, List.mem_append, List.mem_singleton]
  constructor
  · rintro ⟨hne, he, hd⟩
    exact ⟨he, fun hm => hd (hm.resolve_right hne)⟩
  · rintro ⟨he, hd⟩
    exact ⟨fun heq => hv (heq ▸ hd (Or.inr heq)), he, fun hm => hd (Or.inl hm)⟩

theorem Fits.eraseAll (h : f.Fits n w) (v : Nat) : (f.eraseAll v).Fits n w := by
  refine ⟨by simpa [Family.eraseAll] using h.1, fun k hk => ?_⟩
  have : k < f.members.size := h.1.symm ▸ hk
  have : (f.eraseAll v).of k = (f.of k).erase v := by simp [Family.eraseAll, of, Array.getD, this]
  rw [this, BitSet.size_erase]
  exact h.2 k hk

end Family

namespace Context

variable {fn : Func} {c c₀ d : Context} {s t : Sets} {k x v e : Nat}

/-- The motion of a value is carried out only if one copy replaces it. -/
def Carried (c : Context) (s : Sets) (e : Nat) : Prop :=
  c.options.singleInsertion = true → ∀ n, c.catalog.entries[e]? = some n → n.op.hasResult = true →
    (∃! x, x < c.edges.size ∧ e ∈ c.insertOn s x) ∧ ∃ k < c.nodes.size, e ∈ c.deleteIn s k

structure Decided (c : Context) (s : Sets) : Prop where
  insert_iff : ∀ x < c.edges.size, ∀ e, e ∈ s.insert.of x ↔ e ∈ c.insertOn s x ∧ c.Carried s e
  delete_iff : ∀ k < c.nodes.size, ∀ e, e ∈ s.delete.of k ↔ e ∈ c.deleteIn s k ∧ c.Carried s e

/-- Two contexts that differ in their reports only. -/
structure SameWork (c d : Context) : Prop where
  options : d.options = c.options
  nodes : d.nodes = c.nodes
  edges : d.edges = c.edges
  catalog : d.catalog = c.catalog
  overflow : d.overflow = c.overflow

def Single (s : Sets) (e : Nat) : Prop := s.insert.count e = 1 ∧ s.delete.count e ≠ 0

structure Restricting (c : Context) (s : Sets) (done : List Nat) (d : Context) (t : Sets) :
    Prop where
  work : c.SameWork d
  sets : d.sets = some t
  rest : t = { s with insert := t.insert, delete := t.delete }
  insert_fits : t.insert.Fits c.edges.size c.catalog.size
  delete_fits : t.delete.Fits c.nodes.size c.catalog.size
  insert : s.insert.Thinned t.insert done (Single s)
  delete : s.delete.Thinned t.delete done (Single s)

theorem restrictValue_eq (fn : Func) (hs : c.sets = some s) (n : Catalog.Entry Value InstrId) :
    ∃ log, restrictValue fn v n c = .ok ⟨⟩ { c with
      log := log
      sets := some (if (s.insert.count v = 0 ∧ s.delete.count v = 0) ∨
          (s.insert.count v = 1 ∧ s.delete.count v ≠ 0) then s
        else { s with insert := s.insert.eraseAll v, delete := s.delete.eraseAll v }) } := by
  unfold restrictValue
  rw [Change.get_bind, sized_of_sets hs, Change.check_bind]
  by_cases hkeep : (s.insert.count v = 0 ∧ s.delete.count v = 0) ∨
    (s.insert.count v = 1 ∧ s.delete.count v ≠ 0)
  · refine ⟨c.log, ?_⟩
    rw [if_pos hkeep, if_pos hkeep, ← hs]
    rfl
  · simp only [if_neg hkeep, modifySets, hs, Option.map_some]
    exact ⟨_, rfl⟩

theorem Restricting.step (fn : Func) {done : List Nat} (hi : s.insert.members.size = c.edges.size)
    (hk : s.delete.members.size = c.nodes.size) (h : Restricting c s done d t) (hv : v ∉ done)
    (n : Catalog.Entry Value InstrId) :
    ∃ d' t', restrictValue fn v n d = .ok ⟨⟩ d' ∧ Restricting c s (done ++ [v]) d' t' := by
  obtain ⟨log, heq⟩ := restrictValue_eq fn (v := v) h.sets n
  have hins : t.insert.count v = s.insert.count v := by
    rw [Family.count_eq_card h.insert_fits.1, Family.count_eq_card hi]
    simp [h.insert v, hv]
  have hdel : t.delete.count v = s.delete.count v := by
    rw [Family.count_eq_card h.delete_fits.1, Family.count_eq_card hk]
    simp [h.delete v, hv]
  have hwork : ∀ r, c.SameWork { d with log := log, sets := r } := fun r =>
    ⟨h.work.options, h.work.nodes, h.work.edges, h.work.catalog, h.work.overflow⟩
  rw [hins, hdel] at heq
  by_cases hkeep : (s.insert.count v = 0 ∧ s.delete.count v = 0) ∨
    (s.insert.count v = 1 ∧ s.delete.count v ≠ 0)
  · rw [if_pos hkeep] at heq
    refine ⟨_, t, heq, hwork _, rfl, h.rest, h.insert_fits, h.delete_fits,
      h.insert.spare fun x hx => ?_, h.delete.spare fun k hk' => ?_⟩
    · refine hkeep.resolve_left fun hz => ?_
      exact (Family.count_eq_zero hi).1 hz.1 x (hi ▸ Family.lt_of_mem hx) hx
    · refine hkeep.resolve_left fun hz => ?_
      exact (Family.count_eq_zero hk).1 hz.2 k (hk ▸ Family.lt_of_mem hk') hk'
  · rw [if_neg hkeep] at heq
    have hno : ¬ Single s v := fun hs => hkeep (Or.inr hs)
    exact ⟨_, _, heq, hwork _, rfl, by rw [h.rest], h.insert_fits.eraseAll v,
      h.delete_fits.eraseAll v, h.insert.erase hno, h.delete.erase hno⟩

def values (c : Context) : List (Catalog.Entry Value InstrId × Nat) :=
  c.catalog.entries.zipIdx.filter fun (n, _) => n.op.hasResult

theorem mem_values {n : Catalog.Entry Value InstrId} :
    (n, e) ∈ c.values ↔ c.catalog.entries[e]? = some n ∧ n.op.hasResult = true := by
  simp [values, List.mem_zipIdx_iff_getElem?]

theorem nodup_values (c : Context) : (c.values.map (·.2)).Nodup :=
  (List.filter_sublist.map _).nodup (List.nodup_zipIdx_map_snd _)

theorem restrictValues_spec (fn : Func) (hs : c.sets = some s)
    (hf : s.Fits c.nodes.size c.edges.size c.catalog.size) :
    ∃ d t, restrictValues fn c = .ok ⟨⟩ d ∧
      Restricting c s (if c.options.singleInsertion then c.values.map (·.2) else []) d t := by
  have hstart : Restricting c s [] c s :=
    ⟨⟨rfl, rfl, rfl, rfl, rfl⟩, hs, rfl, hf.insert, hf.delete, by simp [Family.Thinned],
      by simp [Family.Thinned]⟩
  unfold restrictValues
  rw [Change.get_bind]
  by_cases ho : c.options.singleInsertion = true
  · rw [if_pos ho, if_pos ho]
    obtain ⟨d, hd, t, ht⟩ := Change.forM_ok
      (fun done d => ∃ t, Restricting c s (done.map (·.2)) d t)
      (f := fun p : Catalog.Entry Value InstrId × Nat => restrictValue fn p.2 p.1)
      (l := c.values) (s := c)
      (fun pre p post d hl hd => by
        obtain ⟨t, ht⟩ := hd
        have hv : p.2 ∉ pre.map (·.2) := by
          have hnd := c.nodup_values
          rw [hl, List.map_append, List.nodup_append] at hnd
          exact fun hm => hnd.2.2 p.2 hm p.2 (by simp) rfl
        obtain ⟨d', t', hd', ht'⟩ := ht.step fn hf.insert.1 hf.delete.1 hv p.1
        exact ⟨d', hd', t', by simpa using ht'⟩)
      ⟨s, hstart⟩
    exact ⟨d, t, hd, ht⟩
  · rw [if_neg ho, if_neg ho]
    exact ⟨c, s, rfl, hstart⟩

/-! The phases in order. -/

theorem SameWork.node (h : c.SameWork d) (k : Nat) : d.node k = c.node k := by
  rw [Context.node, h.nodes, Context.node]

theorem SameWork.edge (h : c.SameWork d) (x : Nat) : d.edge x = c.edge x := by
  rw [Context.edge, h.edges, Context.edge]

theorem SameWork.graph (h : c.SameWork d) : c.SameGraph d := .of_eq h.nodes h.edges

theorem SameWork.trans {b : Context} (h : c.SameWork d) (h' : d.SameWork b) : c.SameWork b :=
  ⟨h'.options.trans h.options, h'.nodes.trans h.nodes, h'.edges.trans h.edges,
    h'.catalog.trans h.catalog, h'.overflow.trans h.overflow⟩

theorem Numbered.congr (h : Numbered fn c s) (hw : c.SameWork d)
    (hf : t.Fits c.nodes.size c.edges.size c.catalog.size) (ht : t.exprs = s.exprs) :
    Numbered fn d t where
  lawful := hw.catalog ▸ h.lawful
  fits := by
    rw [hw.nodes, hw.edges, hw.catalog]
    exact hf
  mem_exprs k hk e := by
    rw [ht, hw.catalog, body_eq hw.graph]
    exact h.mem_exprs k (hw.nodes ▸ hk) e
  numbered k hk i hi hm := by
    rw [body_eq hw.graph] at hi
    rw [hw.catalog]
    exact h.numbered k (hw.nodes ▸ hk) i hi hm

theorem Exposed.congr (h : Exposed fn c s k) (hw : c.SameWork d) (hk : t.kill = s.kill)
    (hd : t.down = s.down) (hu : t.up = s.up) : Exposed fn d t k := by
  refine ⟨fun e => ?_, fun e => ?_, fun e => ?_, fun e => ?_⟩
  · rw [hk, hw.node, hw.catalog]
    exact h.kill e
  · rw [hd, hw.catalog, body_eq hw.graph]
    exact h.down e
  · rw [hu, hw.catalog, body_eq hw.graph, hw.node]
    exact h.up e
  · rw [hw.node, hw.catalog, body_eq hw.graph]
    exact h.sites e

theorem Stage.congr (h : Stage fn c₀ c s) (hw : c.SameWork d) (hs : d.sets = some s) :
    Stage fn c₀ d s :=
  ⟨h.graph.trans hw.graph, hw.options.trans h.options, hs, hw.overflow.trans h.overflow,
    h.numbered.congr hw h.numbered.fits rfl⟩

theorem SameWork.availability (hw : c.SameWork d) (hd : t.down = s.down) (hk : t.kill = s.kill) :
    d.availability t = c.availability s := by
  simp [Context.availability, hw.node, hw.edge, hw.nodes, hw.catalog, hd, hk]

theorem SameWork.anticipability (hw : c.SameWork d) (hu : t.up = s.up) (hk : t.kill = s.kill) :
    d.anticipability t = c.anticipability s := by
  simp [Context.anticipability, hw.node, hw.edge, hw.nodes, hw.catalog, hu, hk]

theorem Solved.congr (h : Solved fn c₀ c s) (hw : c.SameWork d)
    (ht : t = { s with insert := t.insert, delete := t.delete })
    (hf : t.Fits c.nodes.size c.edges.size c.catalog.size) : Solved fn c₀ d t where
  drawn := h.drawn
  graph := h.graph.trans hw.graph
  numbered := h.numbered.congr hw hf (by rw [ht])
  exposed k hk := (h.exposed k (hw.nodes ▸ hk)).congr hw (by rw [ht]) (by rw [ht]) (by rw [ht])
  avail := by
    rw [hw.availability (t := t) (s := s) (by rw [ht]) (by rw [ht]), ht]
    exact h.avail
  ant := by
    rw [hw.anticipability (t := t) (s := s) (by rw [ht]) (by rw [ht]), ht]
    exact h.ant
  earliest x hx := by
    rw [ht]
    simp only [earliestOn, hw.node, hw.edge, hw.catalog]
    exact h.earliest x (hw.edges ▸ hx)
  delayed := by
    have hd := h.delayed
    rw [ht]
    refine ⟨by rw [hw.nodes, hw.catalog]; exact hd.laterIn_fits,
      by rw [hw.edges, hw.catalog]; exact hd.later_fits, hd.entry,
      fun k hk h0 e => ?_, fun x hx hr e => ?_, fun x hx hr e he => ?_, fun k hk e he hn => ?_⟩
    · simp only [hw.edges, hw.catalog, hw.edge]
      exact hd.laterIn_iff k (hk.imp fun π hπ => hw.graph.path_iff.1 hπ) h0 e
    · rw [hw.edge] at hr ⊢
      exact hd.later_iff x (hw.edges ▸ hx) (hr.imp fun π hπ => hw.graph.path_iff.1 hπ) e
    · rw [hw.edge] at hr
      exact hd.later_full x (hw.edges ▸ hx) (fun hp =>
        hr (hp.imp fun π hπ => hw.graph.path_iff.2 hπ)) e (hw.catalog ▸ he)
    · obtain ⟨π, hπ⟩ := hd.lapsed k (hw.nodes ▸ hk) e (hw.catalog ▸ he) hn
      exact ⟨π, hπ.congr hw.graph⟩

theorem SameWork.insertOn (hw : c.SameWork d)
    (ht : t = { s with insert := t.insert, delete := t.delete }) (x : Nat) :
    d.insertOn t x = c.insertOn s x := by
  rw [ht]
  simp only [Context.insertOn, hw.node, hw.edge, hw.catalog]

theorem SameWork.deleteIn (hw : c.SameWork d)
    (ht : t = { s with insert := t.insert, delete := t.delete }) (k : Nat) :
    d.deleteIn t k = c.deleteIn s k := by
  rw [ht]
  simp only [Context.deleteIn, hw.node, hw.catalog]

/-- The restricted sets are what the definition of a carried motion says. -/
theorem Restricting.decided (hf : s.Fits c.nodes.size c.edges.size c.catalog.size)
    (hins : ∀ x < c.edges.size, s.insert.of x = c.insertOn s x)
    (hdel : ∀ k < c.nodes.size, s.delete.of k = c.deleteIn s k)
    (h : Restricting c s (if c.options.singleInsertion then c.values.map (·.2) else []) d t) :
    Decided d t := by
  have hsingle : ∀ e, Single s e ↔ (∃! x, x < c.edges.size ∧ e ∈ c.insertOn s x) ∧
      ∃ k < c.nodes.size, e ∈ c.deleteIn s k := by
    intro e
    unfold Single
    rw [Family.count_eq_one hf.insert.1, ne_eq, Family.count_eq_zero hf.delete.1]
    push Not
    refine and_congr (existsUnique_congr fun x => and_congr_right fun hx => by rw [hins x hx]) ?_
    exact exists_congr fun k => and_congr_right fun hk => by rw [hdel k hk]
  have hcarried : ∀ e, (e ∈ (if c.options.singleInsertion then c.values.map (·.2) else []) →
      Single s e) ↔ d.Carried t e := by
    intro e
    unfold Carried
    simp only [h.work.options, h.work.catalog, h.work.edges, h.work.nodes, h.work.insertOn h.rest,
      h.work.deleteIn h.rest]
    by_cases ho : c.options.singleInsertion = true
    · simp only [ho, if_true, List.mem_map, Prod.exists, mem_values, hsingle, forall_const]
      constructor
      · intro hall n hn hr
        exact hall ⟨n, e, ⟨hn, hr⟩, rfl⟩
      · rintro hall ⟨n, f, ⟨hn, hr⟩, rfl⟩
        exact hall n hn hr
    · simp [ho]
  refine ⟨fun x hx e => ?_, fun k hk e => ?_⟩
  · rw [h.work.edges] at hx
    rw [h.insert e x, hcarried, hins x hx, h.work.insertOn h.rest]
  · rw [h.work.nodes] at hk
    rw [h.delete e k, hcarried, hdel k hk, h.work.deleteIn h.rest]

/-- A phase that works on the sets only: it starts from `s` and leaves `t`, on the graph and catalog
of `c`. -/
def Turns (fn : Func) (c : Context) (p : Phase) (s t : Sets) : Prop :=
  ∀ c₁, c.SameWork c₁ → c₁.sets = some s → ∃ d, p.apply fn c₁ = .ok ⟨⟩ d ∧ c.SameWork d ∧
    d.sets = some t

theorem solveAvailability_ok (hs : c.sets = some s)
    (hf : s.Fits c.nodes.size c.edges.size c.catalog.size) :
    solveAvailability c = .ok ⟨⟩ { c with
      rounds := { c.rounds with avail := (c.availability s).solve.1.steps }
      sets := some (c.withAvail s) } := by
  unfold solveAvailability
  rw [Change.get_bind, check_ok hs hf, Change.check_bind, sized_of_sets hs, Change.check_bind]
  simp only [modifySets, hs, Option.map_some]
  rfl

theorem solveAnticipability_ok (hs : c.sets = some s)
    (hf : s.Fits c.nodes.size c.edges.size c.catalog.size) :
    solveAnticipability c = .ok ⟨⟩ { c with
      rounds := { c.rounds with ant := (c.anticipability s).solve.1.steps }
      sets := some (c.withAnt s) } := by
  unfold solveAnticipability
  rw [Change.get_bind, check_ok hs hf, Change.check_bind, sized_of_sets hs, Change.check_bind]
  simp only [modifySets, hs, Option.map_some]
  rfl

theorem solvePlacement_ok (hs : c.sets = some s)
    (hf : s.Fits c.nodes.size c.edges.size c.catalog.size) :
    solvePlacement c = .ok ⟨⟩ { c with
      rounds := { c.rounds with later := (c.place s).1 }
      sets := some (c.place s).2 } := by
  unfold solvePlacement
  rw [Change.get_bind, check_ok hs hf, Change.check_bind, sized_of_sets hs, Change.check_bind]
  simp only [modifySets, hs, Option.map_some]
  rfl

theorem turns_availability (hf : s.Fits c.nodes.size c.edges.size c.catalog.size) :
    Turns fn c .availability s (c.withAvail s) := by
  intro c₁ hw hs
  refine ⟨_, solveAvailability_ok hs (by rw [hw.nodes, hw.edges, hw.catalog]; exact hf),
    ⟨hw.options, hw.nodes, hw.edges, hw.catalog, hw.overflow⟩, ?_⟩
  rw [withAvail, hw.availability (s := s) rfl rfl, withAvail]

theorem turns_anticipability (hf : s.Fits c.nodes.size c.edges.size c.catalog.size) :
    Turns fn c .anticipability s (c.withAnt s) := by
  intro c₁ hw hs
  refine ⟨_, solveAnticipability_ok hs (by rw [hw.nodes, hw.edges, hw.catalog]; exact hf),
    ⟨hw.options, hw.nodes, hw.edges, hw.catalog, hw.overflow⟩, ?_⟩
  rw [withAnt, hw.anticipability (s := s) rfl rfl, withAnt]

theorem SameWork.place (hw : c.SameWork d) (s : Sets) : d.place s = c.place s := by
  obtain ⟨o, n, e, cat, _, ov, _, _, _⟩ := c
  obtain ⟨o', n', e', cat', _, ov', _, _, _⟩ := d
  obtain ⟨h1, h2, h3, h4, h5⟩ := hw
  dsimp only at h1 h2 h3 h4 h5
  subst h1 h2 h3 h4 h5
  rfl

theorem turns_placement (hf : s.Fits c.nodes.size c.edges.size c.catalog.size) :
    Turns fn c .placement s (c.place s).2 := by
  intro c₁ hw hs
  refine ⟨_, solvePlacement_ok hs (by rw [hw.nodes, hw.edges, hw.catalog]; exact hf),
    ⟨hw.options, hw.nodes, hw.edges, hw.catalog, hw.overflow⟩, ?_⟩
  rw [hw.place]

def phaseDone (fn : Func) (p : Phase) (c : Context) : Context :=
  c.record .debug "phase done" [("func", .text fn.name), ("phase", .text p.name),
    ("exprs", .number c.catalog.size)]

theorem sameWork_phaseDone (fn : Func) (p : Phase) (c : Context) : c.SameWork (phaseDone fn p c) :=
  ⟨rfl, rfl, rfl, rfl, rfl⟩

theorem runPhases_cons {p : Phase} {rest : List Phase} {c₁ : Context} (h : p.apply fn c = .ok ⟨⟩ c₁)
    (ho : c₁.overflow = false) :
    runPhases fn (p :: rest) c = runPhases fn rest (phaseDone fn p c₁) := by
  rw [runPhases, Change.bind_eq h, Change.get_bind]
  simp only [ho, Bool.false_eq_true, if_false]
  rfl

theorem runPhases_overflow {p : Phase} (rest : List Phase) {c₁ : Context}
    (h : p.apply fn c = .ok ⟨⟩ c₁) (ho : c₁.overflow = true) :
    ∃ d, runPhases fn (p :: rest) c = .ok false d ∧ c₁.SameWork d := by
  rw [runPhases, Change.bind_eq h, Change.get_bind]
  simp only [ho, if_true]
  exact ⟨_, rfl, ⟨rfl, rfl, rfl, rfl, rfl⟩⟩

theorem apply_of_runPhases {p : Phase} {rest : List Phase} {b : Bool}
    (h : runPhases fn (p :: rest) c = .ok b d) : ∃ c₁, p.apply fn c = .ok ⟨⟩ c₁ := by
  rw [runPhases, Change.bind_ok] at h
  obtain ⟨_, c₁, h1, -⟩ := h
  exact ⟨c₁, h1⟩

theorem Turns.run {p : Phase} (h : Turns fn c p s t) (rest : List Phase) (ho : c.overflow = false)
    {c₁ : Context} (hw : c.SameWork c₁) (hs : c₁.sets = some s) :
    ∃ d, runPhases fn (p :: rest) c₁ = runPhases fn rest d ∧ c.SameWork d ∧ d.sets = some t := by
  obtain ⟨d, hd, hwd, hsd⟩ := h c₁ hw hs
  exact ⟨phaseDone fn p d, runPhases_cons hd (hwd.overflow.trans ho),
    hwd.trans (sameWork_phaseDone fn p d), hsd⟩

theorem Decided.congr (h : Decided c s) (hw : c.SameWork d) : Decided d s := by
  have hcarried : ∀ e, d.Carried s e ↔ c.Carried s e := fun e => by
    simp only [Carried, hw.options, hw.catalog, hw.edges, hw.nodes,
      hw.insertOn (s := s) (t := s) rfl, hw.deleteIn (s := s) (t := s) rfl]
  refine ⟨fun x hx e => ?_, fun k hk e => ?_⟩
  · rw [h.insert_iff x (hw.edges ▸ hx), hw.insertOn (s := s) rfl, hcarried]
  · rw [h.delete_iff k (hw.nodes ▸ hk), hw.deleteIn (s := s) rfl, hcarried]

/-- The phases behind the scans cannot fail, and leave a solution. -/
theorem runPhases_solve (hd : Drawn fn c₀) (h : Stage fn c₀ c s)
    (hx : ∀ k < c.nodes.size, Exposed fn c s k) :
    ∃ d t, runPhases fn [.availability, .anticipability, .placement, .restriction] c = .ok true d ∧
      c.SameWork d ∧
      d.sets = some t ∧ Solved fn c₀ d t ∧ Decided d t := by
  have hc : c.Wired := h.graph.wired hd.wired
  have hf := h.numbered.fits
  obtain ⟨hsolved, hins, hdel⟩ := solved_solution hd h hx
  obtain ⟨c1, hr1, hw1, hs1⟩ :=
    (turns_availability hf).run [.anticipability, .placement, .restriction]
    h.overflow ⟨rfl, rfl, rfl, rfl, rfl⟩ h.sets
  obtain ⟨c2, hr2, hw2, hs2⟩ :=
    (turns_anticipability (fits_withAvail hc hf)).run [.placement, .restriction] h.overflow hw1 hs1
  obtain ⟨c3, hr3, hw3, hs3⟩ :=
    (turns_placement (fits_withFacts hc hf)).run [.restriction] h.overflow hw2 hs2
  have hsolved3 := hsolved.congr hw3 rfl hsolved.numbered.fits
  have hfit3 := hsolved3.numbered.fits
  obtain ⟨c4, t, hr4, hrestr⟩ := restrictValues_spec fn hs3 hfit3
  have hdec : Decided c4 t := by
    refine hrestr.decided hfit3 (fun x hx => ?_) fun k hk => ?_
    · rw [hw3.insertOn (s := c.solution s) rfl]
      exact hins x (hw3.edges ▸ hx)
    · rw [hw3.deleteIn (s := c.solution s) rfl]
      exact hdel k (hw3.nodes ▸ hk)
  have hdone := sameWork_phaseDone fn .restriction c4
  have hw4 := hrestr.work.trans hdone
  have hsets : (phaseDone fn .restriction c4).sets = some t := hrestr.sets
  refine ⟨phaseDone fn .restriction c4, t, ?_, hw3.trans hw4, hsets,
    hsolved3.congr hw4 hrestr.rest ?_, hdec.congr hdone⟩
  · have hr4' : Phase.restriction.apply fn c3 = .ok ⟨⟩ c4 := hr4
    rw [hr1, hr2, hr3, runPhases_cons hr4'
      (hrestr.work.overflow.trans (hw3.overflow.trans h.overflow))]
    rfl
  · rw [hrestr.rest]
    exact { hfit3 with insert := hrestr.insert_fits, delete := hrestr.delete_fits }

/-- Once the expressions are numbered, the phases succeed exactly if every block can be scanned. -/
theorem runPhases_ok (hf : Fresh fn c₀) (h : numberExpressions fn c₀ = .ok ⟨⟩ c)
    (ho : c.overflow = false) (hscan : ∀ k < c₀.nodes.size, Scans fn c.catalog (c₀.node k).block) :
    ∃ d t, runPhases fn Phase.all c₀ = .ok true d ∧ d.catalog = c.catalog ∧ d.options = c₀.options ∧
      d.sets = some t ∧
      Solved fn c₀ d t ∧ Decided d t := by
  obtain ⟨s1, hst, hkill, hsites⟩ := (hf.numberExpressions_inv h).resolve_left (by simp [ho])
  have hst1 := hst.congr (sameWork_phaseDone fn .numbering c) hst.sets
  obtain ⟨c2, h2⟩ := localPredicates_ok hst1 hkill hsites hscan
  obtain ⟨s2, hst2, hexp, hcat, -⟩ := localPredicates_inv hst1 hkill hsites h2
  have hw2 := sameWork_phaseDone fn .scanning c2
  obtain ⟨d, t, hd, hwd, hs, hsolved, hdec⟩ :=
    runPhases_solve hf.toDrawn (hst2.congr hw2 hst2.sets) fun k hk =>
    (hexp k (hw2.nodes ▸ hk)).congr hw2 rfl rfl rfl
  have hw := hw2.trans hwd
  refine ⟨d, t, ?_, hw.catalog.trans hcat, hw.options.trans hst2.options, hs, hsolved, hdec⟩
  rw [Phase.all, runPhases_cons (p := .numbering) h ho,
    runPhases_cons (p := .scanning) h2 hst2.overflow]
  exact hd

theorem scans_of_runPhases (hf : Fresh fn c₀) (h : numberExpressions fn c₀ = .ok ⟨⟩ c)
    (ho : c.overflow = false) {b : Bool} (hrun : runPhases fn Phase.all c₀ = .ok b d) :
    ∀ k < c₀.nodes.size, Scans fn c.catalog (c₀.node k).block := by
  obtain ⟨s1, hst, hkill, hsites⟩ := (hf.numberExpressions_inv h).resolve_left (by simp [ho])
  rw [Phase.all, runPhases_cons (p := .numbering) h ho] at hrun
  obtain ⟨c2, h2⟩ := apply_of_runPhases hrun
  exact (localPredicates_inv (hst.congr (sameWork_phaseDone fn .numbering c) hst.sets) hkill hsites
    h2).choose_spec.2.2.2

/-- The dump needs the text of every block and nothing else. -/
theorem dump_ok (hs : c.sets = some s) :
    (∃ t, c.dump fn = .ok t) ↔ ∀ k < c.nodes.size, ∃ t, fn.blockBody (c.node k).block = .ok t := by
  have hnode : ∀ k,
      (∃ t, c.dumpNode fn k = .ok t) ↔ ∃ t, fn.blockBody (c.node k).block = .ok t := by
    intro k
    unfold dumpNode
    cases fn.blockBody (c.node k).block with
    | error err => simp [bind, Except.bind]
    | ok head => simp [sized_of_sets hs, bind, Except.bind, pure, Except.pure]
  obtain ⟨edges, hedges⟩ :=
      mapM_ok (f := c.dumpEdge fn) (l := List.range c.edges.size) fun x _ => by
    unfold dumpEdge
    simp [sized_of_sets hs, bind, Except.bind, pure, Except.pure]
  unfold dump
  constructor
  · rintro ⟨t, ht⟩ k hk
    cases hm : (List.range c.nodes.size).mapM (c.dumpNode fn) with
    | error err => simp [hm, bind, Except.bind] at ht
    | ok r =>
      obtain ⟨t, -, htext⟩ := mem_of_mapM_ok hm k (List.mem_range.2 hk)
      exact (hnode k).1 ⟨t, htext⟩
  · intro hall
    obtain ⟨nodes, hnodes⟩ :=
      mapM_ok (f := c.dumpNode fn) (l := List.range c.nodes.size) fun k hk =>
      (hnode k).2 (hall k (List.mem_range.1 hk))
    simp [hnodes, hedges, bind, Except.bind, pure, Except.pure]

theorem writeTrace_inv (h : writeTrace fn c = .ok ⟨⟩ d) :
    c.SameWork d ∧ d.sets = c.sets ∧ (c.options.trace ≠ .off → ∃ t, c.dump fn = .ok t) := by
  unfold writeTrace at h
  rw [Change.get_bind] at h
  cases ht : c.options.trace with
  | off =>
    rw [ht] at h
    cases h
    exact ⟨⟨rfl, rfl, rfl, rfl, rfl⟩, rfl, by simp⟩
  | writer | broken =>
    rw [ht] at h
    obtain ⟨t, _, hc, hs⟩ := Change.bind_ok.1 h
    obtain ⟨hdump, rfl⟩ := Change.check_apply.1 hc
    cases hs
    exact ⟨⟨rfl, rfl, rfl, rfl, rfl⟩, rfl, fun _ => ⟨t, hdump⟩⟩

theorem writeTrace_ok (h : c.options.trace ≠ .off → ∃ t, c.dump fn = .ok t) :
    ∃ d, writeTrace fn c = .ok ⟨⟩ d := by
  unfold writeTrace
  rw [Change.get_bind]
  cases ht : c.options.trace with
  | off => exact ⟨_, rfl⟩
  | writer =>
    obtain ⟨t, hdump⟩ := h (by simp [ht])
    simp only [hdump, Change.check_bind]
    exact ⟨_, rfl⟩
  | broken =>
    obtain ⟨t, hdump⟩ := h (by simp [ht])
    simp only [hdump, Change.check_bind]
    exact ⟨_, rfl⟩

def Traceable (fn : Func) (c : Context) : Prop :=
  c.options.trace ≠ .off → ∀ k < c.nodes.size, ∃ t, fn.blockBody (c.node k).block = .ok t

/-- What an analysis that comes to an end has done. -/
theorem analyze_cases (hf : Fresh fn c₀) {b : Bool} (h : analyze fn c₀ = .ok b d) :
    ∃ c, numberExpressions fn c₀ = .ok ⟨⟩ c ∧ d.catalog = c.catalog ∧
      (c.overflow = true ∧ b = false ∨
        c.overflow = false ∧ b = true ∧
          (∀ k < c₀.nodes.size, Scans fn c.catalog (c₀.node k).block) ∧ Traceable fn c₀ ∧
          ∃ s, d.sets = some s ∧ d.options = c₀.options ∧ Solved fn c₀ d s ∧ Decided d s) := by
  unfold analyze at h
  rw [Change.bind_ok] at h
  obtain ⟨r, d1, hrun, hend⟩ := h
  obtain ⟨c, hc⟩ := apply_of_runPhases hrun
  have hc : numberExpressions fn c₀ = .ok ⟨⟩ c := hc
  refine ⟨c, hc, ?_⟩
  cases ho : c.overflow with
  | true =>
    obtain ⟨d2, hrun2, hw⟩ := runPhases_overflow (p := .numbering)
      [.scanning, .availability, .anticipability, .placement, .restriction] hc ho
    rw [Phase.all, hrun2] at hrun
    cases hrun
    simp only [Bool.not_false, if_true] at hend
    cases hend
    exact ⟨hw.catalog, Or.inl ⟨rfl, rfl⟩⟩
  | false =>
    have hscan := scans_of_runPhases hf hc ho hrun
    obtain ⟨d2, t, hrun2, hcat, hopt, hs, hsolved, hdec⟩ := runPhases_ok hf hc ho hscan
    rw [hrun2] at hrun
    cases hrun
    simp only [Bool.not_true, Bool.false_eq_true, if_false] at hend
    rw [Change.bind_ok] at hend
    obtain ⟨_, d3, hw, hlast⟩ := hend
    obtain ⟨hwork, hsets, hdump⟩ := writeTrace_inv hw
    have hrecord : b = true ∧ d3.SameWork d ∧ d.sets = d3.sets := by
      rw [Change.get_bind, Change.set_bind] at hlast
      cases hlast
      exact ⟨rfl, ⟨rfl, rfl, rfl, rfl, rfl⟩, rfl⟩
    obtain ⟨hb, hwork₃, hsets₃⟩ := hrecord
    have hwork' := hwork.trans hwork₃
    refine ⟨hwork'.catalog.trans hcat, Or.inr ⟨rfl, hb, hscan, fun ht k hk => ?_, t,
      hsets₃.trans (hsets.trans hs), hwork'.options.trans hopt,
      hsolved.congr hwork' rfl hsolved.numbered.fits, hdec.congr hwork'⟩⟩
    have hbody := (dump_ok hs).1 (hdump (hopt ▸ ht)) k (hsolved.graph.nodes_size ▸ hk)
    rwa [hsolved.graph.block] at hbody

/-- An analysis that ends has solved its equations. -/
theorem analyze_spec (hf : Fresh fn c₀) (h : analyze fn c₀ = .ok true c) :
    ∃ s, c.sets = some s ∧ c.options = c₀.options ∧ Solved fn c₀ c s ∧ Decided c s := by
  obtain ⟨_, -, -, ⟨-, hb⟩ | ⟨-, -, -, -, hs⟩⟩ := analyze_cases hf h
  · cases hb
  · exact hs

/-- An analysis ends if the expressions can be numbered, the blocks scanned and the trace
written. -/
theorem analyze_of_numbering (hf : Fresh fn c₀) (h : numberExpressions fn c₀ = .ok ⟨⟩ c)
    (hscan : c.overflow = false → (∀ k < c₀.nodes.size, Scans fn c.catalog (c₀.node k).block) ∧
      Traceable fn c₀) :
    ∃ d, analyze fn c₀ = .ok (!c.overflow) d := by
  unfold analyze
  cases ho : c.overflow with
  | true =>
    obtain ⟨d, hrun, -⟩ := runPhases_overflow (p := .numbering)
      [.scanning, .availability, .anticipability, .placement, .restriction] h ho
    rw [Phase.all, Change.bind_eq hrun]
    exact ⟨_, rfl⟩
  | false =>
    obtain ⟨hscan, ht⟩ := hscan ho
    obtain ⟨d, t, hrun, -, hopt, hs, hsolved, -⟩ := runPhases_ok hf h ho hscan
    obtain ⟨d', hw⟩ : ∃ d', writeTrace fn d = .ok ⟨⟩ d' := writeTrace_ok fun hon =>
        (dump_ok hs).2 fun k hk => by
      rw [hsolved.graph.block]
      exact ht (hopt ▸ hon) k (hsolved.graph.nodes_size ▸ hk)
    rw [Change.bind_eq hrun]
    simp only [Bool.not_true, Bool.false_eq_true, if_false]
    rw [Change.bind_eq hw, Change.get_bind, Change.set_bind]
    exact ⟨_, rfl⟩

end Context

structure Func.Readable (fn : Func) : Prop where
  attached : ∀ b ∈ fn.postOrder, b ∈ fn.layout
  store : ∀ b ∈ fn.layout, ∀ i ∈ fn.listed b, (fn.instr i).op = .store → i ∈ (fn.block b).body ∧
    2 ≤ (fn.instr i).args.length
  load : ∀ b ∈ fn.layout, ∀ i ∈ fn.listed b, (fn.instr i).op = .load → 1 ≤ (fn.instr i).args.length

namespace Context

variable {fn : Func} {c c₀ d : Context} {s : Sets} {i : InstrId}

theorem expression_ok (h : (fn.instr i).op = .store → 2 ≤ (fn.instr i).args.length) :
    ∃ x, fn.reader.expression i = .ok x := by
  by_cases hs : (fn.instr i).op = .store
  · have hlen := h hs
    have hop : fn.reader.op i = .store := hs
    have hargs : fn.reader.args i = (fn.instr i).args := rfl
    unfold Reader.expression
    match ha : (fn.instr i).args with
    | [] => simp [ha] at hlen
    | [_] => simp [ha] at hlen
    | v :: a :: rest => exact ⟨⟨.store, a, [v]⟩, by simp [hop, hargs, ha]⟩
  · exact ⟨_, Reader.expression_of_ne_store hs⟩

theorem index_of_exprAt {cat : Catalog Value InstrId} {e : Nat} (h : fn.exprAt cat i = some e) :
    cat.index fn.reader i = .ok e :=
  Catalog.index_ok.2 (Catalog.exprAt_iff.1 h).2

theorem Stage.scans (hd : Drawn fn c₀) (hr : fn.Readable) (h : Stage fn c₀ c s) {k : Nat}
    (hk : k < c₀.nodes.size) : Scans fn c.catalog (c₀.node k).block := by
  have hb : (c₀.node k).block ∈ fn.layout := List.mem_of_getElem? (hd.block_node hk)
  have hindex : ∀ i ∈ (fn.block (c₀.node k).block).body, (fn.instr i).op.isMovable = true →
      ∃ e, c.catalog.index fn.reader i = .ok e := by
    intro i hi hm
    have hi' : i ∈ c.body fn k := by rw [body_eq h.graph]; exact hi
    obtain ⟨e, he⟩ := h.numbered.numbered k (h.graph.nodes_size ▸ hk) i hi' hm
    exact ⟨e, index_of_exprAt he⟩
  have hadd : ∀ i ∈ fn.listed (c₀.node k).block, Scope.Addable fn c.catalog i := by
    intro i hi
    refine ⟨fun hop => ?_, fun hop => ?_⟩
    · obtain ⟨hbody, hlen⟩ := hr.store _ hb i hi hop
      exact ⟨⟨_, List.getElem?_eq_getElem hlen⟩, hindex i hbody (by rw [hop]; rfl)⟩
    · exact ⟨_, List.getElem?_eq_getElem (hr.load _ hb i hi hop)⟩
  exact ⟨hadd, fun i hi => ⟨hadd i (List.mem_append_left _ (List.mem_append_right _ hi)),
    hindex i hi⟩⟩

theorem Fresh.expression_movables (hf : Fresh fn c₀) (hr : fn.Readable) {k : Nat}
    (hk : k < c₀.nodes.size) :
    ∀ i ∈ Numbering.movables fn c₀ k, ∃ x, fn.reader.expression i = .ok x := by
  intro i hi
  refine expression_ok fun hop => (hr.store _ (hf.layout k hk) i ?_ hop).2
  exact List.mem_append_left _ (List.mem_append_right _ (Numbering.mem_movables.1 hi).1)

/-- The analysis of a function that can be read ends, unless a trace is asked for that cannot be
written. -/
theorem analyze_ok (hf : Fresh fn c₀) (hr : fn.Readable) (ht : c₀.options.trace = .off) :
    ∃ b d, analyze fn c₀ = .ok b d := by
  obtain ⟨c, hc⟩ := hf.numberExpressions_ok hr.attached fun k => hf.expression_movables hr
  refine ⟨_, analyze_of_numbering hf hc fun ho => ⟨?_, fun hon => absurd ht hon⟩⟩
  obtain ⟨s, hst, -⟩ := (hf.numberExpressions_inv hc).resolve_left (by simp [ho])
  exact fun k hk => hst.scans hf.toDrawn hr hk

end Context
end CodeMotion
