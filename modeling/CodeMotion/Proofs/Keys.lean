import Mathlib
import CodeMotion.Proofs.Charts

/-! The catalog of an analysis lists the expressions of a function by their first occurrence: those
of the blocks that the traversal reaches in reverse post-order, and behind them those of the other
blocks as they are laid out. -/

namespace CodeMotion

theorem eraseDups_snoc {α : Type} [DecidableEq α] (l : List α) (a : α) :
    (l ++ [a]).eraseDups = if a ∈ l then l.eraseDups else l.eraseDups ++ [a] := by
  rw [List.eraseDups_append]
  by_cases ha : a ∈ l
  · simp [List.removeAll, ha]
  · simp [List.removeAll, ha, List.eraseDups_cons]

theorem eraseDups_prefix {α : Type} [DecidableEq α] (l m : List α) :
    l.eraseDups <+: (l ++ m).eraseDups := by
  rw [List.eraseDups_append]
  exact List.prefix_append _ _

namespace Func

variable {fn : Func} {i : InstrId} {x : Expression Value}

/-- The expression by which a movable instruction is cataloged. -/
def key? (fn : Func) (i : InstrId) : Option (Expression Value) :=
  if (fn.instr i).op.isMovable then (fn.reader.expression i).toOption else none

theorem key?_eq_some :
    fn.key? i = some x ↔ (fn.instr i).op.isMovable = true ∧ fn.reader.expression i = .ok x := by
  unfold key?
  by_cases hm : (fn.instr i).op.isMovable = true
  · cases fn.reader.expression i <;> simp [hm, Except.toOption]
  · simp [hm]

def visited (fn : Func) : List BlockId := fn.reversePostOrder ++ fn.layout.filter (· ∉ fn.preOrder)

def keysIn (fn : Func) (bs : List BlockId) : List (Expression Value) :=
  (bs.flatMap fun b => (fn.block b).body).filterMap fn.key?

theorem keysIn_append (bs bs' : List BlockId) :
    fn.keysIn (bs ++ bs') = fn.keysIn bs ++ fn.keysIn bs' := by simp [keysIn]

theorem mem_keysIn {bs : List BlockId} :
    x ∈ fn.keysIn bs ↔ ∃ b ∈ bs, ∃ i ∈ (fn.block b).body, fn.key? i = some x := by
  simp only [keysIn, List.mem_filterMap, List.mem_flatMap]
  constructor
  · rintro ⟨i, ⟨b, hb, hi⟩, hx⟩
    exact ⟨b, hb, i, hi, hx⟩
  · rintro ⟨b, hb, i, hi, hx⟩
    exact ⟨i, ⟨b, hb, hi⟩, hx⟩

theorem Enclosed.mem_visited (h : fn.Enclosed) {b : BlockId} : b ∈ fn.visited ↔ b ∈ fn.layout := by
  by_cases hb : b ∈ fn.preOrder
  · simp [visited, mem_reversePostOrder, hb, h.attached hb]
  · simp [visited, mem_reversePostOrder, hb]

end Func

namespace Catalog

section

variable {ν ι : Type} {cat cat' : Catalog ν ι} {r : Reader ν ι} {i : ι} {e : Nat} {x : Expression ν}

def keys (cat : Catalog ν ι) (r : Reader ν ι) : List (Expression ν) :=
  cat.entries.map (·.expression r)

theorem length_keys : (cat.keys r).length = cat.size := by simp [keys, size]

theorem getElem?_keys :
    (cat.keys r)[e]? = some x ↔ ∃ n, cat.entries[e]? = some n ∧ n.expression r = x := by
  simp [keys]

variable [DecidableEq ν]

theorem Indexed.find?_isSome (h : cat.Indexed r) :
    (∃ e, cat.find? r x = some e) ↔ x ∈ cat.keys r := by
  rw [← Option.isSome_iff_exists, ← Option.ne_none_iff_isSome, ne_eq, h.find?_eq_none,
    keys, List.mem_map]
  simp

/-- A catalog grows by the expressions that it does not have yet. -/
theorem Indexed.keys_add (hc : cat.Indexed r) (h : cat.add r i = .ok (e, cat'))
    (hx : r.expression i = .ok x) :
    cat'.keys r = if x ∈ cat.keys r then cat.keys r else cat.keys r ++ [x] := by
  obtain ⟨y, hy, hcase⟩ := add_ok.1 h
  rw [hx, Except.ok.injEq] at hy
  subst hy
  rcases hcase with ⟨hf, rfl⟩ | ⟨hf, -, rfl⟩
  · rw [if_pos (hc.find?_isSome.1 ⟨e, hf⟩)]
  · have hnew : x ∉ cat.keys r := fun hmem => by
      obtain ⟨n, hn⟩ := hc.find?_isSome.2 hmem
      rw [hf] at hn
      cases hn
    rw [if_neg hnew]
    simp [keys, Catalog.extend, Reader.expression_entry hx]

theorem Indexed.exists_index_iff (h : cat.Indexed r) :
    (∃ e, cat.index r i = .ok e) ↔ ∃ x ∈ cat.keys r, r.expression i = .ok x := by
  simp only [index_ok, ← h.find?_isSome]
  constructor
  · rintro ⟨e, x, hx, hf⟩
    exact ⟨x, ⟨e, hf⟩, hx⟩
  · rintro ⟨x, ⟨e, hf⟩, hx⟩
    exact ⟨e, x, hx, hf⟩

end

variable {fn : Func} {cat : Catalog Value InstrId} {i : InstrId} {e : Nat}

/-- An instruction has the number at which its expression stands. -/
theorem Lawful.exprAt_iff_key (h : cat.Lawful fn) :
    fn.exprAt cat i = some e ↔ ∃ x, fn.key? i = some x ∧ (cat.keys fn.reader)[e]? = some x := by
  constructor
  · intro he
    obtain ⟨n, hn, hx⟩ := exprAt_entry he
    exact ⟨_, Func.key?_eq_some.2 ⟨(exprAt_iff.1 he).1, hx⟩, getElem?_keys.2 ⟨n, hn, rfl⟩⟩
  · rintro ⟨x, hx, hk⟩
    obtain ⟨n, hn, rfl⟩ := getElem?_keys.1 hk
    exact (h.exprAt_iff_entry hn).2 (Func.key?_eq_some.1 hx)

end Catalog

namespace Context

variable {fn : Func} {c c₀ d : Context} {k : Nat} {i : InstrId} {done l : List Nat}

theorem add_of_addLocal (h : addLocal fn k i c = .ok ⟨⟩ d) :
    ∃ e, c.catalog.add fn.reader i = .ok (e, d.catalog) := by
  unfold addLocal at h
  rw [Change.get_bind, Change.bind_ok] at h
  obtain ⟨⟨e, cat⟩, c', hcheck, hset⟩ := h
  obtain ⟨hadd, rfl⟩ := Change.check_apply.1 hcheck
  cases hset
  exact ⟨e, hadd⟩

/-- One block adds its expressions behind those of the blocks before it. -/
theorem Numbering.keys_of_addLocals (h : Numbering fn c₀ done c) {bs : List BlockId}
    (hc : c.catalog.keys fn.reader = (fn.keysIn bs).eraseDups)
    (hd : Context.addLocals fn k c = .ok ⟨⟩ d) :
    d.catalog.keys fn.reader = (fn.keysIn (bs ++ [(c₀.node k).block])).eraseDups := by
  rw [addLocals_eq h] at hd
  have hloop := Change.forM_inv (fun pre (c' : Context) => c'.catalog.Indexed fn.reader ∧
      c'.catalog.keys fn.reader = (fn.keysIn bs ++ pre.filterMap fn.key?).eraseDups)
    (fun pre i post s s' hl hs hi => by
      obtain ⟨x, hx⟩ := expression_of_addLocal hi
      obtain ⟨e, hadd⟩ := add_of_addLocal hi
      refine ⟨hs.1.add hadd, ?_⟩
      have hmem : i ∈ movables fn c₀ k := by rw [hl]; simp
      have hkey : fn.key? i = some x := Func.key?_eq_some.2 ⟨(mem_movables.1 hmem).2, hx⟩
      rw [hs.1.keys_add hadd hx, hs.2, List.filterMap_append, List.filterMap_cons_some hkey,
        List.filterMap_nil, ← List.append_assoc, eraseDups_snoc]
      simp only [List.mem_eraseDups])
    ⟨h.lawful.indexed, by simpa using hc⟩ hd
  have hmov : (movables fn c₀ k).filterMap fn.key? = (c₀.body fn k).filterMap fn.key? := by
    rw [movables, List.filterMap_filter]
    refine List.filterMap_congr fun i _ => ?_
    by_cases hm : (fn.instr i).op.isMovable = true
    · simp [hm]
    · simp [hm, Func.key?]
  rw [hloop.2, hmov, Func.keysIn_append]
  simp [Func.keysIn, body]

namespace Charts

theorem layout_eq (h : Charts fn c) :
    fn.layout = (List.range c.nodes.size).map fun k => (c.node k).block := by
  refine List.ext_getElem? fun k => ?_
  by_cases hk : k < c.nodes.size
  · simp [h.layout_node hk, hk]
  · have : fn.layout.length ≤ k := by
      rw [← h.nodes_size]
      omega
    simp [hk, this]

/-- The blocks of the nodes in the order in which they are numbered. -/
theorem order_visited (h : Charts fn c) (ho : c.order fn = .ok l) :
    (l.map fun k => (c.node k).block) = fn.visited := by
  obtain ⟨r, hr, rfl⟩ := order_inv ho
  rw [mapM_eq_ok] at hr
  have hfront : List.Forall₂ Eq fn.reversePostOrder (r.map fun k => (c.node k).block) :=
    List.forall₂_map_right_iff.2 (hr.imp fun _ _ hk => (nodeOf_lt hk).2.symm)
  rw [List.forall₂_eq_eq_eq] at hfront
  have hrest : (((List.range c.nodes.size).filter fun i => !(c.node i).isReachable).map fun k =>
    (c.node k).block) =
      fn.layout.filter (· ∉ fn.preOrder) := by
    rw [h.layout_eq, List.filter_map]
    refine congrArg _ (List.filter_congr fun k hk => ?_)
    have hreach :=
      (h.marked.reachable_iff k (List.mem_range.1 hk)).trans (h.reach_iff (List.mem_range.1 hk))
    simp [← hreach]
  rw [List.map_append, ← hfront, hrest, Func.visited]

end Charts

end Context

structure Func.Cataloged (fn : Func) (cat : Catalog Value InstrId) : Prop where
  lawful : cat.Lawful fn
  keys : cat.keys fn.reader = (fn.keysIn fn.visited).eraseDups
  movable : ∀ b ∈ fn.layout, ∀ i ∈ (fn.block b).body, (fn.instr i).op.isMovable = true →
    ∃ x, fn.key? i = some x

/-- The expressions that can be reached come first, whatever else is attached. -/
theorem Func.Cataloged.live_first {fn : Func} {cat : Catalog Value InstrId} (h : fn.Cataloged cat) :
    (fn.keysIn fn.reversePostOrder).eraseDups <+: cat.keys fn.reader := by
  rw [h.keys, Func.visited, Func.keysIn_append]
  exact eraseDups_prefix _ _

namespace Context.Fresh

variable {fn : Func} {c c₀ : Context}

theorem cataloged (hf : Fresh fn c₀) (he : fn.Enclosed) (h : numberExpressions fn c₀ = .ok ⟨⟩ c) :
    fn.Cataloged c.catalog := by
  obtain ⟨l, c₁, hl, hloop, hnum, hc⟩ := hf.numberExpressions_cases h
  have hmap : Charts fn c₀ := ⟨he, c₀, hf.toDrawn, .refl c₀⟩
  have hcat : c.catalog = c₁.catalog := by
    rw [hc]
    split <;> rfl
  have hkeys := Change.forM_inv (fun done c' => Numbering fn c₀ done c' ∧
      c'.catalog.keys fn.reader = (fn.keysIn (done.map fun k => (c₀.node k).block)).eraseDups)
    (fun pre k post s s' hk hs hstep => by
      refine ⟨hs.1.addLocals_inv hf.layout (order_lt hl k (by rw [hk]; simp)) hstep, ?_⟩
      rw [hs.1.keys_of_addLocals hs.2 hstep, List.map_append]
      rfl)
    ⟨.start hf.catalog hf.locals, by simp [hf.catalog, Catalog.keys, Func.keysIn]⟩ hloop
  rw [hmap.order_visited hl] at hkeys
  refine ⟨hcat ▸ hnum.lawful, hcat ▸ hkeys.2, fun b hb i hi hm => ?_⟩
  obtain ⟨k, hk, rfl⟩ := hmap.exists_node hb
  obtain ⟨e, -, hx⟩ :=
    hnum.locals_complete k (hf.mem_order hl hk) (hnum.graph.nodes_size ▸ hk) i hi hm
  exact (hnum.lawful.exprAt_iff_key.1 hx).imp fun x hx => hx.1

/-- A function is refused by the number of its expressions alone. -/
theorem overflow_eq (hf : Fresh fn c₀) (h : numberExpressions fn c₀ = .ok ⟨⟩ c) :
    c.overflow = !c₀.options.canAnalyze c.catalog.size := by
  obtain ⟨l, c₁, hl, hloop, hnum, hc⟩ := hf.numberExpressions_cases h
  rw [← hnum.options, hc]
  split
  · next hsmall => simpa [hsmall, resize] using hnum.overflow.trans hf.overflow
  · next hlarge => simpa using hlarge

theorem cataloged_of_analyze (hf : Fresh fn c₀) (he : fn.Enclosed) {b : Bool}
    (h : analyze fn c₀ = .ok b c) : fn.Cataloged c.catalog := by
  obtain ⟨d, hd, hcat, -⟩ := analyze_cases hf h
  rw [hcat]
  exact hf.cataloged he hd

end Context.Fresh
end CodeMotion
