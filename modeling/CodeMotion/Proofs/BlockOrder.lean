import Mathlib
import CodeMotion.Proofs.Correspondence

/-! The order in which the blocks of a function are laid out does not matter to its analysis, as
long as the entry stays first: the catalog has the same expressions, those that can be reached under
the same numbers, and every block and every edge gets the same sets of expressions. -/

namespace CodeMotion

namespace Func

variable {fn : Func} {l : List BlockId}

def relaid (fn : Func) (l : List BlockId) : Func := { fn with layout := l }

theorem Enclosed.relaid (h : fn.Enclosed) (hl : l.Perm fn.layout) : (fn.relaid l).Enclosed where
  nodup := hl.nodup_iff.2 h.nodup
  hasBlock b hb := h.hasBlock b (hl.mem_iff.1 hb)
  succs a ha b hb := hl.mem_iff.2 (h.succs a (hl.mem_iff.1 ha) b hb)

theorem Enclosed.alike (h : fn.Enclosed) (hl : l.Perm fn.layout) (hh : l.head? = fn.layout.head?) :
    fn.Alike (fn.relaid l) where
  phis _ := rfl
  body _ := rfl
  term _ := rfl
  op _ := rfl
  args _ _ := rfl
  targets _ := rfl
  hasBlock _ := rfl
  size := rfl
  head := hh
  enclosed := h
  enclosed' := h.relaid hl

variable {fn' : Func} {cat cat' : Catalog Value InstrId} {x : Expression Value}

theorem Cataloged.mem_keys (h : fn.Cataloged cat) (he : fn.Enclosed) :
    x ∈ cat.keys fn.reader ↔ x ∈ fn.keysIn fn.layout := by
  rw [h.keys, List.mem_eraseDups, mem_keysIn, mem_keysIn]
  simp only [he.mem_visited]

theorem Cataloged.mem_keys_iff (h : fn.Cataloged cat) (h' : fn'.Cataloged cat') (hf : fn.Alike fn')
    (hl : ∀ b, b ∈ fn'.layout ↔ b ∈ fn.layout) (x : Expression Value) :
    x ∈ cat.keys fn.reader ↔ x ∈ cat'.keys fn'.reader := by
  rw [h.mem_keys hf.enclosed, h'.mem_keys hf.enclosed', hf.keysIn, mem_keysIn, mem_keysIn]
  simp only [hl]

theorem Cataloged.size_eq (h : fn.Cataloged cat) (h' : fn'.Cataloged cat') (hf : fn.Alike fn')
    (hl : ∀ b, b ∈ fn'.layout ↔ b ∈ fn.layout) : cat'.size = cat.size := by
  have hnodup : (cat.keys fn.reader).Nodup := h.keys ▸ nodup_eraseDups _
  have hnodup' : (cat'.keys fn'.reader).Nodup := h'.keys ▸ nodup_eraseDups _
  have hperm := (List.perm_ext_iff_of_nodup hnodup hnodup').2 (h.mem_keys_iff h' hf hl)
  have hlength := hperm.length_eq
  rw [Catalog.length_keys, Catalog.length_keys] at hlength
  exact hlength.symm

end Func

namespace Context

variable {fn fn' : Func} {c c' c₀ c₀' : Context} {l : List BlockId} {r : Bool}

def keySet (c : Context) (fn : Func) (a : BitSet) : Set (Expression Value) :=
  {x | ∃ e ∈ a, (c.catalog.keys fn.reader)[e]? = some x}

theorem Agree.subset {a b : BitSet} (h : Agree fn fn' c c' a b)
    (hk : ∀ x ∈ c.catalog.keys fn.reader, x ∈ c'.catalog.keys fn'.reader) :
    c.keySet fn a ⊆ c'.keySet fn' b := by
  rintro x ⟨e, he, hx⟩
  obtain ⟨e', hx'⟩ := List.getElem?_of_mem (hk x (List.mem_of_getElem? hx))
  exact ⟨e', (h e e' ⟨x, hx, hx'⟩).1 he, hx'⟩

theorem Agree.symm {a b : BitSet} (h : Agree fn fn' c c' a b) : Agree fn' fn c' c b a :=
  fun e' e hm => (h e e' hm.symm).symm

theorem map_keySet_eq {A B : List BitSet} (h : List.Forall₂ (Agree fn fn' c c') A B)
    (hk : ∀ x, x ∈ c.catalog.keys fn.reader ↔ x ∈ c'.catalog.keys fn'.reader) :
    A.map (c.keySet fn) = B.map (c'.keySet fn') := by
  induction h with
  | nil => rfl
  | cons hab _ ih =>
    have hset : c.keySet fn _ = c'.keySet fn' _ :=
      Set.Subset.antisymm (hab.subset fun x => (hk x).1) (hab.symm.subset fun x => (hk x).2)
    rw [List.map_cons, List.map_cons, hset, ih]

/-- The analysis of a function ends the same way when its blocks are laid out otherwise. -/
theorem analyze_relaid (he : fn.Enclosed) (hl : l.Perm fn.layout) (hh : l.head? = fn.layout.head?)
    (hf : Fresh fn c₀) (hf' : Fresh (fn.relaid l) c₀') (hopt : c₀'.options = c₀.options)
    (h : analyze fn c₀ = .ok r c) : ∃ c', analyze (fn.relaid l) c₀' = .ok r c' := by
  have halike := he.alike hl hh
  obtain ⟨d, hd, -, hcase⟩ := analyze_cases hf h
  have hcat := hf.cataloged he hd
  have hblock : ∀ k < c₀'.nodes.size, ∃ j < c₀.nodes.size, (c₀.node j).block = (c₀'.node k).block :=
    fun k hk =>
    (Charts.mk he ⟨c₀, hf.toDrawn, .refl c₀⟩).exists_node (hl.mem_iff.1 (hf'.layout k hk))
  obtain ⟨d', hd'⟩ := hf'.numberExpressions_ok
    (fun b hb => halike.enclosed'.attached ((fn.relaid l).postOrder_perm.mem_iff.1 hb))
    (fun k hk i hi => by
      obtain ⟨hbody, hm⟩ := Numbering.mem_movables.1 hi
      obtain ⟨x, hx⟩ := hcat.movable _ (hl.mem_iff.1 (hf'.layout k hk)) i hbody hm
      exact ⟨x, (Func.key?_eq_some.1 ((halike.key? i).trans hx)).2⟩)
  have hcat' := hf'.cataloged halike.enclosed' hd'
  have hover : d'.overflow = d.overflow := by
    rw [hf'.overflow_eq hd', hf.overflow_eq hd, hopt, hcat.size_eq hcat' halike fun _ => hl.mem_iff]
  obtain ⟨c', hc'⟩ := analyze_of_numbering hf' hd' fun ho => by
    rcases hcase with ⟨hlarge, -⟩ | ⟨-, -, hscan, htrace, -⟩
    · rw [hover, hlarge] at ho
      cases ho
    refine ⟨fun k hk => ?_, fun hon k hk => ?_⟩
    · obtain ⟨j, hj, hb⟩ := hblock k hk
      rw [← hb]
      exact (hscan j hj).of_alike halike hcat.lawful.indexed hcat'.lawful.indexed fun x =>
        (hcat.mem_keys_iff hcat' halike (fun _ => hl.mem_iff) x).1
    · obtain ⟨j, hj, hb⟩ := hblock k hk
      rw [← hb]
      exact htrace (hopt ▸ hon) j hj
  refine ⟨c', ?_⟩
  rw [hc', hover]
  rcases hcase with ⟨ho, hr⟩ | ⟨ho, hr, -⟩
  · rw [ho, hr]
    rfl
  · rw [ho, hr]
    rfl

/-- The order of the blocks behind the entry does not matter. -/
theorem analyze_layout_invariant (he : fn.Enclosed) (hl : l.Perm fn.layout)
    (hh : l.head? = fn.layout.head?) (o : Options) :
    ∃ c₀ c₀', ofFunc fn o = .ok c₀ ∧ ofFunc (fn.relaid l) o = .ok c₀' ∧
      (fn.Readable → o.trace = .off → ∃ r c, analyze fn c₀ = .ok r c) ∧
      ∀ r c, analyze fn c₀ = .ok r c → ∃ c', analyze (fn.relaid l) c₀' = .ok r c' ∧
        (∀ x, x ∈ c.catalog.keys fn.reader ↔ x ∈ c'.catalog.keys (fn.relaid l).reader) ∧
        (∀ b ∈ fn.preOrder, ∀ i ∈ (fn.block b).body, (fn.instr i).op.isMovable = true →
          ∃ e, fn.exprAt c.catalog i = some e ∧ (fn.relaid l).exprAt c'.catalog i = some e) ∧
        (r = true → ∃ s s', c.sets = some s ∧ c'.sets = some s' ∧
          (∀ b ∈ fn.layout, ∃ k k', c.nodeOf fn b = .ok k ∧ c'.nodeOf (fn.relaid l) b = .ok k' ∧
            (s.ofNode k).map (c.keySet fn) = (s'.ofNode k').map (c'.keySet (fn.relaid l))) ∧
          ∀ a ∈ fn.layout, ∀ b ∈ fn.succs a, ∃ x x', c.edgeOf fn a b = .ok (some x) ∧
            c'.edgeOf (fn.relaid l) a b = .ok (some x') ∧
            (s.ofEdge x).map (c.keySet fn) = (s'.ofEdge x').map (c'.keySet (fn.relaid l))) := by
  have halike := he.alike hl hh
  obtain ⟨c₀, h₀⟩ := ofFunc_ok he.drawable o
  obtain ⟨c₀', h₀'⟩ := ofFunc_ok halike.enclosed'.drawable o
  obtain ⟨hf, hopt⟩ := ofFunc_fresh h₀
  obtain ⟨hf', hopt'⟩ := ofFunc_fresh h₀'
  refine ⟨c₀, c₀', h₀, h₀', fun hr ht => analyze_ok hf hr (hopt ▸ ht), fun r c hc => ?_⟩
  obtain ⟨c', hc'⟩ := analyze_relaid he hl hh hf hf' (hopt'.trans hopt.symm) hc
  have hcat := hf.cataloged_of_analyze he hc
  have hcat' := hf'.cataloged_of_analyze halike.enclosed' hc'
  have hkeys := hcat.mem_keys_iff hcat' halike fun _ => hl.mem_iff
  refine ⟨c', hc', hkeys, fun b hb i hi hm => hcat.exprAt_live hcat' halike hb hi hm, fun hr => ?_⟩
  subst hr
  obtain ⟨s, hs, -⟩ := analyze_spec hf hc
  obtain ⟨s', hs', -⟩ := analyze_spec hf' hc'
  have hans : Answers fn o c s := ⟨c₀, h₀, hc, hs⟩
  have hpair := hans.paired ⟨c₀', h₀', hc', hs'⟩ halike
  refine ⟨s, s', hs, hs', fun b hb => ?_, fun a ha b hb => ?_⟩
  · obtain ⟨k, k', hk, hk', htwin⟩ := hpair.nodeOf_twin hb (hl.mem_iff.2 hb)
    exact ⟨k, k', hk, hk', map_keySet_eq (hpair.ofNode_agree htwin) hkeys⟩
  · obtain ⟨x, x', hx, hx', htwin⟩ := hpair.edgeOf_twin ha (hl.mem_iff.2 ha) hb
    exact ⟨x, x', hx, hx', map_keySet_eq (hpair.ofEdge_agree htwin) hkeys⟩

/-- One of two branches computes a sum and makes the store that follows where both meet; a block
that is never reached makes another store and leads there as well. -/
def crossed : Func where
  name := "f"
  params := ["a"]
  layout := [1, 2, 3, 4, 5]
  blocks := ⟨#[{ term := some 1 }, { body := [2, 3], term := some 4, preds := [1] },
    { term := some 5, preds := [1] },
    { body := [6], term := some 7, preds := [2, 3, 5] }, { body := [8], term := some 9 }]⟩
  instrs := ⟨#[
    { op := .branch, args := [.param 0 "a"], targets := [2, 3], block := some 1 },
    { op := .binary .add, args := [.param 0 "a", .const 1], block := some 2 },
    { op := .store, args := [.param 0 "a", .global 0 "g"], block := some 2 },
    { op := .jump, targets := [4], block := some 2 },
    { op := .jump, targets := [4], block := some 3 },
    { op := .store, args := [.param 0 "a", .global 0 "g"], block := some 4 },
    { op := .ret, block := some 4 },
    { op := .store, args := [.const 3, .global 0 "g"], block := some 5 },
    { op := .jump, targets := [4], block := some 5 }]⟩

theorem analyze_layout_invariant_crossed : crossed.Enclosed ∧ [1, 5, 4, 3, 2].Perm crossed.layout ∧
    [1, 5, 4, 3, 2].head? = crossed.layout.head? ∧
    ∃ c s c' s', Answers crossed {} c s ∧ Answers (crossed.relaid [1, 5, 4, 3, 2]) {} c' s' ∧
      (∀ x, x ∈ c.catalog.keys crossed.reader ↔
        x ∈ c'.catalog.keys (crossed.relaid [1, 5, 4, 3, 2]).reader) ∧
      ∃ k k', c.nodeOf crossed 4 = .ok k ∧ c'.nodeOf (crossed.relaid [1, 5, 4, 3, 2]) 4 = .ok k' ∧
        (s.ofNode k).map (c.keySet crossed) = (s'.ofNode k').map
          (c'.keySet (crossed.relaid [1, 5, 4, 3, 2])) := by
  have he : crossed.Enclosed := by decide +kernel
  have hl : [1, 5, 4, 3, 2].Perm crossed.layout := by decide
  have hh : [1, 5, 4, 3, 2].head? = crossed.layout.head? := rfl
  obtain ⟨c₀, c₀', h₀, h₀', -, hrun⟩ := analyze_layout_invariant he hl hh {}
  obtain ⟨c, s, hans, -⟩ := answers_of_answer? crossed {} (fun _ => true) (by decide +kernel)
  obtain ⟨d₀, hd₀, hc, hs⟩ := hans
  have hd : d₀ = c₀ := by
    rw [h₀, Except.ok.injEq] at hd₀
    exact hd₀.symm
  subst hd
  obtain ⟨c', hc', hkeys, -, hsets⟩ := hrun true c hc
  obtain ⟨t, s', ht, hs', hblocks, -⟩ := hsets rfl
  rw [hs, Option.some.injEq] at ht
  subst ht
  exact ⟨he, hl, hh, c, s, c', s', ⟨d₀, h₀, hc, hs⟩, ⟨c₀', h₀', hc', hs'⟩, hkeys,
    hblocks 4 (by decide)⟩

end Context
end CodeMotion
