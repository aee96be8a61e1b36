import Mathlib
import CodeMotion.Proofs.Equations

/-! Every occurrence that is deleted is covered on every path to it: by a copy on an edge, or by an
occurrence that stays. Between that point and the deleted occurrence nothing disturbs the
expression, unless what ends a node is no terminator: an occurrence in front of it counts as exposed
whatever it computes. -/

namespace CodeMotion

variable {fn : Func} {c c₀ : Context} {s : Sets} {e k : Nat} {i j : InstrId}

namespace Func

def behind (fn : Func) (cat : Catalog Value InstrId) (b : BlockId) (e : Nat) : List InstrId :=
  (fn.before cat (fn.block b).body.reverse e).reverse

def ahead (fn : Func) (cat : Catalog Value InstrId) (b : BlockId) (e : Nat) : List InstrId :=
  (fn.block b).phis ++ fn.before cat (fn.block b).body e

/-- No instruction of a list, other than occurrences of the expression, disturbs an expression. -/
def Calm (fn : Func) (cat : Catalog Value InstrId) (e : Nat) (l : List InstrId) : Prop :=
  ∀ i ∈ l, fn.exprAt cat i ≠ some e → ¬ fn.Kills cat false i e

theorem Calm.append {cat : Catalog Value InstrId} {l m : List InstrId} (hl : fn.Calm cat e l)
    (hm : fn.Calm cat e m) : fn.Calm cat e (l ++ m) := by
  intro i hi
  rcases List.mem_append.1 hi with hi | hi
  · exact hl i hi
  · exact hm i hi

theorem not_kills_of_isTerminator {cat : Catalog Value InstrId} {reads : Bool}
    (h : (fn.instr i).op.isTerminator = true) : ¬ fn.Kills cat reads i e := by
  have hst : (fn.instr i).op ≠ .store := fun he => by rw [he] at h; cases h
  have hld : (fn.instr i).op ≠ .load := fun he => by rw [he] at h; cases h
  have hdef : fn.definition? i = none := by
    rw [Scope.definition?_of_ne_store hst]
    cases hop : (fn.instr i).op <;> simp_all [Op.hasResult, Op.isTerminator]
  rintro ⟨n, -, ⟨v, hv, -⟩ | ⟨-, hs, -⟩ | ⟨-, -, hl, -⟩⟩
  · rw [hdef] at hv
    cases hv
  · exact hst hs
  · exact hld hl

/-- A list with one occurrence is what lies in front of the first, the occurrence, and what lies
behind the last. -/
theorem mem_of_single {cat : Catalog Value InstrId} {l : List InstrId}
    (h : l.countP (fn.exprAt cat · == some e) ≤ 1) (hi : i ∈ l) :
    i ∈ fn.before cat l e ∨ fn.exprAt cat i = some e ∨ i ∈ fn.before cat l.reverse e := by
  induction l with
  | nil => simp at hi
  | cons a t ih =>
    by_cases ha : fn.exprAt cat a = some e
    · have hnone : ¬ fn.Occurs cat t e := by
        rintro ⟨j, hj, hje⟩
        have : 0 < t.countP (fn.exprAt cat · == some e) :=
          List.countP_pos_iff.2 ⟨j, hj, by simp [hje]⟩
        rw [List.countP_cons] at h
        simp only [ha, beq_self_eq_true, if_true] at h
        omega
      rcases List.mem_cons.1 hi with rfl | hi
      · exact Or.inr (Or.inl ha)
      · refine Or.inr (Or.inr ?_)
        have hrev : ¬ fn.Occurs cat t.reverse e := by simpa [Func.Occurs] using hnone
        rw [List.reverse_cons, Context.before_append_self hrev ha]
        simpa using hi
    · have hcount : t.countP (fn.exprAt cat · == some e) ≤ 1 := by
        rw [List.countP_cons] at h
        omega
      have hcons : fn.before cat (a :: t) e = a :: fn.before cat t e := by simp [Func.before, ha]
      rcases List.mem_cons.1 hi with rfl | hi
      · exact Or.inl (by rw [hcons]; simp)
      · rcases ih hcount hi with h1 | h1 | h1
        · exact Or.inl (by rw [hcons]; simp [h1])
        · exact Or.inr (Or.inl h1)
        · refine Or.inr (Or.inr ?_)
          rw [List.reverse_cons]
          by_cases hocc : fn.Occurs cat t.reverse e
          · rw [Context.before_append_of_occurs hocc]
            exact h1
          · rw [Context.before_of_not_occurs (l := t.reverse) hocc] at h1
            have hall : ¬ fn.Occurs cat (t.reverse ++ [a]) e := by
              rw [Context.occurs_append]
              rintro (h2 | ⟨j, hj, hje⟩)
              · exact hocc h2
              · rw [List.mem_singleton.1 hj] at hje
                exact ha hje
            rw [Context.before_of_not_occurs hall]
            simp [h1]

end Func

namespace Context

def occurrences (fn : Func) (c : Context) (k e : Nat) : Nat :=
  (c.body fn k).countP (fn.exprAt c.catalog · == some e)

def ending (fn : Func) (c : Context) (k : Nat) : List InstrId :=
  (fn.block (c.node k).block).term.toList

/-- What ends a node, unless it is no terminator and the node exposes the expression downward. -/
def settledEnding (fn : Func) (c : Context) (s : Sets) (e k : Nat) : List InstrId :=
  (c.ending fn k).filter fun t => decide (e ∉ s.down.of k) || (fn.instr t).op.isTerminator

/-- The instructions of the nodes that the edges of a path leave, with their ends as `ends`
gives them. -/
def passed (fn : Func) (c : Context) (ends : Nat → List InstrId) (π : List Nat) : List InstrId :=
  π.flatMap fun x => (fn.block (c.node (c.edge x).source).block).phis ++
    c.body fn (c.edge x).source ++ ends (c.edge x).source

variable {ends : Nat → List InstrId}

theorem passed_append (π ρ : List Nat) :
    c.passed fn ends (π ++ ρ) = c.passed fn ends π ++ c.passed fn ends ρ :=
  List.flatMap_append

theorem passed_cons (x : Nat) (π : List Nat) : c.passed fn ends (x :: π) =
    (fn.block (c.node (c.edge x).source).block).phis ++ c.body fn (c.edge x).source ++
      ends (c.edge x).source ++ c.passed fn ends π := List.flatMap_cons

theorem passed_snoc (π : List Nat) (x : Nat) : c.passed fn ends (π ++ [x]) = c.passed fn ends π ++
    ((fn.block (c.node (c.edge x).source).block).phis ++ c.body fn (c.edge x).source ++
      ends (c.edge x).source) := by
  simp [passed]

/-- What covers an expression from an edge on: a copy on it, or an occurrence in its source that
stays. The instructions are those of the source behind it. Where an expression is deleted, its
first occurrence goes away. -/
def Covers (fn : Func) (c : Context) (s : Sets) (e x : Nat) (l : List InstrId) : Prop :=
  (e ∈ c.insertOn s x ∧ l = []) ∨
    (e ∈ s.down.of (c.edge x).source ∧
      (e ∈ c.deleteIn s (c.edge x).source → 1 < c.occurrences fn (c.edge x).source e) ∧
      l = fn.behind c.catalog (c.node (c.edge x).source).block e ++
        c.settledEnding fn s e (c.edge x).source)

/-- A path to a node has an edge with a copy of an expression, or one whose source exposes an
occurrence that stays: if the first one is deleted there, it is not the last. From there to the
first occurrence in the node nothing disturbs the expression, where nodes end as `ends` says. -/
def CoveredOn (fn : Func) (c : Context) (s : Sets) (ends : Nat → List InstrId) (e : Nat)
    (π : List Nat) (k : Nat) : Prop :=
  ∃ π₁ x π₂, π = π₁ ++ x :: π₂ ∧
    ((e ∈ s.insert.of x ∧
      fn.Calm c.catalog e (c.passed fn ends π₂ ++ fn.ahead c.catalog (c.node k).block e)) ∨
      (e ∈ s.down.of (c.edge x).source ∧
        (e ∈ s.delete.of (c.edge x).source → 1 < c.occurrences fn (c.edge x).source e) ∧
        fn.Calm c.catalog e (fn.behind c.catalog (c.node (c.edge x).source).block e ++
          ends (c.edge x).source ++ c.passed fn ends π₂ ++
          fn.ahead c.catalog (c.node k).block e)))

/-- In a node that exposes the expression downward only a terminator counts, and it disturbs
nothing. -/
theorem calm_settledEnding (hd : e ∈ s.down.of k) :
    fn.Calm c.catalog e (c.settledEnding fn s e k) := by
  intro i hi _
  have hop := (List.mem_filter.1 hi).2
  simp only [hd, not_true_eq_false, decide_false, Bool.false_or] at hop
  exact Func.not_kills_of_isTerminator hop

end Context

namespace Context.Solved

variable (h : Solved fn c₀ c s)
include h

theorem calm_behind (hk : k < c.nodes.size) (hd : e ∈ s.down.of k) :
    fn.Calm c.catalog e (fn.behind c.catalog (c.node k).block e ++ c.settledEnding fn s e k) :=
  Func.Calm.append (fun i hi _ => ((h.exposed k hk).down e).1 hd |>.2 i (List.mem_reverse.1 hi))
    (calm_settledEnding hd)

theorem calm_ahead (hk : k < c.nodes.size) (hu : e ∈ s.up.of k) :
    fn.Calm c.catalog e (fn.ahead c.catalog (c.node k).block e) :=
  fun i hi _ hkill => ((h.exposed k hk).up e).1 hu |>.2 i hi hkill.of_false

theorem calm_untouched (hk : k < c.nodes.size) (hn : e ∉ s.kill.of k) : fn.Calm c.catalog e
    ((fn.block (c.node k).block).phis ++ c.body fn k ++ c.settledEnding fn s e k) := by
  intro i hi _ hkill
  refine hn (((h.exposed k hk).kill e).2 ⟨i, ?_, hkill.of_false⟩)
  rcases List.mem_append.1 hi with hi | hi
  · exact List.mem_append_left _ hi
  · exact List.mem_append_right _ (List.mem_filter.1 hi).1

theorem calm_single (hk : k < c.nodes.size) (hu : e ∈ s.up.of k) (hd : e ∈ s.down.of k)
    (h1 : c.occurrences fn k e ≤ 1) :
    fn.Calm c.catalog e ((fn.block (c.node k).block).phis ++ c.body fn k ++
      c.settledEnding fn s e k) := by
  refine Func.Calm.append (fun i hi hne hkill => ?_) (calm_settledEnding hd)
  rcases List.mem_append.1 hi with hi | hi
  · exact h.calm_ahead hk hu i (List.mem_append_left _ hi) hne hkill
  · rcases Func.mem_of_single h1 hi with hb | hb | hb
    · exact h.calm_ahead hk hu i (List.mem_append_right _ hb) hne hkill
    · exact hne hb
    · exact h.calm_behind hk hd i (List.mem_append_left _ (List.mem_reverse.2 hb)) hne hkill

/-- What is available at the end of a path was exposed in a node of it, and nothing has disturbed it
since. The induction is on the path. -/
theorem down_of_availOut {π : List Nat} (hπ : c.Path π k) :
    ∀ x < c.edges.size, (c.edge x).source = k → e ∈ s.availOut.of k →
    ∃ π₁ y π₂, π ++ [x] = π₁ ++ y :: π₂ ∧ y < c.edges.size ∧ c.Path π₁ (c.edge y).source ∧
      e ∈ s.down.of (c.edge y).source ∧
      fn.Calm c.catalog e (fn.behind c.catalog (c.node (c.edge y).source).block e ++
        c.settledEnding fn s e (c.edge y).source ++ c.passed fn (c.settledEnding fn s e) π₂) := by
  have hhere : ∀ {π k}, c.Path π k → ∀ x < c.edges.size, (c.edge x).source = k → e ∈ s.down.of k →
      ∃ π₁ y π₂, π ++ [x] = π₁ ++ y :: π₂ ∧ y < c.edges.size ∧ c.Path π₁ (c.edge y).source ∧
        e ∈ s.down.of (c.edge y).source ∧
        fn.Calm c.catalog e (fn.behind c.catalog (c.node (c.edge y).source).block e ++
          c.settledEnding fn s e (c.edge y).source ++ c.passed fn (c.settledEnding fn s e) π₂) := by
    intro π k hp x hx hk hd
    subst hk
    refine ⟨π, x, [], rfl, hx, hp, hd, ?_⟩
    rw [passed, List.flatMap_nil, List.append_nil]
    exact h.calm_behind (hp.lt h.wired) hd
  induction hπ with
  | entry h0 =>
    intro x hx hk ha
    rcases (h.mem_availOut ⟨[], .entry h0⟩).1 ha with hd | ⟨hin, -⟩
    · exact hhere (.entry h0) x hx hk hd
    · exact absurd hin (h.not_mem_availIn_zero h0)
  | @step π z hp hz ih =>
    intro x hx hk ha
    have hr : c.Reach (c.edge z).target := ⟨_, .step hp hz⟩
    have hlt := h.reach_lt hr
    rcases (h.mem_availOut hr).1 ha with hd | ⟨hin, hn⟩
    · exact hhere (.step hp hz) x hx hk hd
    · have h0 : (c.edge z).target ≠ 0 := fun h0 => by
        rw [h0] at hin hlt
        exact h.not_mem_availIn_zero hlt hin
      have hout := ((h.mem_availIn hr h0).1 hin).2 z hz rfl
      obtain ⟨π₁, y, π₂, hπ, hy, hp₁, hd, hcalm⟩ := ih z hz rfl hout
      refine ⟨π₁, y, π₂ ++ [x], by simp [hπ], hy, hp₁, hd, ?_⟩
      rw [passed_snoc, ← List.append_assoc, hk]
      exact hcalm.append (h.calm_untouched hlt hn)

/-- What is due at the end of a path is covered on it. The induction is on the length of the path:
an occurrence that is deleted itself is covered further up. -/
theorem covered_of_due (n : Nat) : ∀ π k, π.length ≤ n → c.Path π k → k ≠ 0 → Due s e k →
    ∃ π₁ x π₂ l, π = π₁ ++ x :: π₂ ∧ Covers fn c s e x l ∧
      fn.Calm c.catalog e (l ++ c.passed fn (c.settledEnding fn s e) π₂) := by
  induction n with
  | zero =>
    intro π k hlen hp h0 _
    cases hp with
    | entry _ => exact absurd rfl h0
    | step _ _ => simp at hlen
  | succ n ih =>
    intro π k hlen hp h0 hdue
    cases hp with
    | entry _ => exact absurd rfl h0
    | @step π x hp hx =>
      have hr : c.Reach (c.edge x).source := ⟨π, hp⟩
      have hlenπ : π.length ≤ n := by simpa using hlen
      rcases h.due_source hx hr hdue with ha | hins | ⟨hs0, hsd, hn, -⟩
      · obtain ⟨π₁, y, π₂, hπ, hy, hp₁, hd, hcalm⟩ := h.down_of_availOut hp x hx rfl ha
        by_cases hdel : e ∈ c.deleteIn s (c.edge y).source ∧
          c.occurrences fn (c.edge y).source e ≤ 1
        · -- the occurrence goes away, and what covers it covers this one
          have hlt := hp₁.lt h.wired
          obtain ⟨hy0, -, hup, hli⟩ := (h.mem_deleteIn hlt).1 hdel.1
          have hlen₁ : π₁.length ≤ n := by
            have := congrArg List.length hπ
            simp only [List.length_append, List.length_cons, List.length_nil] at this
            omega
          obtain ⟨ρ₁, z, ρ₂, l, hρ, hcov, hl⟩ :=
            ih π₁ _ hlen₁ hp₁ hy0 ⟨(h.mem_antIn hlt).2 (Or.inl hup), hli⟩
          refine ⟨ρ₁, z, ρ₂ ++ y :: π₂, l, by rw [hπ, hρ]; simp, hcov, ?_⟩
          rw [passed_append, passed_cons, ← List.append_assoc]
          refine hl.append (Func.Calm.append (h.calm_single hlt hup hd hdel.2) ?_)
          exact fun i hi => hcalm i (List.mem_append_right _ hi)
        · refine ⟨π₁, y, π₂, _, hπ, Or.inr ⟨hd, fun hm => ?_, rfl⟩, hcalm⟩
          by_contra hle
          exact hdel ⟨hm, by omega⟩
      · exact ⟨π, x, [], [], rfl, Or.inl ⟨hins, rfl⟩, by simp [passed, Func.Calm]⟩
      · obtain ⟨ρ₁, z, ρ₂, l, rfl, hcov, hl⟩ := ih π _ hlenπ hp hs0 hsd
        refine ⟨ρ₁, z, ρ₂ ++ [x], l, by simp, hcov, ?_⟩
        rw [passed_snoc, ← List.append_assoc]
        exact hl.append (h.calm_untouched (h.wired.source_lt x hx) hn)

end Context.Solved

namespace Context

def Answers (fn : Func) (o : Options) (c : Context) (s : Sets) : Prop :=
  ∃ c₀, ofFunc fn o = .ok c₀ ∧ analyze fn c₀ = .ok true c ∧ c.sets = some s

theorem Answers.solved {o : Options} (h : Answers fn o c s) :
    ∃ c₀, c.options = o ∧ Solved fn c₀ c s ∧ Decided c s := by
  obtain ⟨c₀, h0, hc, hs⟩ := h
  obtain ⟨hf, ho⟩ := ofFunc_fresh h0
  obtain ⟨t, ht, hopt, hsolved, hdec⟩ := analyze_spec hf hc
  rw [hs, Option.some.injEq] at ht
  subst ht
  exact ⟨c₀, hopt.trans ho, hsolved, hdec⟩

def answer? (fn : Func) (o : Options) : Option (Context × Sets) :=
  match ofFunc fn o with
  | .error _ => none
  | .ok c₀ =>
    match analyze fn c₀ with
    | .ok true c => c.sets.map (c, ·)
    | _ => none

theorem answers_of_answer? (fn : Func) (o : Options) (p : Context × Sets → Bool)
    (h : (answer? fn o).any p = true) : ∃ c s, Answers fn o c s ∧ p (c, s) = true := by
  obtain ⟨⟨c, s⟩, ha, hp⟩ : ∃ a, answer? fn o = some a ∧ p a = true := by
    cases ha : answer? fn o with
    | none => simp [ha] at h
    | some a => exact ⟨a, rfl, by simpa [ha] using h⟩
  refine ⟨c, s, ?_, hp⟩
  unfold answer? at ha
  split at ha
  · cases ha
  · next c₀ h0 =>
    split at ha
    · next c' hc =>
      obtain ⟨t, ht, heq⟩ := Option.map_eq_some_iff.1 ha
      cases heq
      exact ⟨c₀, h0, hc, ht⟩
    · cases ha

/-- Where every attached block ends in a terminator, all ends count. -/
theorem Solved.settledEnding_eq (h : Solved fn c₀ c s)
    (ht : ∀ b ∈ fn.layout, ∀ t ∈ (fn.block b).term, (fn.instr t).op.isTerminator = true) :
    c.settledEnding fn s e = c.ending fn := by
  funext k
  refine List.filter_eq_self.2 fun t hm => ?_
  have hterm : t ∈ (fn.block (c.node k).block).term := Option.mem_toList.1 hm
  have hk : k < c.nodes.size := by
    by_contra hk
    have hnode : c.node k = default := by simp [node, Array.getD, hk]
    rw [hnode] at hterm
    cases hterm
  have hblock : (c.node k).block ∈ fn.layout := by
    rw [h.graph.block]
    exact List.mem_of_getElem? (h.drawn.block_node (h.graph.nodes_size ▸ hk))
  rw [ht _ hblock t hterm, Bool.or_true]

/-- Every path to a deleted occurrence is covered, but that an instruction which is no terminator
may end a node on it that exposes the expression downward. -/
theorem delete_covered {o : Options} (h : Answers fn o c s) {π : List Nat} (hπ : c.Path π k)
    (he : e ∈ s.delete.of k) :
    CoveredOn fn c s (c.settledEnding fn s e) e π k ∧
      ((∀ b ∈ fn.layout, ∀ t ∈ (fn.block b).term, (fn.instr t).op.isTerminator = true) →
        CoveredOn fn c s (c.ending fn) e π k) := by
  obtain ⟨c₀, -, hs, hd⟩ := h.solved
  have hlt := hπ.lt hs.wired
  obtain ⟨hdel, hcar⟩ := (hd.delete_iff k hlt e).1 he
  obtain ⟨h0, -, hup, hli⟩ := (hs.mem_deleteIn hlt).1 hdel
  obtain ⟨π₁, x, π₂, l, rfl, hcov, hcalm⟩ :=
    hs.covered_of_due π.length π k (Nat.le_refl _) hπ h0 ⟨(hs.mem_antIn hlt).2 (Or.inl hup), hli⟩
  have hx : x < c.edges.size := hπ.edge_lt x (by simp)
  have hall := hcalm.append (hs.calm_ahead hlt hup)
  have hcovered : CoveredOn fn c s (c.settledEnding fn s e) e (π₁ ++ x :: π₂) k := by
    refine ⟨π₁, x, π₂, rfl, ?_⟩
    rcases hcov with ⟨hins, rfl⟩ | ⟨hdown, hstay, rfl⟩
    · exact Or.inl ⟨(hd.insert_iff x hx e).2 ⟨hins, hcar⟩, hall⟩
    · exact Or.inr ⟨hdown, fun hm => hstay ((hd.delete_iff _ (hs.wired.source_lt x hx) e).1 hm).1,
        hall⟩
  exact ⟨hcovered, fun ht => hs.settledEnding_eq ht ▸ hcovered⟩

/-- A loop that stores the same number to the same place in every round. -/
def spin : Func where
  name := "f"
  params := ["c"]
  layout := [1, 2, 3]
  blocks := ⟨#[{ term := some 1 }, { body := [2], term := some 3, preds := [1, 2] },
    { term := some 4, preds := [2] }]⟩
  instrs := ⟨#[
    { op := .jump, targets := [2], block := some 1 },
    { op := .store, args := [.const 1, .global 0 "g"], block := some 2 },
    { op := .branch, args := [.param 0 "c"], targets := [2, 3], block := some 2 },
    { op := .ret, block := some 3 }]⟩

theorem delete_covered_spin : ∃ c s, Answers spin {} c s ∧ c.Path [0, 1] 1 ∧ 0 ∈ s.delete.of 1 ∧
    CoveredOn spin c s (c.ending spin) 0 [0, 1] 1 := by
  obtain ⟨c, s, ha, hp⟩ := answers_of_answer? spin {}
    (fun p => p.1.nodes.size == 3 && p.1.edges == #[⟨0, 1, none⟩, ⟨1, 1, none⟩, ⟨1, 2, none⟩] &&
      (p.2.delete.of 1).contains 0)
    (by decide +kernel)
  simp only [Bool.and_eq_true, beq_iff_eq] at hp
  obtain ⟨⟨hn, he⟩, hd⟩ := hp
  have he0 : c.edge 0 = ⟨0, 1, none⟩ := by rw [edge, he]; rfl
  have he1 : c.edge 1 = ⟨1, 1, none⟩ := by rw [edge, he]; rfl
  have h0 : c.Path [] (c.edge 0).source := by
    rw [he0]
    exact .entry (by omega)
  have h1 : c.Path [0] (c.edge 1).source := by
    have := Path.step h0 (by rw [he]; decide)
    rw [he0] at this
    rw [he1]
    exact this
  have hπ : c.Path [0, 1] 1 := by
    have := Path.step h1 (by rw [he]; decide)
    rw [he1] at this
    exact this
  exact ⟨c, s, ha, hπ, hd, (delete_covered ha hπ hd).2 (by decide)⟩

/-- The first block ends in a call, whose result both blocks store. -/
def late : Func where
  name := "f"
  layout := [1, 2]
  blocks := ⟨#[{ body := [1], term := some 2 }, { body := [3], term := some 4, preds := [1] }]⟩
  instrs := ⟨#[
    { op := .store, args := [.instr 2, .global 0 "g"], block := some 1 },
    { op := .call, targets := [2], block := some 1 },
    { op := .store, args := [.instr 2, .global 0 "g"], block := some 2 },
    { op := .ret, block := some 2 }]⟩

/-- The second store is deleted, though the call at the end of the first block has changed what it
stores. -/
theorem delete_uncovered_late :
    ∃ c s, Answers late {} c s ∧ (∀ x < c.edges.size, (c.edge x).target ≠ 0) ∧
    c.Path [0] 1 ∧ 0 ∈ s.delete.of 1 ∧ ¬ CoveredOn late c s (c.ending late) 0 [0] 1 := by
  obtain ⟨c, s, ha, hp⟩ := answers_of_answer? late {}
    (fun p => decide (p.1.nodes.size = 2 ∧ p.1.edges = #[⟨0, 1, none⟩] ∧
      0 ∈ p.2.delete.of 1 ∧ 0 ∉ p.2.insert.of 0 ∧ p.1.ending late 0 = [2] ∧
      late.exprAt p.1.catalog 2 = none ∧ (p.1.catalog.entries[0]?).any fun n =>
        (n.expression late.reader).operands.contains (.instr 2)))
    (by decide +kernel)
  have hp := of_decide_eq_true hp
  dsimp only at hp
  obtain ⟨hn, he, hd, hi, hend, hexpr, hop⟩ := hp
  have he0 : c.edge 0 = ⟨0, 1, none⟩ := by rw [edge, he]; rfl
  have hπ : c.Path [0] 1 := by
    have hstart : c.Path [] (c.edge 0).source := by
      rw [he0]
      exact .entry (by omega)
    have := Path.step hstart (by rw [he]; decide)
    rwa [he0] at this
  have hkills : late.Kills c.catalog false 2 0 := by
    obtain ⟨n, hn, hv⟩ := (Option.any_eq_true _ _).1 hop
    exact ⟨n, hn, Or.inl ⟨.instr 2, rfl, List.contains_iff_mem.1 hv⟩⟩
  refine ⟨c, s, ha, fun x hx => ?_, hπ, hd, ?_⟩
  · obtain rfl : x = 0 := by simpa [he] using hx
    rw [he0]
    decide
  · rintro ⟨π₁, x, π₂, hsplit, hcov⟩
    obtain ⟨rfl, rfl, rfl⟩ : π₁ = [] ∧ x = 0 ∧ π₂ = [] := by
      cases π₁ with
      | nil => simpa [eq_comm] using hsplit
      | cons _ _ => simp at hsplit
    rcases hcov with ⟨hins, -⟩ | ⟨-, -, hcalm⟩
    · exact hi hins
    · refine hcalm 2 ?_ (by simp [hexpr]) hkills
      simp [he0, hend]

end Context
end CodeMotion
