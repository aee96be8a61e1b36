import Mathlib
import CodeMotion.Context.Exposure
import CodeMotion.Proofs.Numbering

/-! What the scans of a block find, said by occurrences: an expression is killed by a block if one
of its instructions disturbs it, exposed upward if nothing does so before its first occurrence, and
exposed downward if nothing but a load does so after its last one. -/

namespace CodeMotion

variable {fn : Func} {cat : Catalog Value InstrId} {i j : InstrId} {e : Nat} {reads : Bool}

/-- What an instruction defines: a store its address, anything else its result. -/
def Func.definition? (fn : Func) (i : InstrId) : Option Value :=
  match (fn.instr i).op with
  | .store => (fn.instr i).args[1]?
  | op => if op.hasResult then some (.instr i) else none

/-- An instruction disturbs the expression with number `e`: it defines one of its operands, or the
expression is a store and the instruction is another store to its address, or a load of it if that
counts. -/
def Func.Kills (fn : Func) (cat : Catalog Value InstrId) (reads : Bool) (i : InstrId) (e : Nat) :
    Prop :=
  ∃ n, cat.entries[e]? = some n ∧
    ((∃ v, fn.definition? i = some v ∧ v ∈ (n.expression fn.reader).operands) ∨
      (n.op = .store ∧ (fn.instr i).op = .store ∧ (fn.instr i).args[1]? = some n.dest ∧
        fn.exprAt cat i ≠ some e) ∨
      (n.op = .store ∧ reads = true ∧ (fn.instr i).op = .load ∧
        (fn.instr i).args[0]? = some n.dest))

theorem Func.Kills.of_false (h : fn.Kills cat false i e) : fn.Kills cat true i e := by
  obtain ⟨n, hn, h | h | h⟩ := h
  · exact ⟨n, hn, Or.inl h⟩
  · exact ⟨n, hn, Or.inr (Or.inl h)⟩
  · simp at h

def Func.before (fn : Func) (cat : Catalog Value InstrId) (l : List InstrId) (e : Nat) :
    List InstrId :=
  l.takeWhile fun j => fn.exprAt cat j != some e

def Func.Occurs (fn : Func) (cat : Catalog Value InstrId) (l : List InstrId) (e : Nat) : Prop :=
  ∃ i ∈ l, fn.exprAt cat i = some e

namespace Scope

structure Tracks (fn : Func) (cat : Catalog Value InstrId) (l : List InstrId) (sc : Scope) :
    Prop where
  defs : ∀ v, v ∈ sc.defs ↔ ∃ i ∈ l, fn.definition? i = some v
  loads : ∀ v, v ∈ sc.loads ↔ ∃ i ∈ l, (fn.instr i).op = .load ∧ (fn.instr i).args[0]? = some v
  stores : ∀ a f, (a, f) ∈ sc.stores ↔
    ∃ i ∈ l, (fn.instr i).op = .store ∧ (fn.instr i).args[1]? = some a ∧
      cat.index fn.reader i = .ok f
  indexed : ∀ i ∈ l, (fn.instr i).op = .store → ∃ f, cat.index fn.reader i = .ok f

theorem tracks_nil : Tracks fn cat [] {} := ⟨by simp, by simp, by simp, by simp⟩

def Addable (fn : Func) (cat : Catalog Value InstrId) (i : InstrId) : Prop :=
  ((fn.instr i).op = .store → (∃ a, (fn.instr i).args[1]? = some a) ∧
    ∃ f, cat.index fn.reader i = .ok f) ∧
    ((fn.instr i).op = .load → ∃ a, (fn.instr i).args[0]? = some a)

theorem add_store {sc : Scope} {a : Value} {f : Nat} (hop : (fn.instr i).op = .store)
    (ha : (fn.instr i).args[1]? = some a) (hf : cat.index fn.reader i = .ok f) :
    sc.add fn cat i = .ok { sc with defs := a :: sc.defs, stores := sc.stores ++ [(a, f)] } := by
  unfold add
  simp [hop, entryAt_ok.2 ha, hf, bind, Except.bind, pure, Except.pure]

theorem add_load {sc : Scope} {a : Value} (hop : (fn.instr i).op = .load)
    (ha : (fn.instr i).args[0]? = some a) :
    sc.add fn cat i = .ok { sc with defs := .instr i :: sc.defs, loads := a :: sc.loads } := by
  unfold add
  simp [hop, entryAt_ok.2 ha, bind, Except.bind, pure, Except.pure]

theorem add_other {sc : Scope} (hs : (fn.instr i).op ≠ .store) (hl : (fn.instr i).op ≠ .load) :
    sc.add fn cat i = .ok (if (fn.instr i).op.hasResult then { sc with defs := .instr i :: sc.defs }
      else sc) := by
  unfold add
  cases hop : (fn.instr i).op <;> simp_all [pure, Except.pure]

theorem addable_of_add {sc sc' : Scope} (h : sc.add fn cat i = .ok sc') : Addable fn cat i := by
  constructor
  · intro hop
    unfold add at h
    simp only [hop, bind, Except.bind] at h
    cases ha : entryAt (fn.instr i).args 1 with
    | error err => simp [ha] at h
    | ok a =>
      cases hf : cat.index fn.reader i with
      | error err => simp [ha, hf] at h
      | ok f => exact ⟨⟨a, entryAt_ok.1 ha⟩, f, rfl⟩
  · intro hop
    unfold add at h
    simp only [hop, bind, Except.bind] at h
    cases ha : entryAt (fn.instr i).args 0 with
    | error err => simp [ha] at h
    | ok a => exact ⟨a, entryAt_ok.1 ha⟩

theorem definition?_of_ne_store (hop : (fn.instr i).op ≠ .store) :
    fn.definition? i = if (fn.instr i).op.hasResult then some (.instr i) else none := by
  unfold Func.definition?
  split
  · next h => exact absurd h hop
  · rfl

theorem Tracks.add {l : List InstrId} {sc : Scope} (h : Tracks fn cat l sc)
    (hi : Addable fn cat i) : ∃ sc', sc.add fn cat i = .ok sc' ∧ Tracks fn cat (l ++ [i]) sc' := by
  by_cases hst : (fn.instr i).op = .store
  · obtain ⟨⟨a, ha⟩, f, hf⟩ := hi.1 hst
    have hdef : fn.definition? i = some a := by simp [Func.definition?, hst, ha]
    refine ⟨_, add_store hst ha hf, fun v => ?_, fun v => ?_, fun b g => ?_, ?_⟩
    · simp [h.defs, or_comm, or_and_right, exists_or, hdef, eq_comm]
    · simp [h.loads, hst, or_and_right, exists_or]
    · simp [h.stores, hst, ha, hf, or_and_right, exists_or, eq_comm]
    · intro j hj hop
      rcases List.mem_append.1 hj with hj | hj
      · exact h.indexed j hj hop
      · rw [List.mem_singleton.1 hj]
        exact ⟨f, hf⟩
  · have hidx : ∀ j ∈ l ++ [i], (fn.instr j).op = .store → ∃ f, cat.index fn.reader j = .ok f := by
      intro j hj hop
      rcases List.mem_append.1 hj with hj | hj
      · exact h.indexed j hj hop
      · rw [List.mem_singleton.1 hj] at hop
        exact absurd hop hst
    have hdef := definition?_of_ne_store hst
    by_cases hld : (fn.instr i).op = .load
    · obtain ⟨a, ha⟩ := hi.2 hld
      have hres : (fn.instr i).op.hasResult = true := by rw [hld]; rfl
      rw [hres, if_pos rfl] at hdef
      refine ⟨_, add_load hld ha, fun v => ?_, fun v => ?_, fun b g => ?_, hidx⟩
      · simp [h.defs, or_comm, or_and_right, exists_or, hdef, eq_comm]
      · simp [h.loads, hld, ha, or_comm, or_and_right, exists_or, eq_comm]
      · simp [h.stores, hld, or_and_right, exists_or]
    · refine ⟨_, add_other hst hld, fun v => ?_, fun v => ?_, fun b g => ?_, hidx⟩
      · cases hres : (fn.instr i).op.hasResult
        · simp [h.defs, or_and_right, exists_or, hdef, hres]
        · simp [h.defs, or_comm, or_and_right, exists_or, hdef, hres, eq_comm]
      · cases hres : (fn.instr i).op.hasResult <;> simp [h.loads, hld, or_and_right, exists_or]
      · cases hres : (fn.instr i).op.hasResult <;> simp [h.stores, hst, or_and_right, exists_or]

theorem exprAt_store (hop : (fn.instr i).op = .store) {f : Nat}
    (hf : cat.index fn.reader i = .ok f) :
    fn.exprAt cat i = some f := Catalog.exprAt_eq_of_index (by rw [hop]; rfl) hf

/-- A scope kills an expression exactly if one of its instructions does. -/
theorem Tracks.kills_iff {l : List InstrId} {sc : Scope} (h : Tracks fn cat l sc)
    {n : Catalog.Entry Value InstrId} (hn : cat.entries[e]? = some n) :
    sc.kills fn n e reads = true ↔ ∃ i ∈ l, fn.Kills cat reads i e := by
  simp only [kills, stored, Bool.or_eq_true, List.any_eq_true, Bool.and_eq_true, beq_iff_eq,
    bne_iff_ne, Prod.exists, List.contains_iff_mem]
  constructor
  · rintro (⟨v, hv, hd⟩ | ⟨hop, ⟨a, f, hm, rfl, hf⟩ | ⟨hr, hl⟩⟩)
    · obtain ⟨i, hi, hdef⟩ := (h.defs v).1 hd
      exact ⟨i, hi, n, hn, Or.inl ⟨v, hdef, hv⟩⟩
    · obtain ⟨i, hi, hst, ha, hidx⟩ := (h.stores _ f).1 hm
      refine ⟨i, hi, n, hn, Or.inr (Or.inl ⟨hop, hst, ha, ?_⟩)⟩
      rw [exprAt_store hst hidx]
      simpa using hf
    · obtain ⟨i, hi, hld, ha⟩ := (h.loads n.dest).1 hl
      exact ⟨i, hi, n, hn, Or.inr (Or.inr ⟨hop, hr, hld, ha⟩)⟩
  · rintro ⟨i, hi, m, hm, hk⟩
    rw [hn, Option.some.injEq] at hm
    subst hm
    rcases hk with ⟨v, hdef, hv⟩ | ⟨hop, hst, ha, hne⟩ | ⟨hop, hr, hld, ha⟩
    · exact Or.inl ⟨v, hv, (h.defs v).2 ⟨i, hi, hdef⟩⟩
    · obtain ⟨f, hf⟩ := h.indexed i hi hst
      refine Or.inr ⟨hop, Or.inl ⟨n.dest, f, (h.stores _ f).2 ⟨i, hi, hst, ha, hf⟩, rfl, ?_⟩⟩
      rw [exprAt_store hst hf] at hne
      simpa using hne
    · exact Or.inr ⟨hop, Or.inr ⟨hr, (h.loads n.dest).2 ⟨i, hi, hld, ha⟩⟩⟩

theorem foldlM_add_inv {l : List InstrId} {sc sc' : Scope} {pre : List InstrId}
    (h : Tracks fn cat pre sc) (hf : l.foldlM (Scope.add fn cat) sc = .ok sc') :
    Tracks fn cat (pre ++ l) sc' := by
  induction l generalizing pre sc with
  | nil =>
    simp only [List.foldlM_nil, pure, Except.pure, Except.ok.injEq] at hf
    simpa [← hf] using h
  | cons a t ih =>
    rw [List.foldlM_cons] at hf
    cases ha : sc.add fn cat a with
    | error err => simp [ha, bind, Except.bind] at hf
    | ok s1 =>
      obtain ⟨s2, h2, ht⟩ := h.add (addable_of_add ha)
      rw [ha] at h2
      cases h2
      simp only [ha, bind, Except.bind] at hf
      have := ih ht hf
      simpa using this

theorem foldlM_add_ok {l : List InstrId} (hl : ∀ i ∈ l, Addable fn cat i) {sc : Scope}
    {pre : List InstrId} (h : Tracks fn cat pre sc) :
    ∃ sc', l.foldlM (Scope.add fn cat) sc = .ok sc' := by
  induction l generalizing pre sc with
  | nil => exact ⟨sc, rfl⟩
  | cons a t ih =>
    obtain ⟨s1, h1, ht⟩ := h.add (hl a (by simp))
    obtain ⟨s2, h2⟩ := ih (fun i hi => hl i (by simp [hi])) ht
    exact ⟨s2, by simp [List.foldlM_cons, h1, bind, Except.bind, h2]⟩

theorem addable_of_foldlM_add {l : List InstrId} {sc sc' : Scope}
    (h : l.foldlM (Scope.add fn cat) sc = .ok sc') : ∀ i ∈ l, Addable fn cat i := by
  induction l generalizing sc with
  | nil => simp
  | cons a t ih =>
    rw [List.foldlM_cons] at h
    cases ha : sc.add fn cat a with
    | error err => simp [ha, bind, Except.bind] at h
    | ok s1 =>
      simp only [ha, bind, Except.bind] at h
      rw [List.forall_mem_cons]
      exact ⟨addable_of_add ha, ih h⟩

end Scope

namespace Context

/-- What holds in the middle of a scan: `phis` were added to the scope before it began, and `l` was
scanned, starting from the set `init`. -/
structure Scanning (fn : Func) (cat : Catalog Value InstrId) (reads : Bool) (phis : List InstrId)
    (init : BitSet) (l : List InstrId) (s : Scan) : Prop where
  scope : s.scope.Tracks fn cat (phis ++ l)
  met : ∀ e, s.met.lookup e = l.find? fun i => fn.exprAt cat i == some e
  mem_set : ∀ e, e ∈ s.set ↔
    e ∈ init ∧ (fn.Occurs cat l e → ∀ j ∈ phis ++ fn.before cat l e, ¬ fn.Kills cat reads j e)
  size : s.set.size = init.size
  numbered : ∀ i ∈ l, (fn.instr i).op.isMovable = true → ∃ e, fn.exprAt cat i = some e

def Scannable (fn : Func) (cat : Catalog Value InstrId) (i : InstrId) : Prop :=
  Scope.Addable fn cat i ∧ ((fn.instr i).op.isMovable = true → ∃ e, cat.index fn.reader i = .ok e)

def note (fn : Func) (cat : Catalog Value InstrId) (reads : Bool) (i : InstrId) (e : Nat)
    (s : Scan) : Scan :=
  if s.met.any (·.1 == e) then s
  else
    { s with
      met := s.met ++ [(e, i)]
      set := if cat.entries[e]?.any (s.scope.kills fn · e reads) then s.set.erase e else s.set }

theorem scanStep_movable (hm : (fn.instr i).op.isMovable = true)
    (he : cat.index fn.reader i = .ok e) {s : Scan} {sc : Scope}
    (hs : s.scope.add fn cat i = .ok sc) :
    scanStep fn cat reads i s = .ok ⟨⟩ { note fn cat reads i e s with scope := sc } := by
  unfold scanStep note
  by_cases hmet : s.met.any (·.1 == e) = true
  · simp [hm, he, hmet, hs]
  · simp only [hm, he, if_true, Change.check_bind, Change.get_bind, hmet, Bool.not_false,
      Bool.false_eq_true, if_false, Change.set_bind, hs]
    rfl

theorem scanStep_fixed (hm : (fn.instr i).op.isMovable = false) {s : Scan} {sc : Scope}
    (hs : s.scope.add fn cat i = .ok sc) :
    scanStep fn cat reads i s = .ok ⟨⟩ { s with scope := sc } := by
  unfold scanStep
  simp [hm, hs]

theorem scannable_of_scanStep {s s' : Scan} (h : scanStep fn cat reads i s = .ok ⟨⟩ s') :
    Scannable fn cat i := by
  by_cases hm : (fn.instr i).op.isMovable = true
  · unfold scanStep at h
    simp only [hm, if_true] at h
    cases he : cat.index fn.reader i with
    | error err =>
      rw [he] at h
      simp [Change.bind_ok, Change.check] at h
    | ok e =>
      refine ⟨?_, fun _ => ⟨e, he⟩⟩
      simp only [he, Change.check_bind, Change.get_bind] at h
      cases hs : s.scope.add fn cat i with
      | error err =>
        split at h
        · simp [hs, Change.bind_ok, Change.check] at h
        · simp [hs, Change.bind_ok, Change.check] at h
      | ok sc => exact Scope.addable_of_add hs
  · have hm' : (fn.instr i).op.isMovable = false := by simpa using hm
    refine ⟨?_, fun h => absurd h hm⟩
    unfold scanStep at h
    simp only [hm', Bool.false_eq_true, if_false, Change.get_bind] at h
    cases hs : s.scope.add fn cat i with
    | error err => simp [hs, Change.bind_ok, Change.check] at h
    | ok sc => exact Scope.addable_of_add hs

theorem lookup_append_self {α : Type} {l : List (Nat × α)} {e f : Nat} {a : α} :
    (l ++ [(e, a)]).lookup f = if (l.lookup f).isSome then l.lookup f else if f = e then some a
      else none := by
  induction l with
  | nil =>
    by_cases h : f = e
    · simp [List.lookup, h]
    · have : (f == e) = false := by simpa using h
      simp [List.lookup, h, this]
  | cons p t ih =>
    by_cases h : f = p.1
    · simp [List.lookup, h]
    · have : (f == p.1) = false := by simpa using h
      simp only [List.cons_append, List.lookup, this]
      exact ih

theorem any_met {l : List (Nat × InstrId)} : l.any (·.1 == e) = (l.lookup e).isSome := by
  induction l with
  | nil => rfl
  | cons p t ih =>
    by_cases h : e = p.1
    · simp [List.lookup, h]
    · have h1 : (e == p.1) = false := by simpa using h
      have h2 : (p.1 == e) = false := by simpa using fun h' => h h'.symm
      simp only [List.any_cons, h2, Bool.false_or, List.lookup, h1]
      exact ih

theorem before_append_of_occurs {l : List InstrId} (h : fn.Occurs cat l e) (m : List InstrId) :
    fn.before cat (l ++ m) e = fn.before cat l e := by
  unfold Func.before
  induction l with
  | nil => simp [Func.Occurs] at h
  | cons a t ih =>
    by_cases ha : fn.exprAt cat a = some e
    · simp [ha]
    · have : fn.Occurs cat t e := by
        obtain ⟨i, hi, hx⟩ := h
        rcases List.mem_cons.1 hi with rfl | hi
        · exact absurd hx ha
        · exact ⟨i, hi, hx⟩
      simp [ha, ih this]

theorem before_of_not_occurs {l : List InstrId} (h : ¬ fn.Occurs cat l e) :
    fn.before cat l e = l := by
  unfold Func.before
  rw [List.takeWhile_eq_self_iff]
  intro j hj
  simp only [bne_iff_ne]
  exact fun hx => h ⟨j, hj, hx⟩

theorem before_append_self {l : List InstrId} (h : ¬ fn.Occurs cat l e)
    (hi : fn.exprAt cat i = some e) : fn.before cat (l ++ [i]) e = l := by
  unfold Func.before
  have := before_of_not_occurs h
  unfold Func.before at this
  rw [List.takeWhile_append, this]
  simp [hi]

theorem occurs_append {l m : List InstrId} :
    fn.Occurs cat (l ++ m) e ↔ fn.Occurs cat l e ∨ fn.Occurs cat m e := by
  simp [Func.Occurs, or_and_right, exists_or]

theorem find?_isSome_iff {l : List InstrId} :
    (l.find? fun i => fn.exprAt cat i == some e).isSome = true ↔ fn.Occurs cat l e := by
  simp [Func.Occurs]

namespace Scanning

variable {phis l : List InstrId} {init : BitSet} {s : Scan}

theorem met_iff (h : Scanning fn cat reads phis init l s) :
    s.met.any (·.1 == e) = true ↔ fn.Occurs cat l e := by
  rw [any_met, h.met, find?_isSome_iff]

/-- An instruction that is no occurrence of `e` changes nothing for it. -/
theorem mem_set_append (h : Scanning fn cat reads phis init l s) (hi : fn.exprAt cat i ≠ some e) :
    e ∈ s.set ↔
      e ∈ init ∧ (fn.Occurs cat (l ++ [i]) e → ∀ j ∈ phis ++ fn.before cat (l ++ [i]) e,
        ¬ fn.Kills cat reads j e) := by
  rw [h.mem_set]
  have hocc : fn.Occurs cat (l ++ [i]) e ↔ fn.Occurs cat l e := by
    rw [occurs_append]
    simp [Func.Occurs, hi]
  rw [hocc]
  refine and_congr Iff.rfl (imp_congr_right fun ho => ?_)
  rw [before_append_of_occurs ho]

theorem numbered_append (h : Scanning fn cat reads phis init l s) (he : fn.exprAt cat i = some e) :
    ∀ j ∈ l ++ [i], (fn.instr j).op.isMovable = true → ∃ e, fn.exprAt cat j = some e := by
  intro j hj hm
  rcases List.mem_append.1 hj with hj | hj
  · exact h.numbered j hj hm
  · rw [List.mem_singleton.1 hj]
    exact ⟨e, he⟩

/-- An occurrence behind another one of the same expression changes nothing. -/
theorem again (h : Scanning fn cat reads phis init l s) (he : fn.exprAt cat i = some e)
    (ho : fn.Occurs cat l e) {sc : Scope} (hsc : sc.Tracks fn cat (phis ++ (l ++ [i]))) :
    Scanning fn cat reads phis init (l ++ [i]) { s with scope := sc } := by
  refine ⟨hsc, fun f => ?_, fun f => ?_, h.size, h.numbered_append he⟩
  · rw [h.met, List.find?_append]
    by_cases hf : f = e
    · subst hf
      obtain ⟨a, ha⟩ := Option.isSome_iff_exists.1 (find?_isSome_iff.2 ho)
      simp [ha]
    · have : ¬ e = f := fun h => hf h.symm
      simp [he, this]
  · by_cases hf : f = e
    · subst hf
      rw [h.mem_set, occurs_append, before_append_of_occurs ho]
      simp [ho]
    · exact h.mem_set_append (by rw [he]; simpa using fun h => hf h.symm)

/-- The first occurrence decides whether its expression is exposed. -/
theorem mem_set_first (h : Scanning fn cat reads phis init l s) (he : fn.exprAt cat i = some e)
    (ho : ¬ fn.Occurs cat l e) {f : Nat} :
    f ∈ (if cat.entries[e]?.any (s.scope.kills fn · e reads) = true then s.set.erase e else s.set) ↔
      f ∈ init ∧ (fn.Occurs cat (l ++ [i]) f → ∀ j ∈ phis ++ fn.before cat (l ++ [i]) f,
        ¬ fn.Kills cat reads j f) := by
  obtain ⟨n, hn, -⟩ := Catalog.exprAt_entry he
  have hkill : cat.entries[e]?.any (s.scope.kills fn · e reads) = true ↔ ∃ j ∈ phis ++ l,
      fn.Kills cat reads j e := by
    rw [hn, Option.any_some, h.scope.kills_iff hn]
  by_cases hf : f = e
  · subst hf
    have hinit : f ∈ s.set ↔ f ∈ init := by
      rw [h.mem_set]
      simp [ho]
    rw [before_append_self ho he]
    split
    · next hk =>
      obtain ⟨j, hj, hjk⟩ := hkill.1 hk
      have hocc : fn.Occurs cat (l ++ [i]) f := ⟨i, by simp, he⟩
      simp only [BitSet.mem_erase, ne_eq, not_true_eq_false, false_and, false_iff, not_and]
      exact fun _ hall => hall hocc j hj hjk
    · next hk =>
      rw [hinit]
      exact ⟨fun hm => ⟨hm, fun _ j hj hjk => hk (hkill.2 ⟨j, hj, hjk⟩)⟩, And.left⟩
  · rw [← h.mem_set_append (by rw [he]; simpa using fun h => hf h.symm)]
    split
    · simp [hf]
    · rfl

theorem note (h : Scanning fn cat reads phis init l s) (he : fn.exprAt cat i = some e) {sc : Scope}
    (hsc : sc.Tracks fn cat (phis ++ (l ++ [i]))) :
    Scanning fn cat reads phis init (l ++ [i])
      { Context.note fn cat reads i e s with scope := sc } := by
  unfold Context.note
  by_cases hmet : s.met.any (·.1 == e) = true
  · rw [if_pos hmet]
    exact h.again he (h.met_iff.1 hmet) hsc
  · have ho : ¬ fn.Occurs cat l e := fun h' => hmet (h.met_iff.2 h')
    have hlook : s.met.lookup e = none := by
      rw [any_met] at hmet
      exact Option.not_isSome_iff_eq_none.1 hmet
    rw [if_neg hmet]
    refine ⟨hsc, fun f => ?_, fun f => h.mem_set_first he ho, ?_, h.numbered_append he⟩
    · show (s.met ++ [(e, i)]).lookup f = _
      rw [lookup_append_self, List.find?_append, h.met]
      by_cases hf : f = e
      · subst hf
        rw [h.met] at hlook
        simp [hlook, he]
      · have : ¬ e = f := fun h => hf h.symm
        cases hl : l.find? fun i => fn.exprAt cat i == some f <;> simp [he, this, hf]
    · show (if _ then s.set.erase e else s.set).size = _
      split <;> simp [h.size]

theorem step (h : Scanning fn cat reads phis init l s) (hi : Scannable fn cat i) :
    ∃ s', scanStep fn cat reads i s = .ok ⟨⟩ s' ∧
      Scanning fn cat reads phis init (l ++ [i]) s' := by
  obtain ⟨sc, hsc, ht⟩ := h.scope.add hi.1
  rw [List.append_assoc] at ht
  by_cases hm : (fn.instr i).op.isMovable = true
  · obtain ⟨e, he⟩ := hi.2 hm
    exact ⟨_, scanStep_movable hm he hsc, h.note (Catalog.exprAt_eq_of_index hm he) ht⟩
  · have hm' : (fn.instr i).op.isMovable = false := by simpa using hm
    have hx : ∀ e, fn.exprAt cat i ≠ some e := fun e he => hm (Catalog.exprAt_iff.1 he).1
    refine ⟨_, scanStep_fixed hm' hsc, ht, fun f => ?_, fun f => h.mem_set_append (hx f), h.size,
      ?_⟩
    · show s.met.lookup f = _
      rw [h.met, List.find?_append]
      cases hl : l.find? fun i => fn.exprAt cat i == some f <;> simp [hx f]
    · intro j hj hmj
      rcases List.mem_append.1 hj with hj | hj
      · exact h.numbered j hj hmj
      · rw [List.mem_singleton.1 hj] at hmj
        exact absurd hmj hm

theorem loop_inv {is : List InstrId} {s' : Scan} (h : Scanning fn cat reads phis init [] s)
    (hl : is.forM (scanStep fn cat reads) s = .ok ⟨⟩ s') :
    Scanning fn cat reads phis init is s' := by
  refine Change.forM_inv (Scanning fn cat reads phis init) (fun pre i post s s' _ hs hi => ?_) h hl
  obtain ⟨s2, h2, hs2⟩ := hs.step (scannable_of_scanStep hi)
  rw [hi] at h2
  cases h2
  exact hs2

theorem loop_ok {is : List InstrId} (h : Scanning fn cat reads phis init [] s)
    (hi : ∀ i ∈ is, Scannable fn cat i) : ∃ s', is.forM (scanStep fn cat reads) s = .ok ⟨⟩ s' := by
  obtain ⟨s', hs', -⟩ :=
    Change.forM_ok (Scanning fn cat reads phis init) (f := scanStep fn cat reads) (l := is) (s := s)
    (fun pre i post s hl hs => hs.step (hi i (by rw [hl]; simp))) h
  exact ⟨s', hs'⟩

end Scanning

theorem scanUp_inv {b : BlockId} {init : BitSet} {s : Scan}
    (h : scanUp fn cat b { set := init } = .ok ⟨⟩ s) :
    Scanning fn cat true (fn.block b).phis init (fn.block b).body s := by
  unfold scanUp at h
  rw [Change.bind_ok] at h
  obtain ⟨_, s1, h1, h2⟩ := h
  have hphi : s1.scope.Tracks fn cat (fn.block b).phis ∧ s1.met = [] ∧ s1.set = init := by
    refine Change.forM_inv (fun l (s : Scan) => s.scope.Tracks fn cat l ∧ s.met = [] ∧ s.set = init)
      (fun pre p post s s' _ hs hp => ?_) ⟨Scope.tracks_nil, rfl, rfl⟩ h1
    rw [Change.get_bind, Change.bind_ok] at hp
    obtain ⟨sc, s2, hadd, hset⟩ := hp
    obtain ⟨hadd', rfl⟩ := Change.check_apply.1 hadd
    obtain ⟨sc', hsc', ht⟩ := hs.1.add (Scope.addable_of_add hadd')
    rw [hadd'] at hsc'
    cases hsc'
    cases hset
    exact ⟨ht, hs.2⟩
  refine Scanning.loop_inv ⟨by simpa using hphi.1, ?_, ?_, by rw [hphi.2.2], by simp⟩ h2
  · simp [hphi.2.1]
  · simp [hphi.2.2, Func.Occurs]

theorem scanUp_ok {b : BlockId} (init : BitSet)
    (hp : ∀ i ∈ (fn.block b).phis, Scope.Addable fn cat i)
    (hb : ∀ i ∈ (fn.block b).body, Scannable fn cat i) :
    ∃ s, scanUp fn cat b { set := init } = .ok ⟨⟩ s := by
  obtain ⟨s1, h1, ht, hm, hs⟩ := Change.forM_ok
    (fun l (s : Scan) => s.scope.Tracks fn cat l ∧ s.met = [] ∧ s.set = init)
    (l := (fn.block b).phis) (s := { set := init })
    (f := fun p => do
      let s ← get
      set { s with scope := ← Change.check (s.scope.add fn cat p) })
    (fun pre p post s hl hs => by
      obtain ⟨sc, hsc, ht⟩ := hs.1.add (hp p (by rw [hl]; simp))
      exact ⟨{ s with scope := sc }, by simp [hsc], ht, hs.2⟩)
    ⟨Scope.tracks_nil, rfl, rfl⟩
  have hstart : Scanning fn cat true (fn.block b).phis init [] s1 :=
    ⟨by simpa using ht, by simp [hm], by simp [hs, Func.Occurs], by rw [hs], by simp⟩
  obtain ⟨s2, h2⟩ := hstart.loop_ok hb
  unfold scanUp
  rw [Change.bind_eq h1]
  exact ⟨s2, h2⟩

theorem scanDown_inv {b : BlockId} {init : BitSet} {s : Scan}
    (h : scanDown fn cat b { set := init } = .ok ⟨⟩ s) :
    Scanning fn cat false [] init (fn.block b).body.reverse s :=
  Scanning.loop_inv ⟨Scope.tracks_nil, by simp, by simp [Func.Occurs], rfl, by simp⟩ h

theorem scanDown_ok {b : BlockId} (init : BitSet)
    (hb : ∀ i ∈ (fn.block b).body, Scannable fn cat i) :
    ∃ s, scanDown fn cat b { set := init } = .ok ⟨⟩ s := by
  have hstart : Scanning fn cat false [] init [] { set := init } :=
    ⟨Scope.tracks_nil, by simp, by simp [Func.Occurs], rfl, by simp⟩
  exact hstart.loop_ok fun i hi => hb i (List.mem_reverse.1 hi)

structure Exposed (fn : Func) (c : Context) (s : Sets) (k : Nat) : Prop where
  kill : ∀ e, e ∈ s.kill.of k ↔ ∃ i ∈ fn.listed (c.node k).block, fn.Kills c.catalog true i e
  down : ∀ e, e ∈ s.down.of k ↔
    fn.Occurs c.catalog (c.body fn k) e ∧ ∀ j ∈ fn.before c.catalog (c.body fn k).reverse e,
      ¬ fn.Kills c.catalog false j e
  up : ∀ e, e ∈ s.up.of k ↔ fn.Occurs c.catalog (c.body fn k) e ∧
    ∀ j ∈ (fn.block (c.node k).block).phis ++ fn.before c.catalog (c.body fn k) e,
      ¬ fn.Kills c.catalog true j e
  sites : ∀ e, (c.node k).sites.lookup e = (c.body fn k).find? fun i =>
    fn.exprAt c.catalog i == some e

def Scans (fn : Func) (cat : Catalog Value InstrId) (b : BlockId) : Prop :=
  (∀ i ∈ fn.listed b, Scope.Addable fn cat i) ∧ ∀ i ∈ (fn.block b).body, Scannable fn cat i

def killed (fn : Func) (cat : Catalog Value InstrId) (sc : Scope) : List Nat :=
  (cat.entries.zipIdx.filter fun (n, e) => sc.kills fn n e true).map (·.2)

theorem mem_killed {sc : Scope} :
    e ∈ killed fn cat sc ↔ ∃ n, cat.entries[e]? = some n ∧ sc.kills fn n e true = true := by
  simp only [killed, List.mem_map, List.mem_filter, Prod.exists, List.mem_zipIdx_iff_getElem?]
  constructor
  · rintro ⟨n, f, h, rfl⟩
    exact ⟨n, h⟩
  · rintro ⟨n, h⟩
    exact ⟨n, e, h, rfl⟩

theorem addKilled_eq (sc : Scope) (s : BitSet) :
    addKilled fn cat sc s = (killed fn cat sc).foldl BitSet.insert s := by
  rw [addKilled, killed, List.foldl_map]

theorem mem_addKilled {sc : Scope} {l : List InstrId} (ht : sc.Tracks fn cat l) (s : BitSet) :
    e ∈ addKilled fn cat sc s ↔ (∃ i ∈ l, fn.Kills cat true i e) ∨ e ∈ s := by
  rw [addKilled_eq, mem_foldl_insert, mem_killed]
  refine or_congr ?_ Iff.rfl
  constructor
  · rintro ⟨n, hn, hk⟩
    exact (ht.kills_iff hn).1 hk
  · rintro ⟨i, hi, n, hn, hk⟩
    exact ⟨n, hn, (ht.kills_iff hn).2 ⟨i, hi, n, hn, hk⟩⟩

theorem size_addKilled {sc : Scope} {s : BitSet} (hs : s.size = cat.size) :
    (addKilled fn cat sc s).size = cat.size := by
  rw [addKilled_eq, size_foldl_insert, hs]
  intro e he
  obtain ⟨n, hn, -⟩ := mem_killed.1 he
  rw [hs]
  exact (List.getElem?_eq_some_iff.1 hn).1

theorem size_assign {s t : BitSet} (h : s.size = t.size) : (s.assign t).size = t.size := by
  simp [BitSet.assign, BitSet.clear, BitSet.union, h]

variable {c₀ c d : Context} {s : Sets} {k : Nat}

theorem sized_of_sets (h : c.sets = some s) : c.sized = .ok s := by
  rw [sized, h]

/-- The scan of a block, as one update. -/
theorem scanBlock_eq (hs : c.sets = some s) {whole : Scope} {lo hi : Scan}
    (hw : (fn.listed (c.node k).block).foldlM (Scope.add fn c.catalog) {} = .ok whole)
    (hlo : scanDown fn c.catalog (c.node k).block { set := (s.down.of k).assign (s.exprs.of k) } =
      .ok ⟨⟩ lo)
    (hhi : scanUp fn c.catalog (c.node k).block
      { met := (c.node k).sites, set := (s.up.of k).assign (s.exprs.of k) } = .ok ⟨⟩ hi) :
    scanBlock fn k c = .ok ⟨⟩ { c with
      sets := some { s with
        kill := s.kill.set k (addKilled fn c.catalog whole (s.kill.of k))
        down := s.down.set k lo.set
        up := s.up.set k hi.set }
      nodes := c.nodes.modify k fun n => { n with sites := hi.met } } := by
  unfold scanBlock
  rw [Change.get_bind, hw, Change.check_bind, sized_of_sets hs, Change.check_bind,
    Change.modify_bind, Change.bind_eq (Change.zoom_const_ok hlo), Change.zoom_const_ok hhi]
  simp [modifySets, hs]

theorem scanBlock_inv (hs : c.sets = some s) (h : scanBlock fn k c = .ok ⟨⟩ d) : ∃ whole lo hi,
    (fn.listed (c.node k).block).foldlM (Scope.add fn c.catalog) {} = .ok whole ∧
    scanDown fn c.catalog (c.node k).block { set := (s.down.of k).assign (s.exprs.of k) } =
      .ok ⟨⟩ lo ∧
    scanUp fn c.catalog (c.node k).block
      { met := (c.node k).sites, set := (s.up.of k).assign (s.exprs.of k) } = .ok ⟨⟩ hi := by
  unfold scanBlock at h
  rw [Change.get_bind, Change.bind_ok] at h
  obtain ⟨whole, c1, hcheck, h⟩ := h
  obtain ⟨hw, rfl⟩ := Change.check_apply.1 hcheck
  rw [sized_of_sets hs, Change.check_bind, Change.modify_bind, Change.bind_ok] at h
  obtain ⟨_, c2, hlo, hhi⟩ := h
  obtain ⟨lo, hlo, -⟩ := Change.zoom_inv hlo
  obtain ⟨hi, hhi, -⟩ := Change.zoom_inv hhi
  exact ⟨whole, lo, hi, hw, hlo, hhi⟩

theorem scans_of_scanBlock (hs : c.sets = some s) (h : scanBlock fn k c = .ok ⟨⟩ d) :
    Scans fn c.catalog (c.node k).block := by
  obtain ⟨whole, lo, hi, hw, hlo, -⟩ := scanBlock_inv hs h
  refine ⟨Scope.addable_of_foldlM_add hw, fun i hi => ?_⟩
  have hall : ∀ j ∈ (fn.block (c.node k).block).body.reverse, Scannable fn c.catalog j := by
    refine Change.forM_inv (fun pre _ => ∀ j ∈ pre, Scannable fn c.catalog j)
      (fun pre j post s s' _ hpre hj => ?_) (by simp) hlo
    rw [List.forall_mem_append, List.forall_mem_singleton]
    exact ⟨hpre, scannable_of_scanStep hj⟩
  exact hall i (List.mem_reverse.2 hi)

structure Scanned (fn : Func) (c₀ : Context) (done : List Nat) (c : Context) (s : Sets) : Prop
    extends Stage fn c₀ c s where
  exposed : ∀ k ∈ done, k < c.nodes.size → Exposed fn c s k
  untouched : ∀ k ∉ done, k < c.nodes.size → s.kill.of k = .empty c.catalog.size ∧
    (c.node k).sites = []

theorem Scanned.step {done : List Nat} (h : Scanned fn c₀ done c s) (hk : k < c.nodes.size)
    (hn : k ∉ done) (hd : scanBlock fn k c = .ok ⟨⟩ d) :
    ∃ t, Scanned fn c₀ (done ++ [k]) d t ∧ d.catalog = c.catalog := by
  obtain ⟨whole, lo, hi, hw, hlo, hhi⟩ := scanBlock_inv h.sets hd
  rw [scanBlock_eq h.sets hw hlo hhi] at hd
  obtain ⟨hkill, hsites⟩ := h.untouched k hn hk
  rw [hsites] at hhi
  have hfit := h.numbered.fits
  have htrack := Scope.foldlM_add_inv Scope.tracks_nil hw
  have hdown := scanDown_inv hlo
  have hup := scanUp_inv hhi
  rw [List.nil_append] at htrack
  simp only [EStateM.Result.ok.injEq, true_and] at hd
  have hnodes : d.nodes = c.nodes.modify k fun n => { n with sites := hi.met } := by rw [← hd]
  have hcat : d.catalog = c.catalog := by rw [← hd]
  have hg : c.SameGraph d :=
    sameGraph_modify hnodes (by rw [← hd]) ⟨fun _ => rfl, fun _ => rfl, fun _ => rfl,
      fun _ => rfl, fun _ => rfl⟩
  have hother : ∀ j, j ≠ k → d.node j = c.node j := fun j hj => by
    rw [node_modify hnodes, if_neg fun h => hj h.1.symm]
  have hsize : ∀ f : Family, (f.members.size = c.nodes.size) → k < f.members.size :=
    fun f hf => hf.symm ▸ hk
  refine ⟨_, ⟨⟨h.graph.trans hg, by rw [← hd]; exact h.options, by rw [← hd],
    by rw [← hd]; exact h.overflow, ?_⟩, ?_, ?_⟩, hcat⟩
  · refine ⟨hcat.symm ▸ h.numbered.lawful, ?_, fun j hj e => ?_, fun j hj i hi => ?_⟩
    · rw [hg.nodes_size, hg.edges_size, hcat]
      refine { hfit with
        kill := hfit.kill.set (size_addKilled (hfit.kill.2 k hk))
        down := hfit.down.set ?_
        up := hfit.up.set ?_ }
      · rw [hdown.size, size_assign ((hfit.down.2 k hk).trans (hfit.exprs.2 k hk).symm)]
        exact hfit.exprs.2 k hk
      · rw [hup.size, size_assign ((hfit.up.2 k hk).trans (hfit.exprs.2 k hk).symm)]
        exact hfit.exprs.2 k hk
    · rw [hcat, body_eq hg]
      exact h.numbered.mem_exprs j (hg.nodes_size ▸ hj) e
    · rw [body_eq hg] at hi
      rw [hcat]
      exact h.numbered.numbered j (hg.nodes_size ▸ hj) i hi
  · intro j hj hlt
    by_cases hjk : j = k
    · subst hjk
      have hocc : ∀ e, e ∈ s.exprs.of j ↔ fn.Occurs c.catalog (c.body fn j) e :=
        h.numbered.mem_exprs j hk
      refine ⟨fun e => ?_, fun e => ?_, fun e => ?_, fun e => ?_⟩
      · rw [Family.of_set_self (hsize _ hfit.kill.1), mem_addKilled htrack, hkill, hcat, hg.block]
        simp
      · rw [Family.of_set_self (hsize _ hfit.down.1), hdown.mem_set, BitSet.mem_assign, hocc,
          hcat, body_eq hg]
        have : fn.Occurs c.catalog (fn.block (c.node j).block).body.reverse e ↔
            fn.Occurs c.catalog (c.body fn j) e := by
          simp [Func.Occurs, body]
        rw [this, List.nil_append]
        exact and_congr_right fun ho => ⟨fun hall => hall ho, fun hall _ => hall⟩
      · rw [Family.of_set_self (hsize _ hfit.up.1), hup.mem_set, BitSet.mem_assign, hocc, hcat,
          body_eq hg, hg.block]
        exact and_congr_right fun ho => ⟨fun hall => hall ho, fun hall _ => hall⟩
      · rw [node_modify hnodes, if_pos ⟨rfl, hk⟩, hcat, body_eq hg]
        exact hup.met e
    · have hj' : j ∈ done := by simpa [hjk] using hj
      have hx := h.exposed j hj' (hg.nodes_size ▸ hlt)
      have hne : k ≠ j := fun he => hjk he.symm
      refine ⟨fun e => ?_, fun e => ?_, fun e => ?_, fun e => ?_⟩
      · rw [Family.of_set_ne hne, hcat, hg.block]
        exact hx.kill e
      · rw [Family.of_set_ne hne, hcat, body_eq hg]
        exact hx.down e
      · rw [Family.of_set_ne hne, hcat, body_eq hg, hg.block]
        exact hx.up e
      · rw [hother j hjk, hcat, body_eq hg]
        exact hx.sites e
  · intro j hj hlt
    have hjk : j ≠ k := fun he => hj (by simp [he])
    obtain ⟨h1, h2⟩ := h.untouched j (fun hm => hj (by simp [hm])) (hg.nodes_size ▸ hlt)
    rw [Family.of_set_ne hjk.symm, hother j hjk, hcat]
    exact ⟨h1, h2⟩

theorem not_mem_of_range {n : Nat} {pre post : List Nat} (h : List.range n = pre ++ k :: post) :
    k < n ∧ k ∉ pre := by
  refine ⟨List.mem_range.1 (by rw [h]; simp), fun hm => ?_⟩
  have hnd := List.nodup_range (n := n)
  rw [h, List.nodup_append] at hnd
  exact hnd.2.2 k hm k (by simp) rfl

/-- The outcome of the scans. -/
theorem localPredicates_inv (h : Stage fn c₀ c s)
    (hkill : s.kill = .replicate c.nodes.size (.empty c.catalog.size))
    (hsites : ∀ k, (c.node k).sites = []) (hd : localPredicates fn c = .ok ⟨⟩ d) :
    ∃ t, Stage fn c₀ d t ∧ (∀ k < d.nodes.size, Exposed fn d t k) ∧ d.catalog = c.catalog ∧
      ∀ k < c₀.nodes.size, Scans fn c.catalog (c₀.node k).block := by
  unfold localPredicates at hd
  rw [Change.get_bind] at hd
  have hloop :=
    Change.forM_inv (fun done c' => (∃ t, Scanned fn c₀ done c' t) ∧ c'.catalog = c.catalog ∧
      ∀ k ∈ done, Scans fn c.catalog (c₀.node k).block)
    (fun pre k post c' d' hl hs hk => by
      obtain ⟨⟨t, ht⟩, hcat, hpre⟩ := hs
      obtain ⟨hlt, hn⟩ := not_mem_of_range hl
      rw [h.graph.nodes_size, ← ht.graph.nodes_size] at hlt
      obtain ⟨t', ht', hcat'⟩ := ht.step hlt hn hk
      have hscan := scans_of_scanBlock ht.sets hk
      rw [hcat, ht.graph.block] at hscan
      refine ⟨⟨t', ht'⟩, hcat'.trans hcat, ?_⟩
      rw [List.forall_mem_append, List.forall_mem_singleton]
      exact ⟨hpre, hscan⟩)
    ⟨⟨s, h, by simp, fun k _ hk => ⟨by rw [hkill, Family.of_replicate hk], hsites k⟩⟩,
      rfl, by simp⟩ hd
  obtain ⟨⟨t, ht⟩, hcat, hscans⟩ := hloop
  refine ⟨t, ht.toStage, fun k hk => ht.exposed k ?_ hk, hcat, fun k hk => hscans k ?_⟩
  · rw [List.mem_range, h.graph.nodes_size, ← ht.graph.nodes_size]
    exact hk
  · rw [List.mem_range, h.graph.nodes_size]
    exact hk

theorem localPredicates_ok (h : Stage fn c₀ c s)
    (hkill : s.kill = .replicate c.nodes.size (.empty c.catalog.size))
    (hsites : ∀ k, (c.node k).sites = [])
    (hb : ∀ k < c₀.nodes.size, Scans fn c.catalog (c₀.node k).block) :
    ∃ d, localPredicates fn c = .ok ⟨⟩ d := by
  unfold localPredicates
  rw [Change.get_bind]
  obtain ⟨d, hd, -⟩ :=
    Change.forM_ok (fun done c' => (∃ t, Scanned fn c₀ done c' t) ∧ c'.catalog = c.catalog)
    (f := scanBlock fn) (l := List.range c.nodes.size) (s := c)
    (fun pre k post c' hl hs => by
      obtain ⟨⟨t, ht⟩, hcat⟩ := hs
      obtain ⟨hlt, hn⟩ := not_mem_of_range hl
      rw [h.graph.nodes_size] at hlt
      obtain ⟨hadd, hscan⟩ := hb k hlt
      rw [← hcat, ← ht.graph.block] at hadd hscan
      have hlt' : k < c'.nodes.size := ht.graph.nodes_size ▸ hlt
      obtain ⟨whole, hw⟩ := Scope.foldlM_add_ok hadd Scope.tracks_nil
      obtain ⟨lo, hlo⟩ := scanDown_ok ((t.down.of k).assign (t.exprs.of k)) hscan
      obtain ⟨hi, hhi⟩ := scanUp_ok ((t.up.of k).assign (t.exprs.of k))
        (fun i hi => hadd i (List.mem_append_left _ (List.mem_append_left _ hi))) hscan
      have heq := scanBlock_eq ht.sets hw hlo (by rw [(ht.untouched k hn hlt').2]; exact hhi)
      obtain ⟨t', ht', hc⟩ := ht.step hlt' hn heq
      exact ⟨_, heq, ⟨t', ht'⟩, hc.trans hcat⟩)
    ⟨⟨s, h, by simp, fun k _ hk => ⟨by rw [hkill, Family.of_replicate hk], hsites k⟩⟩, rfl⟩
  exact ⟨d, hd⟩

end Context
end CodeMotion
