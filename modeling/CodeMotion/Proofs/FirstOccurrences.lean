import Mathlib
import CodeMotion.Proofs.Keys
import CodeMotion.Proofs.LocalSets
import CodeMotion.Proofs.Tidy

/-! Instructions that are added to an empty catalog get the numbers of the first occurrences of
their expressions. The entry of a number names the first instruction that computes its expression,
every instruction that was added is found under its number from then on, and what was not added is
not found. A store without an address has no expression: it is refused and leaves no trace. -/

namespace CodeMotion

theorem getElem?_eraseDups_iff {α : Type} [DecidableEq α] {l : List α} {e : Nat} {a : α} :
    l.eraseDups[e]? = some a ↔ a ∈ l ∧ e = l.eraseDups.idxOf a := by
  constructor
  · intro he
    obtain ⟨hlt, rfl⟩ := List.getElem?_eq_some_iff.1 he
    exact ⟨List.mem_eraseDups.1 (List.getElem_mem hlt),
      ((Func.nodup_eraseDups l).idxOf_getElem e hlt).symm⟩
  · rintro ⟨ha, rfl⟩
    exact List.getElem?_idxOf (List.mem_eraseDups.2 ha)

namespace Reader

variable {ν ι : Type} {r : Reader ν ι} {i j : ι} {x y : Expression ν} {l m : List ι}

def keysOf (r : Reader ν ι) (l : List ι) : List (Expression ν) :=
  l.filterMap fun i => (r.expression i).toOption

theorem keysOf_append : r.keysOf (l ++ m) = r.keysOf l ++ r.keysOf m := List.filterMap_append

theorem keysOf_ok (h : r.expression i = .ok x) : r.keysOf [i] = [x] := by
  simp [keysOf, h, Except.toOption]

theorem keysOf_error {f : Fault} (h : r.expression i = .error f) : r.keysOf [i] = [] := by
  simp [keysOf, h, Except.toOption]

theorem mem_keysOf : x ∈ r.keysOf l ↔ ∃ i ∈ l, r.expression i = .ok x := by
  unfold keysOf
  rw [List.mem_filterMap]
  refine exists_congr fun i => and_congr_right fun _ => ?_
  cases r.expression i <;> simp [Except.toOption]

theorem expression_of_store {v a : ν} {rest : List ν} (hop : r.op i = .store)
    (hargs : r.args i = v :: a :: rest) : r.expression i = .ok ⟨.store, a, [v]⟩ := by
  simp [expression, hop, hargs]

theorem expression_of_short (hop : r.op i = .store) (hlen : (r.args i).length < 2) :
    r.expression i = .error .outOfRange := by
  unfold expression
  rw [hop]
  match hargs : r.args i with
  | [] => rfl
  | [v] => rfl
  | v :: a :: rest =>
    rw [hargs, List.length_cons, List.length_cons] at hlen
    omega

/-- What is no store shares its expression with no other instruction. -/
theorem expression_eq_iff_of_ne_store (hr : Function.Injective r.result) (hi : r.op i ≠ .store)
    (hx : r.expression i = .ok x) (hy : r.expression j = .ok y) : x = y ↔ i = j := by
  constructor
  · rintro rfl
    have hj : r.op j ≠ .store := by
      rw [← expression_op hy, expression_op hx]
      exact hi
    rw [expression_of_ne_store hi, Except.ok.injEq] at hx
    rw [expression_of_ne_store hj, Except.ok.injEq] at hy
    exact hr (congrArg Expression.dest (hx.trans hy.symm))
  · rintro rfl
    rw [hx, Except.ok.injEq] at hy
    exact hy

/-- Stores share their expression if they have the same value and the same address. -/
theorem expression_eq_iff_of_store (hi : r.op i = .store) (hx : r.expression i = .ok x)
    (hy : r.expression j = .ok y) :
    x = y ↔ r.op j = .store ∧ (r.args i)[0]? = (r.args j)[0]? ∧
      (r.args i)[1]? = (r.args j)[1]? := by
  obtain ⟨v, a, rest, hargs, rfl⟩ := expression_store hx hi
  by_cases hj : r.op j = .store
  · obtain ⟨w, b, rest', hargs', rfl⟩ := expression_store hy hj
    simp [hj, hargs, hargs', and_comm]
  · have hne : (⟨.store, a, [v]⟩ : Expression ν) ≠ y :=
      fun he => hj (by rw [← expression_op hy, ← he])
    simp [hj, hne]

end Reader

theorem Func.result_injective (fn : Func) : Function.Injective fn.reader.result :=
  fun _ _ h => by simpa [Func.reader] using h

theorem scopedReader_result_injective (funcs : Nat → Func) :
    Function.Injective (scopedReader funcs).result := by
  rintro ⟨f, i⟩ ⟨g, j⟩ h
  simpa [scopedReader, ScopedValue.ofValue] using h

namespace Catalog

variable {ν ι : Type} [DecidableEq ν] {r : Reader ν ι} {c c' : Catalog ν ι} {l m : List ι} {i : ι}
  {e : Nat} {x : Expression ν}

/-- A catalog has the expressions of some instructions under the numbers of their first
occurrences. -/
structure Numbers (r : Reader ν ι) (l : List ι) (c : Catalog ν ι) : Prop where
  indexed : c.Indexed r
  keys : c.keys r = (r.keysOf l).eraseDups
  first : ∀ (e : Nat) (n : Entry ν ι), c.entries[e]? = some n →
    r.expression n.instr = .ok (n.expression r) ∧
    ∃ pre post, l = pre ++ n.instr :: post ∧ ∀ j ∈ pre, r.expression j ≠ .ok (n.expression r)

namespace Numbers

theorem empty (r : Reader ν ι) : Numbers r [] ({} : Catalog ν ι) :=
  ⟨indexed_empty r, by simp [Catalog.keys, Reader.keysOf], fun e n h => by simp at h⟩

theorem find?_iff (h : Numbers r l c) :
    c.find? r x = some e ↔ (r.keysOf l).eraseDups[e]? = some x := by
  rw [← h.keys]
  constructor
  · exact fun hf => getElem?_keys.2 (find?_some hf)
  · intro he
    obtain ⟨f, hf⟩ := h.indexed.find?_isSome.2 (List.mem_of_getElem? he)
    have hfx := getElem?_keys.2 (find?_some hf)
    -- no expression stands at two places
    have hnodup : (c.keys r).Nodup := h.keys ▸ Func.nodup_eraseDups _
    have hef : e = f :=
      (List.getElem?_inj (List.getElem?_eq_some_iff.1 he).1 hnodup).1 (he.trans hfx.symm)
    rw [hef, hf]

theorem index_iff (h : Numbers r l c) :
    c.index r i = .ok e ↔ ∃ x, r.expression i = .ok x ∧ (r.keysOf l).eraseDups[e]? = some x := by
  rw [index_ok]
  exact exists_congr fun x => and_congr_right fun _ => h.find?_iff

theorem index_eq (h : Numbers r l c) (hi : i ∈ l) (hx : r.expression i = .ok x) :
    c.index r i = .ok ((r.keysOf l).eraseDups.idxOf x) :=
  h.index_iff.2 ⟨x, hx, getElem?_eraseDups_iff.2 ⟨Reader.mem_keysOf.2 ⟨i, hi, hx⟩, rfl⟩⟩

theorem find?_eq_none (h : Numbers r l c) : c.find? r x = none ↔ x ∉ r.keysOf l := by
  rw [← List.mem_eraseDups, ← h.keys, ← h.indexed.find?_isSome, ← Option.isSome_iff_exists]
  simp

/-- A later catalog gives no instruction another number. -/
theorem index_of_append (h : Numbers r l c) (h' : Numbers r (l ++ m) c')
    (hi : c.index r i = .ok e) : c'.index r i = .ok e := by
  obtain ⟨x, hx, he⟩ := h.index_iff.1 hi
  refine h'.index_iff.2 ⟨x, hx, getElem?_extend ?_ he⟩
  rw [Reader.keysOf_append]
  exact eraseDups_prefix _ _

theorem keys_snoc (h : Numbers r l c) (hx : r.expression i = .ok x)
    (hadd : c.add r i = .ok (e, c')) : c'.keys r = (r.keysOf (l ++ [i])).eraseDups := by
  rw [h.indexed.keys_add hadd hx, h.keys, Reader.keysOf_append, Reader.keysOf_ok hx, eraseDups_snoc]
  simp only [List.mem_eraseDups]

/-- Adding an instruction numbers it behind those that were added before. -/
theorem add (h : Numbers r l c) (hadd : c.add r i = .ok (e, c')) :
    Numbers r (l ++ [i]) c' ∧ c'.index r i = .ok e := by
  obtain ⟨x, hx, hcase⟩ := add_ok.1 hadd
  have hkeys := h.keys_snoc hx hadd
  have hindexed := h.indexed.add hadd
  have hold : ∀ (k : Nat) (n : Entry ν ι), c.entries[k]? = some n →
    r.expression n.instr = .ok (n.expression r) ∧
      ∃ pre post, l ++ [i] = pre ++ n.instr :: post ∧ ∀ j ∈ pre,
        r.expression j ≠ .ok (n.expression r) := by
    intro k n hn
    obtain ⟨hself, pre, post, rfl, hpre⟩ := h.first k n hn
    exact ⟨hself, pre, post ++ [i], by simp, hpre⟩
  rcases hcase with ⟨hf, rfl⟩ | ⟨hf, rfl, rfl⟩
  · exact ⟨⟨hindexed, hkeys, hold⟩, index_ok.2 ⟨x, hx, hf⟩⟩
  · have hlast := Reader.expression_entry hx
    have hnumbers : Numbers r (l ++ [i]) (c.extend i x) := by
      refine ⟨hindexed, hkeys, fun k n hn => ?_⟩
      rw [extend, List.getElem?_append] at hn
      split at hn
      · exact hold k n hn
      · rw [List.getElem?_singleton] at hn
        split at hn
        · -- a new expression was computed by none of the instructions before
          cases hn
          rw [hlast]
          refine ⟨hx, l, [], rfl, fun j hj hxj => ?_⟩
          exact h.find?_eq_none.1 hf (Reader.mem_keysOf.2 ⟨j, hj, hxj⟩)
        · cases hn
    refine ⟨hnumbers, index_ok.2 ⟨x, hx, hnumbers.find?_iff.2 ?_⟩⟩
    rw [← hkeys, Catalog.keys, extend, List.map_append]
    simp [size, hlast]

/-- A refused instruction leaves the catalog as good as it was. -/
theorem refuse {f : Fault} (h : Numbers r l c) (hx : r.expression i = .error f) :
    Numbers r (l ++ [i]) c := by
  refine ⟨h.indexed, ?_, fun e n hn => ?_⟩
  · rw [h.keys, Reader.keysOf_append, Reader.keysOf_error hx, List.append_nil]
  · obtain ⟨hself, pre, post, rfl, hpre⟩ := h.first e n hn
    exact ⟨hself, pre, post ++ [i], by simp, hpre⟩

end Numbers

def addAll (c : Catalog ν ι) (r : Reader ν ι) : List ι → List (Except Fault Nat) × Catalog ν ι
  | [] => ([], c)
  | i :: l =>
    match c.add r i with
    | .ok p => (.ok p.1 :: (addAll p.2 r l).1, (addAll p.2 r l).2)
    | .error f => (.error f :: (addAll c r l).1, (addAll c r l).2)

theorem add_of_ok (c : Catalog ν ι) (hx : r.expression i = .ok x) :
    ∃ e c', c.add r i = .ok (e, c') := by
  cases hf : c.find? r x with
  | some e => exact ⟨e, c, add_ok.2 ⟨x, hx, Or.inl ⟨hf, rfl⟩⟩⟩
  | none => exact ⟨c.size, c.extend i x, add_ok.2 ⟨x, hx, Or.inr ⟨hf, rfl, rfl⟩⟩⟩

theorem add_of_error {f : Fault} (c : Catalog ν ι) (hx : r.expression i = .error f) :
    c.add r i = .error f := by
  simp [add, hx, bind, Except.bind]

theorem addAll_cons_ok (hadd : c.add r i = .ok (e, c')) :
    c.addAll r (i :: l) = (.ok e :: (c'.addAll r l).1, (c'.addAll r l).2) := by
  rw [addAll, hadd]

theorem addAll_cons_error {f : Fault} (hadd : c.add r i = .error f) :
    c.addAll r (i :: l) = (.error f :: (c.addAll r l).1, (c.addAll r l).2) := by
  rw [addAll, hadd]

/-- The answer to an instruction is the number of the first occurrence of its expression, or that it
has none. -/
theorem Numbers.addAll {done : List ι} (h : Numbers r done c) (l : List ι) :
    Numbers r (done ++ l) (c.addAll r l).2 ∧
    (c.addAll r l).1 = l.map fun i =>
      (r.expression i).map (r.keysOf (done ++ l)).eraseDups.idxOf := by
  induction l generalizing done c with
  | nil =>
    rw [List.append_nil]
    exact ⟨h, rfl⟩
  | cons i l ih =>
    rw [List.append_cons, List.map_cons]
    cases hx : r.expression i with
    | error f =>
      rw [addAll_cons_error (add_of_error c hx)]
      obtain ⟨hnumbers, hanswers⟩ := ih (h.refuse hx)
      refine ⟨hnumbers, ?_⟩
      rw [hanswers]
      rfl
    | ok x =>
      obtain ⟨e, c', hadd⟩ := add_of_ok c hx
      rw [addAll_cons_ok hadd]
      obtain ⟨hstep, he⟩ := h.add hadd
      obtain ⟨hnumbers, hanswers⟩ := ih hstep
      have hnumber := hstep.index_of_append hnumbers he
      rw [hnumbers.index_eq (by simp) hx, Except.ok.injEq] at hnumber
      refine ⟨hnumbers, ?_⟩
      rw [hanswers, ← hnumber]
      rfl

theorem entry_ok {ν ι : Type} {c : Catalog ν ι} {e : Nat} {n : Entry ν ι} :
    c.entry e = .ok n ↔ c.entries[e]? = some n := by
  unfold entry indexBelow entryAt
  by_cases he : e < c.size
  · simp [he, bind, Except.bind, List.getElem?_eq_getElem (show e < c.entries.length from he)]
  · simp [he, bind, Except.bind, List.getElem?_eq_none (show c.entries.length ≤ e
      from Nat.le_of_not_lt he)]

/-- Whatever instructions are added to an empty catalog, their expressions are numbered by first
occurrence. An expression is operation, result and operands, for a store its address and its
value. -/
theorem addAll_first_occurrences (hr : Function.Injective r.result) (l : List ι) :
    (∀ i, (r.op i ≠ .store → r.expression i = .ok ⟨r.op i, r.result i, r.args i⟩) ∧
      (∀ v a rest, r.op i = .store → r.args i = v :: a :: rest →
        r.expression i = .ok ⟨.store, a, [v]⟩) ∧
      (r.op i = .store → (r.args i).length < 2 → r.expression i = .error .outOfRange)) ∧
    ∃ c : Catalog ν ι,
      ({} : Catalog ν ι).addAll r l = (l.map fun i =>
        (r.expression i).map (r.keysOf l).eraseDups.idxOf, c) ∧
      c.keys r = (r.keysOf l).eraseDups ∧
      (∀ i ∈ l, ∀ x, r.expression i = .ok x → c.index r i = .ok ((r.keysOf l).eraseDups.idxOf x)) ∧
      (∀ i ∈ l, ∀ j ∈ l, ∀ x y, r.expression i = .ok x → r.expression j = .ok y →
        (c.index r i = c.index r j ↔ x = y) ∧ (r.op i ≠ .store → (x = y ↔ i = j)) ∧
        (r.op i = .store → (x = y ↔ r.op j = .store ∧ (r.args i)[0]? = (r.args j)[0]? ∧
          (r.args i)[1]? = (r.args j)[1]?))) ∧
      (∀ (e : Nat) x, (r.keysOf l).eraseDups[e]? = some x → ∃ n pre post, c.entry e = .ok n ∧
        n.expression r = x ∧
        l = pre ++ n.instr :: post ∧ r.expression n.instr = .ok x ∧ ∀ j ∈ pre,
          r.expression j ≠ .ok x) ∧
      (∀ m i e, c.index r i = .ok e → (c.addAll r m).2.index r i = .ok e) ∧
      ∀ x, x ∉ r.keysOf l → c.find? r x = none ∧ ∀ i, r.expression i = .ok x →
        c.lookup? r i = .ok none := by
  refine ⟨fun i => ⟨Reader.expression_of_ne_store, fun v a rest => Reader.expression_of_store,
    Reader.expression_of_short⟩, ?_⟩
  obtain ⟨hnumbers, hanswers⟩ := (Numbers.empty r).addAll l
  rw [List.nil_append] at hnumbers hanswers
  refine ⟨_, Prod.ext hanswers rfl, hnumbers.keys, fun i hi x => hnumbers.index_eq hi,
    ?_, ?_, ?_, ?_⟩
  · intro i hi j hj x y hx hy
    refine ⟨?_, fun hop => Reader.expression_eq_iff_of_ne_store hr hop hx hy,
      fun hop => Reader.expression_eq_iff_of_store hop hx hy⟩
    have hmem : x ∈ (r.keysOf l).eraseDups := List.mem_eraseDups.2 (Reader.mem_keysOf.2 ⟨i, hi, hx⟩)
    rw [hnumbers.index_eq hi hx, hnumbers.index_eq hj hy, Except.ok.injEq, List.idxOf_inj hmem]
  · intro e x he
    rw [← hnumbers.keys] at he
    obtain ⟨n, hn, rfl⟩ := getElem?_keys.1 he
    obtain ⟨hself, pre, post, hl, hpre⟩ := hnumbers.first e n hn
    exact ⟨n, pre, post, entry_ok.2 hn, rfl, hl, hself, hpre⟩
  · intro m i e hi
    exact hnumbers.index_of_append (hnumbers.addAll m).1 hi
  · intro x hx
    have hnone := hnumbers.find?_eq_none.2 hx
    refine ⟨hnone, fun i hi => ?_⟩
    simp [lookup?, hi, bind, Except.bind, pure, Except.pure, hnone]

/-- Stores of one value to one global are one expression, also if they stand in different functions;
loads are not. -/
theorem addAll_first_occurrences_rewritten : Function.Injective Context.rewritten.reader.result ∧
    (({} : Catalog Value InstrId).addAll Context.rewritten.reader [1, 2, 3, 4, 2]).1 = [.ok 0,
      .ok 1, .ok 0, .ok 2, .ok 1] ∧
    Function.Injective (scopedReader fun _ => Context.rewritten).result ∧
    (({} : Catalog ScopedValue (Nat × InstrId)).addAll (scopedReader fun _ => Context.rewritten)
      [(0, 2), (0, 4), (1, 4), (1, 2)]).1 =
      [.ok 0, .ok 1, .ok 1, .ok 2] := by
  refine ⟨Func.result_injective _, ?_, scopedReader_result_injective _, ?_⟩
  · obtain ⟨-, c, hc, -⟩ :=
      addAll_first_occurrences (Func.result_injective Context.rewritten) [1, 2, 3, 4, 2]
    simp only [hc]
    decide
  · obtain ⟨-, c, hc, -⟩ :=
      addAll_first_occurrences (scopedReader_result_injective fun _ => Context.rewritten)
      [(0, 2), (0, 4), (1, 4), (1, 2)]
    simp only [hc]
    decide

end Catalog
end CodeMotion
