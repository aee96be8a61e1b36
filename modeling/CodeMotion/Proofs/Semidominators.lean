import Mathlib
import CodeMotion.Func.Forest
import CodeMotion.Proofs.SearchTree

/-! The visits of a forest compute semidominators, and from them immediate dominators. Nodes from a
number on are linked to the search tree; a shortened way keeps as its label a node of the least
semidominator on the part that it skips, so that shortening it further loses nothing. -/

namespace CodeMotion

structure Search.Numbers (g : Search) (E : Nat → Nat → Prop) (p : Nat → Nat) : Prop where
  depthFirst : SearchTree.DepthFirst g.preds.size E p
  parents : ∀ w, g.parents.getD w 0 = p w
  preds : ∀ v w, v ∈ g.preds.getD w [] ↔ E v w

namespace Forest

open SearchTree

variable {n i q v w : Nat} {E : Nat → Nat → Prop} {p sd : Nat → Nat} {s t : Forest}

/-- The way from `v` up to `a` is one step, whose label is `u`. -/
structure Shortcut (p sd : Nat → Nat) (i v a u : Nat) : Prop where
  above : Above p a v
  lt : a < v
  linked : ∀ y, Above p y v → a < y → i ≤ y
  label : Above p u v
  label_lt : a < u
  least : ∀ y, Above p y v → a < y → sd u ≤ sd y

structure Linked (n : Nat) (p sd : Nat → Nat) (i : Nat) (s : Forest) : Prop where
  label_size : s.label.size = n
  ancestor_size : s.ancestor.size = n
  low : ∀ v < i, v < n → s.ancestor.getD v none = none ∧ s.label.getD v 0 = v
  high : ∀ v, i ≤ v → v < n → s.semi.getD v 0 = sd v ∧
    ∃ a, s.ancestor.getD v none = some a ∧ Shortcut p sd i v a (s.label.getD v 0)

structure SameFacts (s t : Forest) : Prop where
  semi : t.semi = s.semi
  bucket : t.bucket = s.bucket
  dom : t.dom = s.dom

theorem SameFacts.refl (s : Forest) : SameFacts s s := ⟨rfl, rfl, rfl⟩

/-- Two parts of a way together. -/
theorem Shortcut.join (hd : DepthFirst n E p) {a b l m : Nat} (hv : v < n)
    (h : Shortcut p sd i v a l) (h' : Shortcut p sd i a b m) :
    Shortcut p sd i v b (if sd m < sd l then m else l) where
  above := h'.above.trans h.above
  lt := h'.lt.trans h.lt
  linked y hy hb := by
    rcases Nat.lt_or_ge a y with hay | hya
    · exact h.linked y hy hay
    · exact h'.linked y (hd.above_of_above hy h.above hv hya) hb
  label := by
    split
    · exact h'.label.trans h.above
    · exact h.label
  label_lt := by
    split
    · exact h'.label_lt
    · exact h'.lt.trans h.label_lt
  least y hy hb := by
    have hmin : sd (if sd m < sd l then m else l) ≤ sd l ∧
        sd (if sd m < sd l then m else l) ≤ sd m := by
      split <;> omega
    rcases Nat.lt_or_ge a y with hay | hya
    · exact hmin.1.trans (h.least y hy hay)
    · exact hmin.2.trans (h'.least y (hd.above_of_above hy h.above hv hya) hb)

/-- What is known about the dominator of a node: the node itself, or one that has the same
dominator. -/
def Known (p sd : Nat → Nat) (s : Forest) (v : Nat) : Prop :=
  ∃ u, Above p u v ∧ sd v < u ∧ (∀ y, Above p y v → sd v < y → sd u ≤ sd y) ∧
    s.dom.getD v 0 = if sd u < sd v then u else sd v

namespace Linked

theorem congr (h : Linked n p sd i s) (hl : t.label = s.label) (ha : t.ancestor = s.ancestor)
    (hs : ∀ v, i ≤ v → v < n → t.semi.getD v 0 = s.semi.getD v 0) : Linked n p sd i t :=
  ⟨hl ▸ h.label_size, ha ▸ h.ancestor_size, hl ▸ ha ▸ h.low, fun v hi hv => by
    rw [hl, ha, hs v hi hv]
    exact h.high v hi hv⟩

theorem semi_label (h : Linked n p sd i s) {a : Nat} (hv : v < n)
    (hcut : Shortcut p sd i v a (s.label.getD v 0)) (hd : DepthFirst n E p) :
    s.semi.getD (s.label.getD v 0) 0 = sd (s.label.getD v 0) :=
  (h.high _ (hcut.linked _ hcut.label hcut.label_lt)
    (Nat.lt_of_le_of_lt (hd.above_le hcut.label) hv)).1

variable (hd : DepthFirst n E p)
include hd

/-- One step of a way takes over the next one. -/
theorem shorten (h : Linked n p sd i s) {a b : Nat} (hv : v < n) (hi : i ≤ v)
    (ha : s.ancestor.getD v none = some a) (hai : i ≤ a) (hb : s.ancestor.getD a none = some b) :
    Linked n p sd i { s with
      label :=
        if s.semi.getD (s.label.getD a 0) 0 < s.semi.getD (s.label.getD v 0) 0
        then s.label.setIfInBounds v (s.label.getD a 0)
        else s.label
      ancestor := s.ancestor.setIfInBounds v (some b) } := by
  obtain ⟨hsemi, a', ha', hcut⟩ := h.high v hi hv
  rw [ha, Option.some.injEq] at ha'
  subst ha'
  have han : a < n := hcut.lt.trans hv
  obtain ⟨-, b', hb', hcut'⟩ := h.high a hai han
  rw [hb, Option.some.injEq] at hb'
  subst hb'
  rw [h.semi_label han hcut' hd, h.semi_label hv hcut hd]
  have hlabel : ∀ y, (if sd (s.label.getD a 0) < sd (s.label.getD v 0)
    then s.label.setIfInBounds v (s.label.getD a 0) else s.label).getD y 0 =
      if v = y then (if sd (s.label.getD a 0) < sd (s.label.getD v 0) then s.label.getD a 0
        else s.label.getD v 0) else s.label.getD y 0 := by
    intro y
    by_cases hlt : sd (s.label.getD a 0) < sd (s.label.getD v 0)
    · rw [if_pos hlt, if_pos hlt, getD_setIfInBounds (by rw [h.label_size]; exact hv)]
    · rw [if_neg hlt, if_neg hlt]
      split
      · next hy => rw [hy]
      · rfl
  have hancestor : ∀ y, (s.ancestor.setIfInBounds v (some b)).getD y none = if v = y then some b
      else s.ancestor.getD y none :=
    fun y =>
    getD_setIfInBounds (by rw [h.ancestor_size]; exact hv) y _ _
  refine ⟨?_, ?_, fun y hyi hyn => ?_, fun y hyi hyn => ?_⟩
  · split <;> simp [h.label_size]
  · simp [h.ancestor_size]
  · have hne : v ≠ y := by omega
    rw [hlabel, hancestor, if_neg hne, if_neg hne]
    exact h.low y hyi hyn
  · rw [hlabel, hancestor]
    by_cases hy : v = y
    · subst hy
      rw [if_pos rfl, if_pos rfl]
      exact ⟨hsemi, b, rfl, hcut.join hd hv hcut'⟩
    · rw [if_neg hy, if_neg hy]
      exact h.high y hyi hyn

/-- After a way was shortened its first step leads to the root. -/
theorem compress (h : Linked n p sd i s) (fuel : Nat) (hv : v < n) (hi : i ≤ v) (hf : v ≤ fuel) :
    Linked n p sd i (s.compress fuel v) ∧ SameFacts s (s.compress fuel v) ∧
      (∀ y, v < y → (s.compress fuel v).ancestor.getD y none = s.ancestor.getD y none) ∧
      ∃ a < i, (s.compress fuel v).ancestor.getD v none = some a := by
  induction fuel generalizing v with
  | zero =>
    obtain ⟨-, a, -, hcut⟩ := h.high v hi hv
    have := hcut.lt
    omega
  | succ fuel ih =>
    obtain ⟨-, a, ha, hcut⟩ := h.high v hi hv
    have han : a < n := hcut.lt.trans hv
    unfold Forest.compress
    simp only [ha]
    by_cases hai : a < i
    · rw [(h.low a hai han).1, Option.isNone_none, if_pos rfl]
      exact ⟨h, .refl s, fun _ _ => rfl, a, hai, ha⟩
    · push Not at hai
      obtain ⟨-, b, hb, -⟩ := h.high a hai han
      have hlt := hcut.lt
      rw [hb, Option.isNone_some, if_neg Bool.false_ne_true]
      obtain ⟨ht, hsame, hframe, r, hr, hroot⟩ := ih han hai (by omega)
      rw [hroot]
      refine ⟨ht.shorten hd hv hi ((hframe v hlt).trans ha) hai hroot,
        ⟨hsame.semi, hsame.bucket, hsame.dom⟩, fun y hy => ?_, r, hr, ?_⟩
      · rw [getD_setIfInBounds (by rw [ht.ancestor_size]; exact hv), if_neg (Nat.ne_of_lt hy),
          hframe y (hlt.trans hy)]
      · rw [getD_setIfInBounds (by rw [ht.ancestor_size]; exact hv), if_pos rfl]

omit hd in
theorem eval_low (h : Linked n p sd i s) (hv : v < n) (hi : v < i) : s.eval v = (v, s) := by
  rw [eval, (h.low v hi hv).1]
  rfl

/-- The value of a linked node has the least semidominator of all linked nodes above it. -/
theorem eval_high (h : Linked n p sd i s) (hv : v < n) (hi : i ≤ v) :
    ∃ u t, s.eval v = (u, t) ∧ Linked n p sd i t ∧ SameFacts s t ∧
    Above p u v ∧ i ≤ u ∧ ∀ y, Above p y v → i ≤ y → sd u ≤ sd y := by
  obtain ⟨-, a, ha, -⟩ := h.high v hi hv
  obtain ⟨ht, hsame, -, r, hr, hroot⟩ := h.compress hd v hv hi (Nat.le_refl v)
  obtain ⟨-, r', hr', hcut⟩ := ht.high v hi hv
  rw [hroot, Option.some.injEq] at hr'
  subst hr'
  refine ⟨_, _, by rw [eval, ha]; rfl, ht, hsame, hcut.label,
    hcut.linked _ hcut.label hcut.label_lt, fun y hy hiy => ?_⟩
  exact hcut.least y hy (Nat.lt_of_lt_of_le hr hiy)

/-- A node with its semidominator becomes a leaf below its parent. -/
theorem link (h : Linked n p sd (w + 1) s) (hw : w < n) (h0 : w ≠ 0) (hs : s.semi.getD w 0 = sd w) :
    Linked n p sd w (s.link (p w) w) := by
  have hlt := hd.parent_lt w h0
  have hancestor : ∀ y, (s.ancestor.setIfInBounds w (some (p w))).getD y none = if w = y
      then some (p w) else s.ancestor.getD y none :=
    fun y => getD_setIfInBounds (by rw [h.ancestor_size]; exact hw) y _ _
  have hself : ∀ y, Above p y w → p w < y → y = w := by
    intro y hy hpy
    rcases hy.cases_parent with heq | ⟨-, hy⟩
    · exact heq
    · exact absurd (hd.above_le hy) (Nat.not_le_of_lt hpy)
  refine ⟨h.label_size, by simp [Forest.link, h.ancestor_size], fun y hyw hyn => ?_,
    fun y hyw hyn => ?_⟩
  · show (s.ancestor.setIfInBounds w _).getD y none = none ∧ _
    rw [hancestor, if_neg (Nat.ne_of_gt hyw)]
    exact h.low y (hyw.trans (Nat.lt_succ_self w)) hyn
  · show s.semi.getD y 0 = sd y ∧ ∃ a, (s.ancestor.setIfInBounds w _).getD y none = some a ∧
      Shortcut p sd w y a (s.label.getD y 0)
    rw [hancestor]
    by_cases hy : w = y
    · subst hy
      rw [if_pos rfl, (h.low w (Nat.lt_succ_self w) hw).2]
      exact ⟨hs, p w, rfl, .child .refl h0, hlt, fun y hy hpy => Nat.le_of_eq (hself y hy hpy).symm,
        .refl, hlt, fun y hy hpy => by rw [hself y hy hpy]⟩
    · obtain ⟨hsy, a, ha, hcut⟩ := h.high y (Nat.lt_of_le_of_ne hyw hy) hyn
      rw [if_neg hy]
      exact ⟨hsy, a, ha, { hcut with
        linked := fun z hz haz => Nat.le_of_succ_le (hcut.linked z hz haz) }⟩

end Linked

structure Lowering (n : Nat) (E : Nat → Nat → Prop) (p sd : Nat → Nat) (w : Nat) (done : List Nat)
    (s t : Forest) : Prop where
  linked : Linked n p sd (w + 1) t
  semi_size : t.semi.size = n
  bucket : t.bucket = s.bucket
  dom : t.dom = s.dom
  fresh : ∀ v < w, t.semi.getD v 0 = v
  le : t.semi.getD w 0 ≤ w
  enters : t.semi.getD w 0 = w ∨ Enters E (t.semi.getD w 0) w
  before : ∀ v ∈ done, v < w → t.semi.getD w 0 ≤ v
  behind : ∀ v ∈ done, ∀ u, Above p u v → w < u → t.semi.getD w 0 ≤ sd u

section Visit

variable (hd : DepthFirst n E p) (hsd : ∀ w < n, w ≠ 0 → IsSemi E w (sd w)) (hw : w < n)
include hd hsd hw

omit hw in
/-- What counts of the value of a predecessor. -/
theorem Lowering.eval {done : List Nat} (h : Lowering n E p sd w done s t) (he : E v w) :
    ∃ u t', t.eval v = (u, t') ∧
    Linked n p sd (w + 1) t' ∧ SameFacts t t' ∧ (t.semi.getD u 0 = t.semi.getD w 0 ∨
      Enters E (t.semi.getD u 0) w) ∧
    (v < w → t.semi.getD u 0 ≤ v) ∧ ∀ y, Above p y v → w < y → t.semi.getD u 0 ≤ sd y := by
  have hv := (hd.edge_lt v w he).1
  rcases Nat.lt_or_ge w v with hwv | hvw
  · obtain ⟨u, t', hev, hl, hsame, huv, hwu, hleast⟩ := h.linked.eval_high hd hv hwv
    have hun := Nat.lt_of_le_of_lt (hd.above_le huv) hv
    have hu0 : u ≠ 0 := by omega
    have hsu : t.semi.getD u 0 = sd u := (h.linked.high u hwu hun).1
    rw [← hsu] at hleast
    refine ⟨u, t', hev, hl, hsame, Or.inr ?_,
      fun hlt => absurd hlt (Nat.not_lt_of_le (Nat.le_of_lt hwv)), hleast⟩
    rw [hsu]
    exact hd.enters_of_pred he huv hwu (hsd u hun hu0).1
  · refine ⟨v, t, h.linked.eval_low hv (Nat.lt_succ_of_le hvw), h.linked, .refl t, ?_,
      fun hlt => Nat.le_of_eq (h.fresh v hlt), fun y hy hwy => ?_⟩
    · rcases Nat.eq_or_lt_of_le hvw with heq | hlt
      · exact Or.inl (by rw [heq])
      · rw [h.fresh v hlt]
        exact Or.inr (Or.inl he)
    · exact absurd (hd.above_le hy) (by omega)

theorem Lowering.step {done : List Nat} (h : Lowering n E p sd w done s t) (he : E v w) :
    Lowering n E p sd w (done ++ [v]) s (t.lower w v) := by
  obtain ⟨u, t', hev, hl, hsame, henters, hbefore, hbehind⟩ := h.eval hd hsd he
  have hlower : t.lower w v =
      { t' with semi := t'.semi.setIfInBounds w (min (t.semi.getD w 0) (t.semi.getD u 0)) } := by
    rw [lower, hev, ← hsame.semi]
  have hsize : t'.semi.size = n := hsame.semi ▸ h.semi_size
  have hget : ∀ y, (t.lower w v).semi.getD y 0 = if w = y
      then min (t.semi.getD w 0) (t.semi.getD u 0) else t.semi.getD y 0 := by
    intro y
    rw [hlower, ← hsame.semi]
    exact getD_setIfInBounds (by rw [hsize]; exact hw) y _ _
  have hat : (t.lower w v).semi.getD w 0 = min (t.semi.getD w 0) (t.semi.getD u 0) :=
    (hget w).trans (if_pos rfl)
  have hother : ∀ y, w ≠ y → (t.lower w v).semi.getD y 0 = t.semi.getD y 0 :=
    fun y hy => (hget y).trans (if_neg hy)
  refine ⟨hl.congr (by rw [hlower]) (by rw [hlower]) fun y hwy _ => ?_, ?_, ?_, ?_, fun y hy => ?_,
    ?_, ?_, fun y hy hlt => ?_, fun y hy z hz hwz => ?_⟩
  · rw [hother y (by omega), hsame.semi]
  · rw [hlower]
    simp [hsize]
  · rw [hlower]
    exact hsame.bucket.trans h.bucket
  · rw [hlower]
    exact hsame.dom.trans h.dom
  · rw [hother y (by omega), h.fresh y hy]
  · rw [hat]
    exact (Nat.min_le_left _ _).trans h.le
  · rw [hat]
    rcases Nat.le_total (t.semi.getD w 0) (t.semi.getD u 0) with hle | hle
    · rw [Nat.min_eq_left hle]
      exact h.enters
    · rw [Nat.min_eq_right hle]
      rcases henters with heq | hent
      · exact heq ▸ h.enters
      · exact Or.inr hent
  · rw [hat]
    rcases List.mem_append.1 hy with hy | hy
    · exact (Nat.min_le_left _ _).trans (h.before y hy hlt)
    · rw [List.mem_singleton.1 hy] at hlt ⊢
      exact (Nat.min_le_right _ _).trans (hbefore hlt)
  · rw [hat]
    rcases List.mem_append.1 hy with hy | hy
    · exact (Nat.min_le_left _ _).trans (h.behind y hy z hz hwz)
    · rw [List.mem_singleton.1 hy] at hz
      exact (Nat.min_le_right _ _).trans (hbehind z hz hwz)

theorem Lowering.foldl {done l : List Nat} (h : Lowering n E p sd w done s t)
    (he : ∀ v ∈ l, E v w) : Lowering n E p sd w (done ++ l) s (l.foldl (lower w) t) := by
  induction l generalizing done t with
  | nil => simpa using h
  | cons v l ih =>
    have :=
      ih (h.step hd hsd hw (he v List.mem_cons_self)) fun y hy => he y (List.mem_cons_of_mem _ hy)
    rwa [List.append_assoc] at this

/-- When all predecessors were looked at, the semidominator is found. -/
theorem Lowering.semi_eq {preds : List Nat} (h : Lowering n E p sd w preds s t) (h0 : w ≠ 0)
    (hp : ∀ v, E v w → v ∈ preds) : t.semi.getD w 0 = sd w := by
  refine IsLeast.unique ⟨?_, fun v hv => ?_⟩ (hsd w hw h0)
  · have hlt := hd.parent_lt w h0
    have hle := h.before _ (hp _ (hd.parent_edge w hw h0)) hlt
    exact h.enters.resolve_left (by omega)
  · rcases hd.enters_cases hv with he | ⟨x, u, he, hux, hwu, hent⟩
    · rcases Nat.lt_or_ge v w with hvw | hwv
      · exact h.before v (hp v he) hvw
      · exact h.le.trans hwv
    · have hun := (hd.lt_of_enters hent).2
      exact (h.behind x (hp x he) u hux hwu).trans ((hsd u hun (by omega)).2 hent)

omit hsd hw

/-- A node is taken out of the bucket of its semidominator when its way reaches up to that. -/
theorem Linked.assign (h : Linked n p sd w s) (h0 : w ≠ 0) (hdom : s.dom.size = n) (hv : v < n)
    (hwv : w ≤ v) (hs : sd v = p w) :
    Linked n p sd w (s.assign (p w) v) ∧ (s.assign (p w) v).semi = s.semi ∧
      (s.assign (p w) v).bucket = s.bucket ∧
      (s.assign (p w) v).dom.size = n ∧ ∀ y, Known p sd s y ∨ y = v →
        Known p sd (s.assign (p w) v) y := by
  obtain ⟨u, t, hev, ht, hsame, huv, hwu, hleast⟩ := h.eval_high hd hv hwv
  have hlt := hd.parent_lt w h0
  have hsu : s.semi.getD u 0 = sd u := (h.high u hwu (Nat.lt_of_le_of_lt (hd.above_le huv) hv)).1
  have hsv : s.semi.getD v 0 = sd v := (h.high v hwv hv).1
  have hassign : s.assign (p w) v =
      { t with dom := s.dom.setIfInBounds v (if sd u < sd v then u else sd v) } := by
    rw [Forest.assign, hev]
    dsimp only
    rw [hsame.dom, hsame.semi, hsu, hsv, hs]
  rw [hassign]
  refine ⟨ht.congr rfl rfl fun _ _ _ => rfl, hsame.semi, hsame.bucket, by simp [hdom],
    fun y hy => ?_⟩
  unfold Known
  dsimp only
  rw [getD_setIfInBounds (by rw [hdom]; exact hv)]
  by_cases hvy : v = y
  · subst hvy
    refine ⟨u, huv, by omega, fun y hyv hy => hleast y hyv (hd.le_of_above hv hwv hyv (hs ▸ hy)),
      if_pos rfl⟩
  · rw [if_neg hvy]
    exact hy.resolve_right fun heq => hvy heq.symm

theorem Linked.foldl_assign {l : List Nat} (h : Linked n p sd w s) (h0 : w ≠ 0)
    (hdom : s.dom.size = n) (hl : ∀ v ∈ l, v < n ∧ w ≤ v ∧ sd v = p w) :
    Linked n p sd w (l.foldl (Forest.assign (p w)) s) ∧
      (l.foldl (Forest.assign (p w)) s).semi = s.semi ∧
      (l.foldl (Forest.assign (p w)) s).bucket = s.bucket ∧
        (l.foldl (Forest.assign (p w)) s).dom.size = n ∧
      ∀ y, Known p sd s y ∨ y ∈ l → Known p sd (l.foldl (Forest.assign (p w)) s) y := by
  induction l generalizing s with
  | nil => exact ⟨h, rfl, rfl, hdom, fun y hy => hy.resolve_right List.not_mem_nil⟩
  | cons v l ih =>
    obtain ⟨hv, hwv, hs⟩ := hl v List.mem_cons_self
    obtain ⟨h1, hsemi1, hbucket1, hdom1, hknown1⟩ := h.assign hd h0 hdom hv hwv hs
    obtain ⟨h2, hsemi2, hbucket2, hdom2, hknown2⟩ :=
      ih h1 hdom1 fun y hy => hl y (List.mem_cons_of_mem _ hy)
    refine ⟨h2, hsemi2.trans hsemi1, hbucket2.trans hbucket1, hdom2, fun y hy => hknown2 y ?_⟩
    rcases hy with hy | hy
    · exact Or.inl (hknown1 y (Or.inl hy))
    · rcases List.mem_cons.1 hy with heq | hy
      · exact Or.inl (hknown1 y (Or.inr heq))
      · exact Or.inr hy

end Visit

/-- What holds when the nodes from `i` on were linked. A node whose dominator is not known is in the
bucket of its semidominator, and there is a node before `k` between the two. -/
structure Visited (n : Nat) (p sd : Nat → Nat) (i k : Nat) (s : Forest) : Prop where
  linked : Linked n p sd i s
  semi_size : s.semi.size = n
  bucket_size : s.bucket.size = n
  dom_size : s.dom.size = n
  fresh : ∀ v < i, v < n → s.semi.getD v 0 = v
  bucket : ∀ q, ∀ v ∈ s.bucket.getD q [], v < n ∧ i ≤ v ∧ sd v = q
  known : ∀ v, i ≤ v → v < n → Known p sd s v ∨ v ∈ s.bucket.getD (sd v) [] ∧
    ∃ y < k, Above p y v ∧ sd v < y

theorem Visited.init (n : Nat) (p sd : Nat → Nat) : Visited n p sd n n (init n) := by
  have hrange : ∀ v < n, (Array.range n).getD v 0 = v := fun v hv => by simp [Array.getD, hv]
  have hnone : ∀ v, (Array.replicate n (none : Option Nat)).getD v none = none := fun v => by
    by_cases hv : v < n <;> simp [Array.getD, hv]
  have hnil : ∀ v, (Array.replicate n ([] : List Nat)).getD v [] = [] := fun v => by
    by_cases hv : v < n <;> simp [Array.getD, hv]
  refine ⟨⟨by simp [Forest.init], by simp [Forest.init], fun v _ hv => ⟨hnone v, hrange v hv⟩,
    fun v h1 h2 => by omega⟩, by simp [Forest.init],
    by simp [Forest.init], by simp [Forest.init], fun v _ hv => hrange v hv, fun q v hv => ?_,
    fun v h1 h2 => by omega⟩
  rw [Forest.init, hnil] at hv
  cases hv

section Deferred

variable (hd : DepthFirst n E p) (hsd : ∀ w < n, w ≠ 0 → IsSemi E w (sd w)) (hw : w < n)
  (h0 : w ≠ 0)
include hd hsd hw h0

/-- A node that was linked waits in the bucket of its semidominator. -/
theorem Visited.defer {l : List Nat} (h : Visited n p sd (w + 1) (w + 1) s)
    (hl : Lowering n E p sd w l s t) (hs : t.semi.getD w 0 = sd w) :
    Visited n p sd w (w + 1) ((t.link (p w) w).defer w) := by
  have hlt := hd.parent_lt w h0
  have hle : sd w ≤ p w := hd.above_le (hd.semi_above (hsd w hw h0) hw h0)
  have hdefer : (t.link (p w) w).defer w =
      { t.link (p w) w with
        bucket := s.bucket.setIfInBounds (sd w) (w :: s.bucket.getD (sd w) []) } := by
    rw [Forest.defer, show (t.link (p w) w).semi.getD w 0 = sd w from hs,
      show (t.link (p w) w).bucket = s.bucket from hl.bucket]
  have hbucket : ∀ q, ((t.link (p w) w).defer w).bucket.getD q [] = if sd w = q
      then w :: s.bucket.getD q [] else s.bucket.getD q [] := by
    intro q
    rw [hdefer, getD_setIfInBounds (by rw [h.bucket_size]; omega)]
    split
    · next hq => rw [hq]
    · rfl
  have hold : ∀ q, ∀ v ∈ s.bucket.getD q [], v ∈ ((t.link (p w) w).defer w).bucket.getD q [] := by
    intro q v hv
    rw [hbucket]
    split
    · exact List.mem_cons_of_mem _ hv
    · exact hv
  refine ⟨(hl.linked.link hd hw h0 hs).congr rfl rfl fun _ _ _ => rfl, hl.semi_size,
    by simp [hdefer, h.bucket_size],
    hl.dom ▸ h.dom_size, fun v hv _ => hl.fresh v hv, fun q v hv => ?_, fun v hwv hvn => ?_⟩
  · by_cases hvw : v = w ∧ sd w = q
    · rw [hvw.1]
      exact ⟨hw, Nat.le_refl w, hvw.2⟩
    · have hv' : v ∈ s.bucket.getD q [] := by
        rw [hbucket] at hv
        split at hv
        · next hq => exact (List.mem_cons.1 hv).resolve_left fun heq => hvw ⟨heq, hq⟩
        · exact hv
      obtain ⟨hvn, hwv, hq⟩ := h.bucket q v hv'
      exact ⟨hvn, Nat.le_of_succ_le hwv, hq⟩
  · rcases Nat.eq_or_lt_of_le hwv with rfl | hwv
    · refine Or.inr ⟨?_, w, Nat.lt_succ_self w, .refl, by omega⟩
      rw [hbucket, if_pos rfl]
      exact List.mem_cons_self
    · refine (h.known v hwv hvn).imp (fun hk => ?_) fun ⟨hv, hy⟩ => ⟨hold _ v hv, hy⟩
      unfold Known at hk ⊢
      rwa [show ((t.link (p w) w).defer w).dom = s.dom from hl.dom]

/-- The bucket of a parent is emptied. What is in another one waits for a node between, which is the
parent at the latest. -/
theorem Visited.settle (h : Visited n p sd w (w + 1) s) : Visited n p sd w w (s.settle (p w)) := by
  have hlt := hd.parent_lt w h0
  obtain ⟨hlinked, hsemi, hbucket, hdom, hknown⟩ :=
    h.linked.foldl_assign hd h0 h.dom_size (h.bucket (p w))
  rw [Forest.settle]
  obtain ⟨t, ht⟩ : ∃ t, t = (s.bucket.getD (p w) []).foldl (Forest.assign (p w)) s := ⟨_, rfl⟩
  rw [← ht] at hlinked hsemi hbucket hdom hknown ⊢
  have hget : ∀ q, (t.bucket.setIfInBounds (p w) []).getD q [] = if p w = q then []
      else s.bucket.getD q [] := by
    intro q
    rw [hbucket, getD_setIfInBounds (by rw [h.bucket_size]; omega)]
  refine ⟨hlinked.congr rfl rfl fun _ _ _ => rfl, hsemi ▸ h.semi_size,
    by simp [hbucket, h.bucket_size], hdom, hsemi ▸ h.fresh,
    fun q v hv => ?_, fun v hwv hvn => ?_⟩
  · rw [hget] at hv
    split at hv
    · cases hv
    · exact h.bucket q v hv
  · rcases h.known v hwv hvn with hk | ⟨hv, y, hy, hyv, hsy⟩
    · exact Or.inl (hknown v (Or.inl hk))
    · by_cases hp : p w = sd v
      · exact Or.inl (hknown v (Or.inr (hp ▸ hv)))
      · refine Or.inr ⟨by rw [hget, if_neg hp]; exact hv, ?_⟩
        rcases Nat.eq_or_lt_of_le (Nat.le_of_lt_succ hy) with rfl | hyw
        · have hv0 : v ≠ 0 := by omega
          have hsv : Above p (sd v) v := .child (hd.semi_above (hsd v hvn hv0) hvn hv0) hv0
          refine ⟨p y, hlt, Above.trans (.child .refl h0) hyv, Nat.lt_of_le_of_ne ?_ (Ne.symm hp)⟩
          rcases (hd.above_of_above hsv hyv hvn (Nat.le_of_lt hsy)).cases_parent with heq | ⟨-, hsp⟩
          · omega
          · exact hd.above_le hsp
        · exact ⟨y, hyw, hyv, hsy⟩

end Deferred

section Run

variable {g : Search} (hg : g.Numbers E p) (hsd : ∀ w < g.preds.size, w ≠ 0 → IsSemi E w (sd w))
include hg hsd

theorem Visited.visit (h : Visited g.preds.size p sd (w + 1) (w + 1) s) (hw : w < g.preds.size)
    (h0 : w ≠ 0) : Visited g.preds.size p sd w w (s.visit g w) := by
  have hd := hg.depthFirst
  have hlow : Lowering g.preds.size E p sd w [] s s :=
    ⟨h.linked, h.semi_size, rfl, rfl, fun v hv => h.fresh v (by omega) (by omega),
      Nat.le_of_eq (h.fresh w (by omega) hw), Or.inl (h.fresh w (by omega) hw), by simp, by simp⟩
  have hlowered := hlow.foldl hd hsd hw fun v hv => (hg.preds v w).1 hv
  have hsemi := hlowered.semi_eq hd hsd hw h0 fun v hv => (hg.preds v w).2 hv
  rw [Forest.visit, hg.parents]
  exact (h.defer hd hsd hw h0 hlowered hsemi).settle hd hsd hw h0

/-- After all visits the dominators are known. -/
theorem visited_ofSearch : Visited g.preds.size p sd 1 1 (ofSearch g) ∨ g.preds.size = 0 := by
  have hall : ∀ k s, k < g.preds.size → Visited g.preds.size p sd (k + 1) (k + 1) s →
      Visited g.preds.size p sd 1 1 ((List.range' 1 k).reverse.foldl (Forest.visit g) s) := by
    intro k
    induction k with
    | zero => exact fun s _ hs => hs
    | succ k ih =>
      intro s hk hs
      rw [List.range'_1_concat, List.reverse_append, List.reverse_singleton, List.singleton_append,
        List.foldl_cons, Nat.add_comm 1 k]
      exact ih _ (by omega) (hs.visit hg hsd hk (Nat.succ_ne_zero k))
  rcases Nat.eq_zero_or_pos g.preds.size with h0 | hpos
  · exact Or.inr h0
  · refine Or.inl (hall (g.preds.size - 1) _ (by omega) ?_)
    rw [Nat.sub_add_cancel hpos]
    exact .init _ p sd

theorem known_ofSearch (hw : w < g.preds.size) (h0 : w ≠ 0) : Known p sd (ofSearch g) w := by
  rcases visited_ofSearch hg hsd with h | hz
  · refine (h.known w (Nat.one_le_iff_ne_zero.2 h0) hw).resolve_right ?_
    rintro ⟨-, y, hy, -, hsy⟩
    omega
  · omega

/-- From first to last, the dominator of a node is read off or taken from a node before it. -/
theorem foldl_resolve {k : Nat} (hk : k < g.preds.size) :
    ((List.range' 1 k).foldl (ofSearch g).resolve (ofSearch g).dom).size = g.preds.size ∧
      (∀ w, w ≠ 0 → w ≤ k →
        IsIdom E w (((List.range' 1 k).foldl (ofSearch g).resolve (ofSearch g).dom).getD w 0)) ∧
      ∀ w, k < w → ((List.range' 1 k).foldl (ofSearch g).resolve (ofSearch g).dom).getD w 0 =
        (ofSearch g).dom.getD w 0 := by
  have hd := hg.depthFirst
  have hvisited := (visited_ofSearch hg hsd).resolve_right (by omega)
  induction k with
  | zero => exact ⟨hvisited.dom_size, fun w h0 hw => absurd (Nat.le_zero.1 hw) h0, fun _ _ => rfl⟩
  | succ k ih =>
    obtain ⟨hsize, hdone, hrest⟩ := ih (by omega)
    obtain ⟨d, hdef⟩ : ∃ d, d = (List.range' 1 k).foldl (ofSearch g).resolve (ofSearch g).dom :=
      ⟨_, rfl⟩
    rw [List.range'_1_concat, List.foldl_append, ← hdef, List.foldl_cons, List.foldl_nil,
      Nat.add_comm 1 k]
    rw [← hdef] at hsize hdone hrest
    obtain ⟨u, huw, hsu, hmin, hdom⟩ := known_ofSearch hg hsd hk (Nat.succ_ne_zero k)
    have hsemi : (ofSearch g).semi.getD (k + 1) 0 = sd (k + 1) :=
      (hvisited.linked.high _ (Nat.succ_pos k) hk).1
    have hnew : ∃ x, IsIdom E (k + 1) x ∧ ((ofSearch g).resolve d (k + 1)).size = g.preds.size ∧
        ∀ w, ((ofSearch g).resolve d (k + 1)).getD w 0 = if k + 1 = w then x else d.getD w 0 := by
      rw [resolve, hrest (k + 1) (Nat.lt_succ_self k), hdom, hsemi]
      by_cases hlt : sd u < sd (k + 1)
      · have hule := hd.above_le huw
        have hne : u ≠ k + 1 := fun heq => by
          rw [heq] at hlt
          exact Nat.lt_irrefl _ hlt
        rw [if_pos hlt, if_neg (Nat.ne_of_gt hsu)]
        refine ⟨d.getD u 0, ?_, by simpa using hsize,
          fun w => getD_setIfInBounds (by rw [hsize]; exact hk) w _ _⟩
        exact (hd.isIdom_iff hsd hk huw hsu hmin hlt _).2 (hdone u (by omega) (by omega))
      · rw [if_neg hlt, if_pos rfl]
        refine ⟨sd (k + 1), hd.isIdom_semi hsd hk hmin (Nat.succ_ne_zero k) (Nat.le_of_not_lt hlt),
          hsize, fun w => ?_⟩
        split
        · next hw => rw [← hw, hrest (k + 1) (Nat.lt_succ_self k), hdom, if_neg hlt]
        · rfl
    obtain ⟨x, hx, hsize', hget⟩ := hnew
    refine ⟨hsize', fun w h0 hw => ?_, fun w hw => ?_⟩
    · rw [hget]
      split
      · next heq => exact heq ▸ hx
      · next hne => exact hdone w h0 (by omega)
    · rw [hget, if_neg (Nat.ne_of_lt hw), hrest w (by omega)]

end Run

/-- The forest of a search knows the immediate dominators. -/
theorem isIdom_idoms {g : Search} (hg : g.Numbers E p) (hw : w < g.preds.size) (h0 : w ≠ 0) :
    IsIdom E w ((ofSearch g).idoms.getD w 0) := by
  have hsd : ∀ w < g.preds.size, w ≠ 0 → IsSemi E w (sInf {v | Enters E v w}) := fun w hw h0 =>
    ⟨Nat.sInf_mem ⟨p w, Or.inl (hg.depthFirst.parent_edge w hw h0)⟩, fun v hv => Nat.sInf_le hv⟩
  have hsize := ((visited_ofSearch hg hsd).resolve_right (by omega)).dom_size
  rw [idoms, hsize]
  exact (foldl_resolve hg hsd (k := g.preds.size - 1) (by omega)).2.1 w h0 (by omega)

end Forest
end CodeMotion
