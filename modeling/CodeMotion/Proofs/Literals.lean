import Mathlib
import CodeMotion.Settings

/-! The numbers of the environment are read exactly. The literals are given by a grammar of their
own, which says what a digit is, where underscores may stand and what a literal is worth. A text is
read as a number if it is a literal of a value that fits; it is too small if its value is below the
least one, or so large that it counts as negative; and every other text is invalid. -/

namespace CodeMotion

namespace Literal

def IsDigit (base : Nat) (c : Char) (d : Nat) : Prop :=
  d < base ∧ ("0123456789abcdef".toList[d]? = some c ∨ "0123456789ABCDEF".toList[d]? = some c)

/-- Digits, the most significant first. Between two of them one underscore may stand. -/
inductive Digits (base : Nat) : List Char → List Nat → Prop
  | single {c d} : IsDigit base c d → Digits base [c] [d]
  | next {c d cs ds} : IsDigit base c d → Digits base cs ds → Digits base (c :: cs) (d :: ds)
  | spaced {c d cs ds} : IsDigit base c d → Digits base cs ds →
    Digits base (c :: '_' :: cs) (d :: ds)

/-- Digits behind the mark of a base, from which an underscore may separate them. -/
def Tail (base : Nat) (cs : List Char) (ds : List Nat) : Prop :=
  Digits base cs ds ∨ ∃ t, cs = '_' :: t ∧ Digits base t ds

inductive Mark : Char → Nat → Prop
  | x : Mark 'x' 16
  | X : Mark 'X' 16
  | o : Mark 'o' 8
  | O : Mark 'O' 8
  | b : Mark 'b' 2
  | B : Mark 'B' 2

inductive Denotes : List Char → Nat → Prop
  | zero : Denotes ['0'] 0
  | decimal {cs ds} : Digits 10 cs ds → cs.head? ≠ some '0' →
    Denotes cs (Nat.ofDigits 10 ds.reverse)
  | octal {cs ds} : Tail 8 cs ds → Denotes ('0' :: cs) (Nat.ofDigits 8 ds.reverse)
  | marked {m base cs ds} : Mark m base → Tail base cs ds →
    Denotes ('0' :: m :: cs) (Nat.ofDigits base ds.reverse)

variable {base : Nat} {c m : Char} {d n : Nat} {cs : List Char} {ds : List Nat}

/-! Digits. -/

theorem code_of_isDigit (h : c.isDigit = true) : 48 ≤ c.toNat ∧ c.toNat ≤ 57 := by
  simpa [Char.isDigit, ← Char.toNat_val, UInt32.le_iff_toNat_le] using h

theorem code_of_isLower (h : c.isLower = true) : 97 ≤ c.toNat ∧ c.toNat ≤ 122 := by
  simpa [Char.isLower, ← Char.toNat_val, UInt32.le_iff_toNat_le] using h

theorem code_of_isUpper (h : c.isUpper = true) : 65 ≤ c.toNat ∧ c.toNat ≤ 90 := by
  simpa [Char.isUpper, ← Char.toNat_val, UInt32.le_iff_toNat_le] using h

theorem code_of_digit? (h : digit? base c = some d) : d < base ∧
    (c.toNat = 48 + d ∧ d < 10 ∨ c.toNat = 87 + d ∧ 10 ≤ d ∨ c.toNat = 55 + d ∧ 10 ≤ d) := by
  obtain ⟨hd, hlt⟩ := Option.filter_eq_some_iff.1 h
  refine ⟨by simpa using hlt, ?_⟩
  have hzero : '0'.toNat = 48 := rfl
  have ha : 'a'.toNat = 97 := rfl
  have hA : 'A'.toNat = 65 := rfl
  split at hd
  · next hc =>
    have := code_of_isDigit hc
    rw [Option.some.injEq] at hd
    omega
  · split at hd
    · next hc =>
      have := code_of_isLower hc
      rw [Option.some.injEq] at hd
      omega
    · split at hd
      · next hc =>
        have := code_of_isUpper hc
        rw [Option.some.injEq] at hd
        omega
      · cases hd

theorem table_of_lt_ten : ∀ d < 10, "0123456789abcdef".toList[d]? = some (Char.ofNat (48 + d)) := by
  decide

theorem table_of_le :
    ∀ d < 16, 10 ≤ d → "0123456789abcdef".toList[d]? = some (Char.ofNat (87 + d)) ∧
    "0123456789ABCDEF".toList[d]? = some (Char.ofNat (55 + d)) := by decide

theorem digit?_table : ∀ d < 16, "0123456789abcdef".toList[d]?.bind (digit? 16) = some d ∧
    "0123456789ABCDEF".toList[d]?.bind (digit? 16) = some d := by decide

theorem digit?_of_lt {base' : Nat} (h : digit? base' c = some d) (hd : d < base) :
    digit? base c = some d := by
  obtain ⟨h, -⟩ := Option.filter_eq_some_iff.1 h
  exact Option.filter_eq_some_iff.2 ⟨h, by simpa using hd⟩

theorem digit?_iff (hb : base ≤ 16) : digit? base c = some d ↔ IsDigit base c d := by
  constructor
  · intro h
    obtain ⟨hd, hcode⟩ := code_of_digit? h
    refine ⟨hd, ?_⟩
    rw [← Char.ofNat_toNat c]
    rcases hcode with ⟨hc, hlt⟩ | ⟨hc, hle⟩ | ⟨hc, hle⟩
    · exact Or.inl (hc ▸ table_of_lt_ten d hlt)
    · exact Or.inl (hc ▸ (table_of_le d (by omega) hle).1)
    · exact Or.inr (hc ▸ (table_of_le d (by omega) hle).2)
  · rintro ⟨hd, hc⟩
    obtain ⟨hlower, hupper⟩ := digit?_table d (by omega)
    have hvalue : digit? 16 c = some d := by
      rcases hc with hc | hc
      · rwa [hc] at hlower
      · rwa [hc] at hupper
    exact digit?_of_lt hvalue hd

theorem digit?_underscore (base : Nat) : digit? base '_' = none := rfl

theorem not_isDigit_underscore (hb : base ≤ 16) : ¬ IsDigit base '_' d := by
  rw [← digit?_iff hb, digit?_underscore]
  exact nofun

theorem digits_cons_iff :
    Digits base (c :: cs) ds ↔ ∃ d t, IsDigit base c d ∧ ds = d :: t ∧
      (cs = [] ∧ t = [] ∨ Tail base cs t) := by
  constructor
  · intro h
    cases h with
    | single hd => exact ⟨_, [], hd, rfl, Or.inl ⟨rfl, rfl⟩⟩
    | next hd ht => exact ⟨_, _, hd, rfl, Or.inr (Or.inl ht)⟩
    | spaced hd ht => exact ⟨_, _, hd, rfl, Or.inr (Or.inr ⟨_, rfl, ht⟩)⟩
  · rintro ⟨d, t, hd, rfl, ⟨rfl, rfl⟩ | ht | ⟨t', rfl, ht⟩⟩
    · exact .single hd
    · exact .next hd ht
    · exact .spaced hd ht

theorem not_digits_underscore (hb : base ≤ 16) : ¬ Digits base ('_' :: cs) ds := by
  rw [digits_cons_iff]
  rintro ⟨d, t, hd, -⟩
  exact not_isDigit_underscore hb hd

theorem digits?_cons (hc : c ≠ '_') (afterDigit : Bool) :
    digits? base afterDigit (c :: cs) = some ds ↔
    ∃ d t, digit? base c = some d ∧ ds = d :: t ∧ digits? base true cs = some t := by
  rw [digits?, if_neg hc]
  cases digit? base c with
  | none => simp
  | some d => cases digits? base true cs <;> simp [eq_comm]

theorem not_tail_nil : ¬ Tail base [] ds := by
  rintro (h | ⟨t, h, -⟩)
  · cases h
  · cases h

/-- The digits of a text are those that the grammar gives, also behind the mark of a base. -/
theorem digits?_iff (hb : base ≤ 16) (cs : List Char) (ds : List Nat) :
    (digits? base false cs = some ds ↔ Digits base cs ds) ∧
    (digits? base true cs = some ds ↔ cs = [] ∧ ds = [] ∨ Tail base cs ds) := by
  induction cs generalizing ds with
  | nil =>
    refine ⟨⟨nofun, nofun⟩, ?_⟩
    simp [digits?, not_tail_nil, eq_comm]
  | cons c cs ih =>
    by_cases hc : c = '_'
    · subst hc
      have hnot : ¬ Digits base ('_' :: cs) ds := not_digits_underscore hb
      refine ⟨by simp [digits?, hnot], ?_⟩
      rw [digits?, if_pos rfl, if_pos rfl, (ih ds).1]
      simp [Tail, hnot]
    · have hdigits : ∀ b, digits? base b (c :: cs) = some ds ↔ Digits base (c :: cs) ds := by
        intro b
        rw [digits?_cons hc, digits_cons_iff]
        exact exists_congr fun d => exists_congr fun t =>
          and_congr (digit?_iff hb) (and_congr_right fun _ => (ih t).2)
      refine ⟨hdigits false, (hdigits true).trans ?_⟩
      simp [Tail, hc]

/-! The parts of a literal. -/

theorem base_of_mark (h : Mark m base) : base ≤ 16 := by
  cases h <;> decide

theorem parts?_of_head (h : cs.head? ≠ some '0') :
    parts? cs = (digits? 10 false cs).map (10, ·) := by
  unfold parts?
  split
  · simp at h
  · simp at h
  · rfl

theorem parts?_of_mark (h : Mark m base) (c : Char) (cs : List Char) :
    parts? ('0' :: m :: c :: cs) = (digits? base true (c :: cs)).map (base, ·) := by
  cases h <;> rfl

theorem parts?_octal (h : ∀ m c t base, cs = m :: c :: t → ¬ Mark m base) :
    parts? ('0' :: cs) = (digits? 8 true cs).map (8, ·) := by
  match cs, h with
  | [], _ => rfl
  | [m], _ => rfl
  | m :: c :: t, h =>
    have hno : ∀ base, ¬ Mark m base := fun base => h m c t base rfl
    rw [parts?, if_neg, if_neg, if_neg]
    · rintro (rfl | rfl)
      exacts [hno _ .b, hno _ .B]
    · rintro (rfl | rfl)
      exacts [hno _ .o, hno _ .O]
    · rintro (rfl | rfl)
      exacts [hno _ .x, hno _ .X]

/-- No mark can be taken for an octal digit. -/
theorem not_mark_of_tail (h : Tail 8 (m :: cs) ds) : ¬ Mark m base := by
  intro hm
  rcases h with h | ⟨t, h, -⟩
  · obtain ⟨d, -, hd, -⟩ := digits_cons_iff.1 h
    rw [← digit?_iff (by decide)] at hd
    cases hm <;> cases hd
  · cases hm <;> cases h

theorem ofDigits_eq (base : Nat) (ds : List Nat) :
    ofDigits base ds = Nat.ofDigits base ds.reverse := by
  induction ds using List.reverseRecOn with
  | nil => rfl
  | append_singleton ds d ih =>
    rw [List.reverse_append, List.reverse_singleton, List.singleton_append, Nat.ofDigits_cons, ← ih]
    simp only [ofDigits, List.foldl_append, List.foldl_cons, List.foldl_nil]
    ring

theorem parts?_of_denotes (h : Denotes cs n) :
    ∃ base ds, parts? cs = some (base, ds) ∧ ofDigits base ds = n := by
  cases h with
  | zero => exact ⟨8, [], rfl, rfl⟩
  | decimal h h0 =>
    refine ⟨10, _, ?_, ofDigits_eq _ _⟩
    rw [parts?_of_head h0, (digits?_iff (by decide) _ _).1.2 h]
    rfl
  | octal h =>
    refine ⟨8, _, ?_, ofDigits_eq _ _⟩
    rw [parts?_octal fun m c t base ht => not_mark_of_tail (ht ▸ h),
      (digits?_iff (by decide) _ _).2.2 (Or.inr h)]
    rfl
  | @marked m base t ds hm h =>
    cases t with
    | nil => exact absurd h not_tail_nil
    | cons c t =>
      refine ⟨base, ds, ?_, ofDigits_eq _ _⟩
      rw [parts?_of_mark hm, (digits?_iff (base_of_mark hm) _ _).2.2 (Or.inr h)]
      rfl

theorem denotes_of_parts? (h : parts? cs = some (base, ds)) : Denotes cs (ofDigits base ds) := by
  rw [ofDigits_eq]
  by_cases h0 : cs.head? = some '0'
  · obtain ⟨t, rfl⟩ := List.head?_eq_some_iff.1 h0
    by_cases hm : ∃ m c t' base', t = m :: c :: t' ∧ Mark m base'
    · obtain ⟨m, c, t', base', rfl, hm⟩ := hm
      rw [parts?_of_mark hm, Option.map_eq_some_iff] at h
      obtain ⟨ds', hds, he⟩ := h
      cases he
      rcases (digits?_iff (base_of_mark hm) _ _).2.1 hds with ⟨hnil, -⟩ | htail
      · cases hnil
      · exact .marked hm htail
    · rw [parts?_octal fun m c t' base' ht hmark => hm ⟨m, c, t', base', ht, hmark⟩,
        Option.map_eq_some_iff] at h
      obtain ⟨ds', hds, he⟩ := h
      cases he
      rcases (digits?_iff (by decide) _ _).2.1 hds with ⟨rfl, rfl⟩ | htail
      · exact .zero
      · exact .octal htail
  · rw [parts?_of_head h0, Option.map_eq_some_iff] at h
    obtain ⟨ds', hds, he⟩ := h
    cases he
    exact .decimal ((digits?_iff (by decide) _ _).1.1 hds) h0

theorem Denotes.unique {n' : Nat} (h : Denotes cs n) (h' : Denotes cs n') : n = n' := by
  obtain ⟨base, ds, hp, rfl⟩ := parts?_of_denotes h
  obtain ⟨base', ds', hp', rfl⟩ := parts?_of_denotes h'
  rw [hp, Option.some.injEq, Prod.mk.injEq] at hp'
  rw [hp'.1, hp'.2]

theorem Denotes.ne_empty {s : String} (h : Denotes s.toList n) : s ≠ "" := by
  rintro rfl
  cases h with
  | decimal h => cases h

/-- A text has a value if it is a literal, and the value fits. -/
theorem value?_iff {s : String} : value? s = some n ↔ Denotes s.toList n ∧ n < 2 ^ 64 := by
  have hsize : UInt64.size = 2 ^ 64 := rfl
  unfold value?
  rw [hsize]
  constructor
  · intro h
    cases hp : parts? s.toList with
    | none => simp [hp] at h
    | some p =>
      obtain ⟨base, ds⟩ := p
      simp only [hp, Option.bind_eq_bind, Option.bind_some] at h
      split at h
      · next hlt =>
        cases h
        exact ⟨denotes_of_parts? hp, hlt⟩
      · cases h
  · rintro ⟨h, hlt⟩
    obtain ⟨base, ds, hp, rfl⟩ := parts?_of_denotes h
    simpa [hp] using hlt

/-! Numbers that are written out. -/

theorem Digits.snoc (h : Digits base cs ds) (hd : IsDigit base c d) :
    Digits base (cs ++ [c]) (ds ++ [d]) := by
  induction h with
  | single h => exact .next h (.single hd)
  | next h _ ih => exact .next h ih
  | spaced h _ ih => exact .spaced h ih

theorem isDigit_digitChar (hb : base ≤ 16) (hd : d < base) : IsDigit base (Nat.digitChar d) d := by
  have htable : ∀ d < 16, "0123456789abcdef".toList[d]? = some (Nat.digitChar d) := by decide
  exact ⟨hd, Or.inl (htable d (by omega))⟩

/-- A number written in a base has digits of that base, and is their value. -/
theorem digits_toDigits (hb : 1 < base) (hb' : base ≤ 16) (n : Nat) :
    ∃ ds, Digits base (Nat.toDigits base n) ds ∧ Nat.ofDigits base ds.reverse = n := by
  induction n using Nat.strong_induction_on with
  | _ n ih =>
    rw [Nat.toDigits_eq_if hb]
    split
    · next hlt => exact ⟨[n], .single (isDigit_digitChar hb' hlt), by simp⟩
    · next hle =>
      obtain ⟨ds, hds, hval⟩ := ih (n / base) (Nat.div_lt_self (by omega) hb)
      refine ⟨ds ++ [n % base], hds.snoc (isDigit_digitChar hb' (Nat.mod_lt _ (by omega))), ?_⟩
      rw [List.reverse_append, List.reverse_singleton, List.singleton_append,
        Nat.ofDigits_cons, hval]
      exact Nat.mod_add_div n base

theorem head?_toDigits (hb : 1 < base) (hb' : base ≤ 16) (hn : 0 < n) :
    (Nat.toDigits base n).head? ≠ some '0' := by
  induction n using Nat.strong_induction_on with
  | _ n ih =>
    rw [Nat.toDigits_eq_if hb]
    split
    · next hlt =>
      have hchar : ∀ d < 16, 0 < d → [Nat.digitChar d].head? ≠ some '0' := by decide
      exact hchar n (by omega) hn
    · next hle =>
      rw [List.head?_append_of_ne_nil _ Nat.toDigits_ne_nil]
      exact ih (n / base) (Nat.div_lt_self hn hb) (Nat.div_pos (Nat.le_of_not_lt hle) (by omega))

theorem denotes_decimal (n : Nat) : Denotes (Nat.toDigits 10 n) n := by
  rcases Nat.eq_zero_or_pos n with rfl | hn
  · exact .zero
  · obtain ⟨ds, hds, hval⟩ := digits_toDigits (show 1 < 10 by decide) (by decide) n
    have h : Denotes (Nat.toDigits 10 n) (Nat.ofDigits 10 ds.reverse) :=
      .decimal hds (head?_toDigits (by decide) (by decide) hn)
    rwa [hval] at h

theorem denotes_marked (hm : Mark m base) (n : Nat) :
    Denotes ('0' :: m :: Nat.toDigits base n) n := by
  have hb : 1 < base := by cases hm <;> decide
  obtain ⟨ds, hds, hval⟩ := digits_toDigits hb (base_of_mark hm) n
  have h : Denotes ('0' :: m :: Nat.toDigits base n) (Nat.ofDigits base ds.reverse) :=
    .marked hm (Or.inl hds)
  rwa [hval] at h

theorem denotes_written {mark : String} (hmark : mark.toList = ['0', m]) (hm : Mark m base)
    (n : Nat) : Denotes (mark ++ String.ofList (Nat.toDigits base n)).toList n := by
  rw [String.toList_append, hmark, String.toList_ofList]
  exact denotes_marked hm n

end Literal

/-! Settings. -/

theorem signed64_of_lt {n : Nat} (h : n < 2 ^ 63) : signed64 n = n :=
  Int.bmod_eq_of_le (by simp only [UInt64.size]; omega) (by simp only [UInt64.size]; omega)

theorem bmod_neg_of_le {n m : Nat} (h : m ≤ 2 * n) (h' : n < m) : (n : Int).bmod m < 0 := by
  have hmod : (n : Int) % m = n := Int.emod_eq_of_lt (Int.natCast_nonneg n) (Int.ofNat_lt.2 h')
  rw [Int.bmod_eq_emod, hmod]
  split <;> omega

theorem signed64_neg {n : Nat} (h : 2 ^ 63 ≤ n) (h' : n < 2 ^ 64) : signed64 n < 0 :=
  bmod_neg_of_le (by simp only [UInt64.size]; omega) h'

variable {key value : String} {fallback least : Int}

/-- A value that is set is accepted, too small or no literal. -/
theorem readNumber_cases (key : String) (fallback : Int) (hv : value ≠ "") (hleast : 0 ≤ least) :
    (∃ n : Nat, Literal.Denotes value.toList n ∧ least ≤ n ∧ n < 2 ^ 63 ∧
      readNumber key value fallback least = .ok n) ∨
    (∃ n : Nat, Literal.Denotes value.toList n ∧ n < 2 ^ 64 ∧ ((n : Int) < least ∨ 2 ^ 63 ≤ n) ∧
      readNumber key value fallback least = .error (.settingTooSmall key)) ∨
    (¬ ∃ n, Literal.Denotes value.toList n ∧ n < 2 ^ 64) ∧ readNumber key value fallback least =
      .error (.invalidSetting key) := by
  unfold readNumber
  rw [if_neg hv]
  cases hval : Literal.value? value with
  | none =>
    refine Or.inr (Or.inr ⟨?_, rfl⟩)
    rintro ⟨n, hn⟩
    rw [Literal.value?_iff.2 hn] at hval
    cases hval
  | some n =>
    obtain ⟨hn, hlt⟩ := Literal.value?_iff.1 hval
    by_cases hbig : n < 2 ^ 63
    · by_cases hsmall : (n : Int) < least
      · exact Or.inr (Or.inl ⟨n, hn, hlt, Or.inl hsmall, by simp [signed64_of_lt hbig, hsmall]⟩)
      · exact Or.inl ⟨n, hn, by omega, hbig, by simp [signed64_of_lt hbig, hsmall]⟩
    · have hneg := signed64_neg (Nat.le_of_not_lt hbig) hlt
      have hlow : signed64 n < least := by omega
      exact Or.inr (Or.inl ⟨n, hn, hlt, Or.inr (Nat.le_of_not_lt hbig), by simp [hlow]⟩)

section

variable (hv : value ≠ "") (hleast : 0 ≤ least)
include hv hleast

theorem readNumber_ok_iff {v : Int} : readNumber key value fallback least = .ok v ↔
    ∃ n : Nat, Literal.Denotes value.toList n ∧ v = n ∧ least ≤ n ∧ n < 2 ^ 63 := by
  constructor
  · intro h
    rcases readNumber_cases key fallback hv hleast with ⟨n, hn, hle, hlt, hr⟩ |
      ⟨n, -, -, -, hr⟩ | ⟨-, hr⟩
    · rw [hr] at h
      cases h
      exact ⟨n, hn, rfl, hle, hlt⟩
    · rw [hr] at h
      cases h
    · rw [hr] at h
      cases h
  · rintro ⟨n, hn, rfl, hle, hlt⟩
    rcases readNumber_cases key fallback hv hleast with ⟨n', hn', -, -, hr⟩ |
      ⟨n', hn', -, hsmall, -⟩ | ⟨hno, -⟩
    · rw [hr, hn.unique hn']
    · have := hn.unique hn'
      omega
    · exact absurd ⟨n, hn, by omega⟩ hno

theorem readNumber_tooSmall_iff :
    readNumber key value fallback least = .error (.settingTooSmall key) ↔
    ∃ n : Nat, Literal.Denotes value.toList n ∧ n < 2 ^ 64 ∧ ((n : Int) < least ∨ 2 ^ 63 ≤ n) := by
  constructor
  · intro h
    rcases readNumber_cases key fallback hv hleast with ⟨n, -, -, -, hr⟩ |
      ⟨n, hn, hlt, hsmall, -⟩ | ⟨-, hr⟩
    · rw [hr] at h
      cases h
    · exact ⟨n, hn, hlt, hsmall⟩
    · rw [hr] at h
      cases h
  · rintro ⟨n, hn, hlt, hsmall⟩
    rcases readNumber_cases key fallback hv hleast with ⟨n', hn', hle, hlt', -⟩ |
      ⟨n', -, -, -, hr⟩ | ⟨hno, -⟩
    · have := hn.unique hn'
      omega
    · exact hr
    · exact absurd ⟨n, hn, hlt⟩ hno

theorem readNumber_invalid_iff :
    readNumber key value fallback least = .error (.invalidSetting key) ↔
    ¬ ∃ n, Literal.Denotes value.toList n ∧ n < 2 ^ 64 := by
  constructor
  · intro h
    rcases readNumber_cases key fallback hv hleast with ⟨n, -, -, -, hr⟩ |
      ⟨n, -, -, -, hr⟩ | ⟨hno, -⟩
    · rw [hr] at h
      cases h
    · rw [hr] at h
      cases h
    · exact hno
  · intro hno
    rcases readNumber_cases key fallback hv hleast with ⟨n, hn, -, hlt, -⟩ |
      ⟨n, hn, hlt, -, -⟩ | ⟨-, hr⟩
    · exact absurd ⟨n, hn, by omega⟩ hno
    · exact absurd ⟨n, hn, hlt⟩ hno
    · exact hr

end

theorem readNumber_of_denotes {n : Nat} (hleast : 0 ≤ least) (h : Literal.Denotes value.toList n)
    (hle : least ≤ n) (hlt : n < 2 ^ 63) : readNumber key value fallback least = .ok n :=
  (readNumber_ok_iff h.ne_empty hleast).2 ⟨n, h, rfl, hle, hlt⟩

theorem readNumber_of_ofEnvironment {env : List (String × String)} {s : Settings}
    (h : Settings.ofEnvironment env = .ok s) :
    readNumber "LCM_MAX_EXPRS" ((env.lookup "LCM_MAX_EXPRS").getD "") 0 0 =
      .ok s.maxExpressions := by
  unfold Settings.ofEnvironment at h
  simp only [bind, Except.bind, pure, Except.pure] at h
  split at h
  · cases h
  · split at h
    · cases h
    · split at h
      · cases h
      · split at h
        · cases h
        · next hmax =>
          cases h
          exact hmax

theorem limit_range {env : List (String × String)} {s : Settings}
    (h : Settings.ofEnvironment env = .ok s) :
    0 ≤ s.maxExpressions ∧ s.maxExpressions < 2 ^ 63 := by
  have hr := readNumber_of_ofEnvironment h
  by_cases hv : (env.lookup "LCM_MAX_EXPRS").getD "" = ""
  · rw [readNumber, if_pos hv, Except.ok.injEq] at hr
    rw [← hr]
    exact ⟨Int.le_refl 0, by norm_num⟩
  · obtain ⟨n, -, he, -, hlt⟩ := (readNumber_ok_iff hv (Int.le_refl 0)).1 hr
    omega

/-- Numbers are read exactly: a text is accepted with the value that it denotes, too small, or no
literal of 64 bits. Whatever is accepted can be written in any base, and no limit is ever
negative. -/
theorem readNumber_exact (key : String) (fallback least : Int) (hleast : 0 ≤ least) :
    (∀ value, value ≠ "" →
      (∀ v, readNumber key value fallback least = .ok v ↔
        ∃ n : Nat, Literal.Denotes value.toList n ∧ v = n ∧ least ≤ n ∧ n < 2 ^ 63) ∧
      (readNumber key value fallback least = .error (.settingTooSmall key) ↔
        ∃ n : Nat, Literal.Denotes value.toList n ∧ n < 2 ^ 64 ∧ ((n : Int) < least ∨ 2 ^ 63 ≤ n)) ∧
      (readNumber key value fallback least = .error (.invalidSetting key) ↔
        ¬ ∃ n, Literal.Denotes value.toList n ∧ n < 2 ^ 64)) ∧
    (Fault.settingTooSmall key).message? = some ("lcm: value too small for " ++ key) ∧
    (Fault.invalidSetting key).message? = some ("lcm: invalid value for " ++ key) ∧
    (∀ n : Nat, least ≤ n → n < 2 ^ 63 →
      ∀ text ∈ [toString n, "0x" ++ String.ofList (Nat.toDigits 16 n),
        "0o" ++ String.ofList (Nat.toDigits 8 n),
        "0b" ++ String.ofList (Nat.toDigits 2 n)], readNumber key text fallback least = .ok n) ∧
    ∀ env s, Settings.ofEnvironment env = .ok s → 0 ≤ s.maxExpressions ∧
      s.maxExpressions < 2 ^ 63 := by
  refine ⟨fun value hv => ⟨fun v => readNumber_ok_iff hv hleast, readNumber_tooSmall_iff hv hleast,
    readNumber_invalid_iff hv hleast⟩,
    rfl, rfl, fun n hle hlt text htext => ?_, fun env s => limit_range⟩
  refine readNumber_of_denotes hleast ?_ hle hlt
  simp only [List.mem_cons, List.not_mem_nil, or_false] at htext
  rcases htext with rfl | rfl | rfl | rfl
  · rw [Nat.toString_eq_repr, Nat.toList_repr]
    exact Literal.denotes_decimal n
  · exact Literal.denotes_written rfl .x n
  · exact Literal.denotes_written rfl .o n
  · exact Literal.denotes_written rfl .b n

/-- An underscore behind the mark, the first value that counts as negative, and two underscores in
a row. -/
theorem readNumber_exact_spaced : (0 : Int) ≤ 2 ∧ Literal.Denotes "0x_1F".toList 31 ∧
    readNumber "LCM_MAX_EXPRS" "0x_1F" 0 2 = .ok 31 ∧
    readNumber "LCM_MAX_EXPRS" "0x8000000000000000" 0 2 =
      .error (.settingTooSmall "LCM_MAX_EXPRS") ∧
    readNumber "LCM_MAX_EXPRS" "1__0" 0 2 = .error (.invalidSetting "LCM_MAX_EXPRS") := by
  have hleast : (0 : Int) ≤ 2 := by decide
  have hnumber : Literal.Denotes "0x_1F".toList 31 := by
    have hdigits : Literal.Digits 16 ['1', 'F'] [1, 15] :=
      .next ⟨by decide, Or.inl rfl⟩ (.single ⟨by decide, Or.inr rfl⟩)
    exact .marked .x (Or.inr ⟨_, rfl, hdigits⟩)
  have hlarge : Literal.Denotes "0x8000000000000000".toList (2 ^ 63) :=
    (Literal.value?_iff.1 (by decide)).1
  have hread := (readNumber_exact "LCM_MAX_EXPRS" 0 2 hleast).1
  refine ⟨hleast, hnumber, ?_, ?_, ?_⟩
  · exact ((hread "0x_1F" (by decide)).1 31).2 ⟨31, hnumber, rfl, by decide, by decide⟩
  · exact (hread "0x8000000000000000" (by decide)).2.1.2 ⟨2 ^ 63, hlarge, by decide,
      Or.inr (Nat.le_refl _)⟩
  · refine (hread "1__0" (by decide)).2.2.2 ?_
    rintro ⟨n, hn⟩
    cases Literal.value?_iff.2 hn

end CodeMotion
