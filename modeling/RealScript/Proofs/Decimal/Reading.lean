import RealScript.Proofs.Decimal.Rounding
import RealScript.Proofs.Token.Numbers

/-! # Reading numbers

A text of digits with a point is read as the float nearest to the fraction it stands for.
-/

namespace RealScript.Decimal

def digitsValue (cs : List Char) : Nat := Nat.ofDigitChars 10 cs 0

theorem digitValue_of_isDigit {c : Char} (hc : c.isDigit = true) :
    digitBelow 10 c = some (c.toNat - '0'.toNat) := by
  have hlt : c.toNat - 48 < 10 := by
    rw [isDigit_iff] at hc
    omega
  rw [digitBelow, digitValue, if_pos hc, Option.filter_some, if_pos (by simpa using hlt)]
  rfl

theorem readMantissa_digits {ds : List Char} (hds : ∀ c ∈ ds, c.isDigit = true) (m : Mantissa)
    (rest : List Char) : readMantissa 10 m (ds ++ rest) = readMantissa 10
        { m with value := Nat.ofDigitChars 10 ds m.value, digits := m.digits || !ds.isEmpty,
                 places := if m.point then m.places + ds.length else m.places } rest := by
  induction ds generalizing m with
  | nil => simp
  | cons c ds ih =>
    have hc := hds c List.mem_cons_self
    have hne {d : Char} (hd : d.isDigit = false) : (c == d) = false := by
      rw [beq_eq_false_iff_ne]
      rintro rfl
      rw [hc] at hd
      cases hd
    rw [List.cons_append, readMantissa, hne (d := '_') (by decide), hne (d := '.') (by decide),
      digitValue_of_isDigit hc]
    simp only [Bool.false_eq_true, if_false]
    rw [ih fun d hd => hds d (List.mem_cons_of_mem c hd)]
    congr 2
    · rw [Nat.ofDigitChars_cons, mul_comm]
    · cases m.point
      · rfl
      · exact Nat.add_right_comm _ _ _
    · simp

theorem underscoresSeparate_of_not_mem {cs : List Char} (h : '_' ∉ cs) {seen : Seen}
    (hseen : seen ≠ .underscore) (hex : Bool) : underscoresSeparate hex seen cs = true := by
  induction cs generalizing seen with
  | nil => simpa [underscoresSeparate] using hseen
  | cons c cs ih =>
    have hc : (c == '_') = false := beq_eq_false_iff_ne.mpr fun heq => h (heq ▸ List.mem_cons_self)
    have ih {seen : Seen} := @ih (fun hm => h (List.mem_cons_of_mem c hm)) seen
    rw [underscoresSeparate, hc]
    split
    · exact ih nofun
    · simp [hseen, ih]

def numberText (ds : List Char) (es : Option (List Char)) : List Char := ds ++ es.elim [] ('.' :: ·)

def fraction (ds : List Char) (es : Option (List Char)) : ℚ :=
  digitsValue (ds ++ es.getD []) / 10 ^ (es.getD []).length

def isNumberChar (c : Char) : Bool := c.isDigit || c == '.' || c == 'e' || c == '+' || c == '-'

section Texts

variable {ds : List Char} {es : Option (List Char)}

theorem isNumberChar_of_isDigit {c : Char} (hc : c.isDigit = true) : isNumberChar c = true := by
  simp [isNumberChar, hc]

theorem isNumberChar_numberText (hds : ∀ c ∈ ds ++ es.getD [], c.isDigit = true) :
    ∀ c ∈ numberText ds es, isNumberChar c = true := by
  intro c hc
  cases es with
  | none => exact isNumberChar_of_isDigit (hds c (by simpa [numberText] using hc))
  | some es =>
    simp only [numberText, Option.elim_some, List.mem_append, List.mem_cons] at hc
    rcases hc with hc | rfl | hc
    · exact isNumberChar_of_isDigit (hds c (List.mem_append_left _ hc))
    · rfl
    · exact isNumberChar_of_isDigit (hds c (List.mem_append_right _ hc))

theorem readMantissa_numberText (hds : ∀ c ∈ ds ++ es.getD [], c.isDigit = true) (hne : ds ≠ []) :
    readMantissa 10 {} (numberText ds es) =
      (⟨digitsValue (ds ++ es.getD []), (es.getD []).length, es.isSome, true⟩, []) := by
  have hread (m : Mantissa) {cs : List Char} (hcs : ∀ c ∈ cs, c.isDigit = true) :=
    (congrArg (readMantissa 10 m) (List.append_nil cs)).symm.trans (readMantissa_digits hcs m [])
  have hsome : (!ds.isEmpty) = true := by simpa using hne
  obtain ⟨hwhole, hes⟩ := List.forall_mem_append.mp hds
  cases es with
  | none =>
    rw [numberText, Option.elim_none, List.append_nil, hread _ hwhole, hsome]
    simp [digitsValue, readMantissa]
  | some es =>
    have hes : ∀ c ∈ es, c.isDigit = true := hes
    rw [numberText, Option.elim_some, readMantissa_digits hwhole, readMantissa, if_neg (by decide),
      if_pos (by decide), if_neg Bool.false_ne_true, hread _ hes, hsome]
    simp [digitsValue, Nat.ofDigitChars_append, readMantissa]

theorem readChars_of_isNumberChar {c : Char} {cs : List Char} (hc : c.isDigit = true)
    (hcs : ∀ d ∈ c :: cs, isNumberChar d = true) :
    readChars (c :: cs) = (readDecimal (c :: cs)).map (ofBitsNat false) := by
  rw [readChars_of_digit hc]
  congr 1
  unfold readMagnitude
  split
  · rename_i x d rest heq
    have hx := hcs x (by rw [heq]; simp)
    have hne {y : Char} (hy : isNumberChar y = false) : (x == y) = false := by
      rw [beq_eq_false_iff_ne]
      rintro rfl
      rw [hx] at hy
      cases hy
    rw [hne (y := 'x') (by decide), hne (y := 'X') (by decide)]
    rfl
  · rfl

theorem readChars_numberText (hds : ∀ c ∈ ds ++ es.getD [], c.isDigit = true) (hne : ds ≠ []) :
    readChars (numberText ds es) =
      (scaled? 10 (digitsValue (ds ++ es.getD [])) (-(es.getD []).length)).map
      (ofBitsNat false) := by
  have hall := isNumberChar_numberText hds
  have hseparate : underscoresSeparate false .start (numberText ds es) = true :=
    underscoresSeparate_of_not_mem (fun hm => absurd (hall _ hm) (by decide)) (by decide) false
  have hread : readDecimal (numberText ds es) =
      scaled? 10 (digitsValue (ds ++ es.getD [])) (-(es.getD []).length) := by
    rw [readDecimal, readMantissa_numberText hds hne, hseparate]
    simp
  obtain ⟨d, ds, rfl⟩ := List.exists_cons_of_ne_nil hne
  rw [← hread]
  exact readChars_of_isNumberChar (hds d (by simp)) hall

end Texts

theorem scaled?_eq (v : Nat) (k : Int) : ∃ num den : Nat, 0 < den ∧ (num : ℚ) / den = v * 10 ^ k ∧
    scaled? 10 v k = if nearestBits num den < infinityBits then some
    (nearestBits num den) else none := by
  unfold scaled?
  rcases Nat.eq_zero_or_pos v with rfl | hv
  · refine ⟨0, 1, Nat.one_pos, by simp, ?_⟩
    rw [if_pos rfl]
    rfl
  · rw [if_neg hv.ne']
    split
    · rename_i hk
      obtain ⟨n, rfl⟩ := Int.eq_ofNat_of_zero_le hk
      refine ⟨v * 10 ^ n, 1, Nat.one_pos, ?_, rfl⟩
      rw [zpow_natCast]
      push_cast
      exact div_one _
    · obtain ⟨n, rfl⟩ : ∃ n : Nat, k = -(n : Int) := ⟨(-k).toNat, by omega⟩
      rw [neg_neg, Int.toNat_natCast]
      refine ⟨v, 10 ^ n, by positivity, ?_, rfl⟩
      rw [zpow_neg, zpow_natCast, ← div_eq_mul_inv]
      push_cast
      rfl

theorem scaled?_ne_none {v : Nat} {k : Int} (h : (v : ℚ) * 10 ^ k < overflowBound) :
    scaled? 10 v k ≠ none := by
  obtain ⟨num, den, hden, hvalue, hscaled⟩ := scaled?_eq v k
  rw [hscaled, if_pos (nearestBits_lt hden (hvalue ▸ h))]
  exact Option.some_ne_none _

theorem Written.isNumberChar {cs : List Char} (h : Written cs) :
    ∀ c ∈ cs, isNumberChar c = true := by
  obtain ⟨d, ds, hds, rfl | ⟨es, hes, rfl⟩⟩ := h
  · exact fun c hc => isNumberChar_of_isDigit (hds c hc)
  · exact @isNumberChar_numberText (d :: ds) (some es) (List.forall_mem_append.mpr ⟨hds, hes⟩)

theorem Digits.isNumberChar_exponential {d : Digits} (hd : ∀ c ∈ d.digits, c.isDigit = true) :
    ∀ c ∈ d.exponential, isNumberChar c = true := by
  have hpower : ∀ c ∈ Nat.toDigits 10 d.exponent.natAbs, isNumberChar c = true := fun c hc =>
    isNumberChar_of_isDigit (Nat.isDigit_of_mem_toDigits (b := 10) (by decide) (by decide) hc)
  have hd : ∀ c ∈ d.digits, isNumberChar c = true := fun c hc => isNumberChar_of_isDigit (hd c hc)
  unfold exponential
  refine List.forall_mem_append.mpr ⟨List.forall_mem_append.mpr
    ⟨fun c hc => hd c (List.mem_of_mem_take hc), ?_⟩,
    List.forall_mem_cons.mpr ⟨by decide, List.forall_mem_cons.mpr ⟨by split <;> decide, ?_⟩⟩⟩
  · split
    · exact List.forall_mem_nil _
    · exact List.forall_mem_cons.mpr ⟨by decide, fun c hc => hd c (List.mem_of_mem_drop hc)⟩
  · split
    · exact List.forall_mem_cons.mpr ⟨by decide, hpower⟩
    · exact hpower

theorem Unsigned.general_cases {x : Float} (hx : Unsigned x) :
    (∀ c ∈ (general x).toList, isNumberChar c = true) ∧
      (Written (general x).toList ∨ ∃ c ∈ (general x).toList, c = '-' ∨ c = '+') := by
  obtain ⟨m, e, hparts⟩ := hx
  have htext : (general x).toList = if m = 0 then ['0'] else (shortestDigits m e).general := by
    simp [general, textWith, hparts]
  have hwritten {cs : List Char} (h : Written cs) :
      (∀ c ∈ cs, isNumberChar c = true) ∧ (Written cs ∨ ∃ c ∈ cs, c = '-' ∨ c = '+') :=
    ⟨h.isNumberChar, .inl h⟩
  have hdigits := isDigit_shortestDigits m e
  rw [htext]
  split
  · exact hwritten ⟨'0', [], List.forall_mem_singleton.mpr (by decide), .inl rfl⟩
  · unfold Digits.general
    split
    · refine ⟨Digits.isNumberChar_exponential hdigits,
        .inr ⟨if (shortestDigits m e).exponent < 0 then '-' else '+', ?_, ?_⟩⟩
      · exact List.mem_append_right _ (List.mem_cons_of_mem _ List.mem_cons_self)
      · split <;> simp
    · exact hwritten (written_positional hdigits)

end RealScript.Decimal
