import RealScript.Proofs.Token.Spelling

/-! # Numbers in a source

A number is written with digits and at most one point, so it is read as a float that is finite and
not negative. What is written of such a float is scanned as one number.
-/

namespace RealScript

theorem splitNumber_digits {ds : List Char} (hds : ∀ c ∈ ds, c.isDigit = true) (seenPoint : Bool)
    (rest : List Char) : splitNumber seenPoint (ds ++ rest) =
      (ds ++ (splitNumber seenPoint rest).1, (splitNumber seenPoint rest).2) := by
  induction ds with
  | nil => rfl
  | cons c ds ih =>
    rw [List.cons_append, splitNumber, if_pos (hds c List.mem_cons_self),
      ih fun d hd => hds d (List.mem_cons_of_mem c hd)]
    rfl

namespace Decimal

def Unsigned (x : Float) : Prop := ∃ m e, parts x = .finite false m e

section Bits

open Float.Model Float.Model.UnpackedFloat

theorem toNat_packComponents (e : BitVec 11) (m : BitVec 52) :
    (packComponents Format.binary64 .positive e m).toNat = e.toNat * 2 ^ 52 + m.toNat := by
  have hsign : Sign.positive.toBitVec.toNat = 0 := rfl
  rw [packComponents, BitVec.toNat_append, BitVec.toNat_append,
    ← Nat.shiftLeft_add_eq_or_of_lt m.isLt,
    ← Nat.shiftLeft_add_eq_or_of_lt e.isLt, Nat.shiftLeft_eq, Nat.shiftLeft_eq, hsign]
  show (0 * 2 ^ 11 + _) * 2 ^ 52 + _ = _
  omega

theorem toNat_pack_subnormal {m : Nat} (hm : 0 < m) (hlt : m < 2 ^ 52) :
    (UnpackedFloat.pack Format.binary64 (.finite .positive m (-1074) hm)).toNat = m := by
  have hlog : m.log2 < 52 := (Nat.log2_lt (by omega)).mpr hlt
  have hbits : ¬ m.log2 + 1 = Format.binary64.mantissaBits := by
    change ¬ _ = 1 + 52
    omega
  have hpack : UnpackedFloat.pack Format.binary64 (.finite .positive m (-1074) hm) =
      packComponents Format.binary64 .positive 0#11 (BitVec.ofNat 52 m) := by
    unfold UnpackedFloat.pack
    rw [if_neg (by decide), if_neg hbits]
  rw [hpack, toNat_packComponents, BitVec.toNat_ofNat, BitVec.toNat_ofNat]
  omega

theorem toNat_pack_normal {m e : Nat} (hm : 0 < m) (hle : 2 ^ 52 ≤ m) (hlt : m < 2 ^ 53)
    (he : e < 2047) :
    (UnpackedFloat.pack Format.binary64 (.finite .positive m ((e : Int) - 1075) hm)).toNat =
      e * 2 ^ 52 + (m - 2 ^ 52) := by
  have hlog : m.log2 + 1 = 1 + 52 := by
    have hupper : m.log2 < 53 := (Nat.log2_lt (by omega)).mpr hlt
    have hlower : 52 ≤ m.log2 := (Nat.le_log2 (by omega)).mpr hle
    omega
  have hbiased : ((e : Int) - 1075 + (1023 : Nat) + (52 : Nat)).toNat = e := by omega
  have hsmall : ¬ 2 ^ 11 ≤ ((e : Int) - 1075 + (1023 : Nat) + (52 : Nat)).toNat + 1 := by omega
  have hpack : UnpackedFloat.pack Format.binary64 (.finite .positive m ((e : Int) - 1075) hm) =
      packComponents Format.binary64 .positive
        (BitVec.ofNat 11 ((e : Int) - 1075 + (1023 : Nat) + (52 : Nat)).toNat)
          (BitVec.ofNat 52 m) :=
    (if_neg hsmall).trans (if_pos hlog)
  rw [hpack, toNat_packComponents, BitVec.toNat_ofNat, BitVec.toNat_ofNat, hbiased]
  omega

theorem toBits_ofBits {b : UInt64} (h : b.toNat < infinityBits) : (Float.ofBits b).toBits = b := by
  have h : b.toNat < 0x7FF * 2 ^ 52 := h
  have hmantissa : (@unpackMantissa Format.binary64 b.toBitVec).toNat = b.toNat % 2 ^ 52 := by
    simp [unpackMantissa]
  have hexponent : (@unpackExponent Format.binary64 b.toBitVec).toNat =
      b.toNat / 2 ^ 52 % 2 ^ 11 := by
    simp [unpackExponent, Nat.shiftRight_eq_div_pow]
  have hsign : (@unpackSign Format.binary64 b.toBitVec).toNat = b.toNat / 2 ^ 63 % 2 := by
    simp [unpackSign, Nat.shiftRight_eq_div_pow]
  have hpositive : Sign.ofBitVec (@unpackSign Format.binary64 b.toBitVec) = .positive := by
    rw [Sign.ofBitVec, if_pos]
    apply BitVec.eq_of_toNat_eq
    rw [hsign]
    show _ = 0
    omega
  have hfinite : @unpackExponent Format.binary64 b.toBitVec ≠ -1#11 := by
    intro heq
    rw [heq, show (-1#11).toNat = 2047 from rfl] at hexponent
    omega
  apply UInt64.toNat_inj.mp
  change (UnpackedFloat.pack Format.binary64
    (UnpackedFloat.unpack Format.binary64 b.toBitVec)).toNat = _
  unfold UnpackedFloat.unpack
  simp only [hpositive]
  rw [if_neg hfinite]
  split
  · rename_i hzero
    rw [hzero, show (0#11).toNat = 0 from rfl] at hexponent
    have hb : b.toNat < 2 ^ 52 := by omega
    split
    · rename_i hm
      rw [hm, show (0#52).toNat = 0 from rfl] at hmantissa
      change (packComponents Format.binary64 .positive 0#11 0#52).toNat = _
      rw [toNat_packComponents]
      have hnone : b.toNat = 0 := by omega
      rw [hnone]
      rfl
    · rename_i hm
      have hpos : 0 < (@unpackMantissa Format.binary64 b.toBitVec).toNat :=
        Nat.pos_of_ne_zero fun hz => hm (BitVec.eq_of_toNat_eq hz)
      rw [hzero]
      exact (toNat_pack_subnormal hpos (BitVec.isLt _)).trans (by omega)
  · have happ : (1#1 ++ @unpackMantissa Format.binary64 b.toBitVec).toNat =
        2 ^ 52 + b.toNat % 2 ^ 52 := by
      rw [BitVec.toNat_append, ← Nat.shiftLeft_add_eq_or_of_lt (BitVec.isLt _),
        Nat.shiftLeft_eq, hmantissa]
      change 1 * 2 ^ 52 + _ = _
      omega
    refine (toNat_pack_normal (e := (@unpackExponent Format.binary64 b.toBitVec).toNat)
      (by omega) (by omega) (by omega) (by omega)).trans ?_
    omega

theorem unsigned_ofBitsNat {bits : Nat} (h : bits < infinityBits) :
    Unsigned (ofBitsNat false bits) := by
  have h : bits < 0x7FF * 2 ^ 52 := h
  have hbits : (bits.toUInt64).toNat = bits := by
    rw [Nat.toUInt64, UInt64.toNat_ofNat']
    omega
  have hback : (ofBitsNat false bits).toBits.toNat = bits := by
    rw [ofBitsNat, if_neg Bool.false_ne_true, toBits_ofBits (by rw [hbits]; exact h), hbits]
  have hsign : decide (signBit ≤ bits) = false := by
    apply decide_eq_false
    rw [signBit, Nat.pow_eq]
    omega
  have hbiased : ¬ bits / Nat.pow 2 52 % 2048 = 2047 := by
    rw [Nat.pow_eq]
    omega
  unfold Unsigned
  rw [parts, hback, partsOfBits, hsign, if_neg hbiased]
  split
  · exact ⟨_, _, rfl⟩
  · exact ⟨_, _, rfl⟩

end Bits

theorem lt_of_scaled? {base m bits : Nat} {e : Int} (h : scaled? base m e = some bits) :
    bits < infinityBits := by
  unfold scaled? at h
  extract_lets found at h
  split at h
  · obtain rfl := Option.some.inj h
    assumption
  · cases h

theorem lt_of_readMagnitude {cs : List Char} {bits : Nat} (h : readMagnitude cs = some bits) :
    bits < infinityBits := by
  have hdecimal {cs : List Char} (h : readDecimal cs = some bits) : bits < infinityBits := by
    unfold readDecimal at h
    repeat' split at h
    all_goals first | exact lt_of_scaled? h | cases h
  unfold readMagnitude at h
  split at h
  · split at h
    · unfold readHexadecimal at h
      repeat' split at h
      all_goals first | exact lt_of_scaled? h | cases h
    · exact hdecimal h
  · exact hdecimal h

theorem readChars_of_digit {c : Char} (hc : c.isDigit = true) (cs : List Char) :
    readChars (c :: cs) = (readMagnitude (c :: cs)).map (ofBitsNat false) := by
  have hlower : c.toLower = c := by
    rw [isDigit_iff] at hc
    have hupper : ¬ (c.val ≥ 'A'.val ∧ c.val ≤ 'Z'.val) := by
      simp only [ge_iff_le, UInt32.le_iff_toNat_le]
      change ¬ (65 ≤ c.toNat ∧ _)
      omega
    rw [Char.toLower, dif_neg hupper]
  have hne {d : Char} (hd : d.isDigit = false) : c ≠ d := by
    rintro rfl
    rw [hc] at hd
    cases hd
  have hword (d : Char) (ds : List Char) (hd : d.isDigit = false) :
    (lowered (c :: cs) == d :: ds) = false := by
    rw [lowered, List.map_cons, hlower, beq_eq_false_iff_ne]
    exact fun heq => hne hd (List.cons.inj heq).1
  have hinfinity : isInfinity (c :: cs) = false := by
    rw [isInfinity, Bool.or_eq_false_iff]
    exact ⟨hword 'i' _ (by decide), hword 'i' _ (by decide)⟩
  have hnan : (lowered (c :: cs) == "nan".toList) = false := hword 'n' _ (by decide)
  unfold readChars
  split
  · rename_i heq
    exact absurd (List.cons.inj heq).1 (hne (by decide))
  · rename_i heq
    exact absurd (List.cons.inj heq).1 (hne (by decide))
  · simp only [hnan, hinfinity, Bool.false_eq_true, if_false]

theorem unsigned_of_numeral {x : Float} (h : Numeral x) : Unsigned x := by
  obtain ⟨c, cs, hc, hread⟩ := h
  have hsplit : ∃ ds, (splitNumber false (c :: cs)).1 = c :: ds := by
    rw [splitNumber, if_pos hc]
    exact ⟨_, rfl⟩
  obtain ⟨ds, hds⟩ := hsplit
  rw [read?, String.toList_ofList, hds, readChars_of_digit hc] at hread
  obtain ⟨bits, hbits, rfl⟩ := Option.map_eq_some_iff.mp hread
  exact unsigned_ofBitsNat (lt_of_readMagnitude hbits)

def ReadsBack (x : Float) : Prop := read? (positional x) = some x

instance (x : Float) : Decidable (ReadsBack x) := inferInstanceAs (Decidable (read? _ = some x))

/-- Digits, of which there is at least one, with at most one point behind the first. -/
def Written (cs : List Char) : Prop := ∃ d ds, (∀ c ∈ d :: ds, c.isDigit = true) ∧
    (cs = d :: ds ∨ ∃ es, (∀ c ∈ es, c.isDigit = true) ∧ cs = d :: (ds ++ '.' :: es))

theorem Written.split {cs : List Char} (h : Written cs) :
    ∃ c ds, cs = c :: ds ∧ c.isDigit = true ∧ splitNumber false (c :: ds) = (c :: ds, []) := by
  obtain ⟨d, ds, hds, rfl | ⟨es, hes, rfl⟩⟩ := h
  · refine ⟨d, ds, rfl, hds d List.mem_cons_self, ?_⟩
    have h := splitNumber_digits hds false []
    simpa [splitNumber] using h
  · refine ⟨d, _, rfl, hds d List.mem_cons_self, ?_⟩
    have h := splitNumber_digits hds false ('.' :: es)
    have hpoint : splitNumber true es = (es, []) := by
      simpa [splitNumber] using splitNumber_digits hes true []
    rw [List.cons_append] at h
    rw [h, splitNumber, if_neg (by decide), if_pos (by decide), hpoint]
    rfl

theorem isDigit_zeros (n : Nat) : ∀ c ∈ zeros n, c.isDigit = true := by
  intro c hc
  rw [List.eq_of_mem_replicate hc]
  decide

theorem written_positional {d : Digits} (hd : ∀ c ∈ d.digits, c.isDigit = true) :
    Written d.positional := by
  unfold Digits.positional
  split
  · refine ⟨'0', [], List.forall_mem_singleton.mpr (by decide),
      .inr ⟨zeros (-d.exponent - 1).toNat ++ d.digits, ?_, rfl⟩⟩
    exact List.forall_mem_append.mpr ⟨isDigit_zeros _, hd⟩
  · dsimp only
    split
    · rename_i hlen
      have hall : ∀ c ∈ d.digits ++ zeros (d.exponent.toNat + 1 - d.digits.length),
        c.isDigit = true :=
        List.forall_mem_append.mpr ⟨hd, isDigit_zeros _⟩
      cases hcs : d.digits ++ zeros (d.exponent.toNat + 1 - d.digits.length) with
      | nil =>
        have := congrArg List.length hcs
        simp only [zeros, List.length_append, List.length_replicate, List.length_nil] at this
        omega
      | cons c cs => exact ⟨c, cs, hcs ▸ hall, .inl rfl⟩
    · cases hcs : d.digits.take (d.exponent.toNat + 1) with
      | nil =>
        have := congrArg List.length hcs
        simp only [List.length_take, List.length_nil] at this
        omega
      | cons c cs =>
        refine ⟨c, cs, fun x hx => hd x (List.mem_of_mem_take (hcs ▸ hx)), .inr ⟨_, ?_, rfl⟩⟩
        exact fun x hx => hd x (List.mem_of_mem_drop hx)

theorem isDigit_shortestDigits (m : Nat) (e : Int) :
    ∀ c ∈ (shortestDigits m e).digits, c.isDigit = true := by
  have hofNat (n : Nat) (unit : Int) : ∀ c ∈ (Digits.ofNat n unit).digits, c.isDigit = true := by
    intro c hc
    have hc := List.mem_reverse.mp hc
    have hc := List.mem_reverse.mp ((List.dropWhile_suffix _).subset hc)
    exact Nat.isDigit_of_mem_toDigits (b := 10) (by decide) (by decide) hc
  unfold shortestDigits
  dsimp only
  cases hfound : List.findSome? _ (List.range' 1 17) with
  | none => nofun
  | some d =>
    obtain ⟨n, -, hn⟩ := List.exists_of_findSome?_eq_some hfound
    obtain ⟨k, -, rfl⟩ := Option.map_eq_some_iff.mp hn
    exact hofNat _ _

theorem Unsigned.written {x : Float} (hx : Unsigned x) : Written (positional x).toList := by
  obtain ⟨m, e, hparts⟩ := hx
  have htext : (positional x).toList = if m = 0 then ['0'] else
    (shortestDigits m e).positional := by
    simp [positional, textWith, hparts]
  rw [htext]
  split
  · exact ⟨'0', [], List.forall_mem_singleton.mpr (by decide), .inl rfl⟩
  · exact written_positional (isDigit_shortestDigits m e)

theorem ReadsBack.spelled {x : Float} (h : ReadsBack x) (hx : Unsigned x) :
    (Lexeme.number (positional x) x).Spelled := by
  obtain ⟨c, ds, hcs, hc, hsplit⟩ := hx.written.split
  exact ⟨h, c, ds, hcs, hc, hsplit⟩

theorem ReadsBack.numeral {x : Float} (h : ReadsBack x) (hx : Unsigned x) : Numeral x := by
  obtain ⟨c, ds, hcs, hc, hsplit⟩ := hx.written.split
  refine ⟨c, ds, hc, ?_⟩
  rw [hsplit, ← hcs, String.ofList_toList]
  exact h

end Decimal

end RealScript
