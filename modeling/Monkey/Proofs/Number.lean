import Mathlib
import Monkey.Number.Float
import Monkey.Number.Integer
import Monkey.Program.Render
import Monkey.Proofs.Decimal.Notation

/-! # Literals of numbers read back

A number that a literal can denote is never negative, and its canonical literal denotes it again.
-/

namespace Monkey.Number

open Float.Model (Format)
open Float.Model.UnpackedFloat (Sign pack unpack packComponents unpackSign unpackExponent
  unpackMantissa)

/-! ## Bit patterns -/

/-- The format of doubles. -/
abbrev double : Format := .binary64

/-- A bit pattern is put together from its fields. -/
theorem packComponents_fields {b : BitVec double.numBits} {e : BitVec double.exponentBits}
    {m : BitVec double.mantissaBitsWithoutImplicit} (he : unpackExponent b = e)
    (hm : unpackMantissa b = m) :
    packComponents double (Sign.ofBitVec (unpackSign b)) e m = b := by
  have hsign : (Sign.ofBitVec (unpackSign b)).toBitVec = unpackSign b := by
    unfold Sign.ofBitVec
    split
    next hzero => exact hzero.symm
    next hone => exact ((unpackSign b).eq_zero_or_eq_one.resolve_left hone).symm
  subst he hm
  unfold packComponents
  rw [hsign]
  change b.extractLsb' 63 1 ++ b.extractLsb' 52 11 ++ b.extractLsb' 0 52 = b
  rw [BitVec.extractLsb'_append_extractLsb'_eq_extractLsb' (show 63 = 52 + 11 from rfl),
    BitVec.extractLsb'_append_extractLsb'_eq_extractLsb' (show 52 = 0 + 52 from rfl)]
  exact BitVec.extractLsb'_eq_self

theorem pack_subnormal (s : Sign) (m : BitVec double.mantissaBitsWithoutImplicit)
    (hm : 0 < m.toNat) (e : Int) (he : e + double.exponentBias + 52 = 1) :
    pack double (.finite s m.toNat e hm) = packComponents double s 0 m := by
  have hlog : m.toNat.log2 < 52 := (Nat.log2_lt (Nat.ne_of_gt hm)).mpr m.isLt
  have hlarge : m.toNat.log2 + 1 ≠ double.mantissaBits := by
    change m.toNat.log2 + 1 ≠ 53
    omega
  have hbiased : (e + double.exponentBias + double.mantissaBitsWithoutImplicit).toNat = 1 := by
    change (e + double.exponentBias + 52).toNat = 1
    rw [he]
    rfl
  unfold pack
  dsimp only
  rw [hbiased, if_neg (by decide), if_neg hlarge, BitVec.ofNat_toNat, BitVec.setWidth_eq]
  rfl

theorem toNat_one_append (m : BitVec double.mantissaBitsWithoutImplicit) :
    (1#1 ++ m).toNat = 2 ^ 52 + m.toNat := by
  have hm : m.toNat < 2 ^ 52 := m.isLt
  rw [BitVec.toNat_append, ← Nat.shiftLeft_add_eq_or_of_lt hm, Nat.shiftLeft_eq]
  simp

theorem pack_normal (s : Sign) (e : BitVec double.exponentBits) (he : e ≠ -1#_)
    (m : BitVec double.mantissaBitsWithoutImplicit) (h : 0 < (1#1 ++ m).toNat) :
    pack double (.finite s (1#1 ++ m).toNat
      (e.toNat - (double.exponentBias + double.mantissaBitsWithoutImplicit)) h) =
      packComponents double s e m := by
  have hm : m.toNat < 2 ^ 52 := m.isLt
  have hlog : (1#1 ++ m).toNat.log2 + 1 = double.mantissaBits := by
    have heq : (1#1 ++ m).toNat.log2 = 52 := by
      rw [Nat.log2_eq_iff (Nat.ne_of_gt h), toNat_one_append]
      omega
    rw [heq]
    rfl
  have hfits : ¬ 2 ^ double.exponentBits ≤ e.toNat + 1 := by
    have hlt : e.toNat < 2 ^ 11 := e.isLt
    have hne : e.toNat ≠ 2047 := fun heq => he (BitVec.eq_of_toNat_eq heq)
    change ¬ 2 ^ 11 ≤ e.toNat + 1
    omega
  have hbiased : ((e.toNat : Int) - (double.exponentBias + double.mantissaBitsWithoutImplicit) +
      double.exponentBias + double.mantissaBitsWithoutImplicit).toNat = e.toNat := by
    omega
  have hmantissa : BitVec.ofNat double.mantissaBitsWithoutImplicit (1#1 ++ m).toNat = m := by
    apply BitVec.eq_of_toNat_eq
    rw [toNat_one_append, BitVec.toNat_ofNat]
    change (2 ^ 52 + m.toNat) % 2 ^ 52 = m.toNat
    omega
  unfold pack
  dsimp only
  rw [hbiased, if_neg hfits, if_pos hlog, hmantissa, BitVec.ofNat_toNat, BitVec.setWidth_eq]

/-- Unpacking a pattern loses nothing, unless it is one of the other patterns for no number. -/
theorem pack_unpack {b : BitVec double.numBits} (hb : double.Valid b) :
    pack double (unpack double b) = b := by
  unfold unpack
  dsimp only
  split_ifs with hexponent hmantissa hzero hmantissa
  · exact packComponents_fields hexponent hmantissa
  · exact (hb.eq_packedNaN hexponent hmantissa).symm
  · exact packComponents_fields hzero hmantissa
  · rw [pack_subnormal]
    · exact packComponents_fields hzero rfl
    · rw [hzero]
      decide
  · rw [pack_normal _ _ hexponent]
    exact packComponents_fields rfl rfl

/-- A double is its bit pattern. -/
theorem ofBits_toBits (x : Float) : Float.ofBits x.toBits = x := by
  obtain ⟨⟨bits, hvalid⟩⟩ := x
  change Float.ofModel (.pack (unpack double bits.toBitVec)) = Float.ofModel ⟨bits, hvalid⟩
  congr 1
  simp only [Float.Model.pack, pack_unpack hvalid]

/-- A pattern of a finite magnitude or of infinity is the pattern of its double. -/
theorem toBits_ofBits {bits : UInt64} (hbits : bits.toNat ≤ Decimal.infinityWord) :
    (Float.ofBits bits).toBits = bits := by
  have hvalid : double.Valid bits.toBitVec := by
    refine ⟨fun hexponent hmantissa => absurd ?_ hmantissa⟩
    have hfield : bits.toNat / 2 ^ 52 % 2 ^ 11 = 2047 := by
      rw [← Nat.shiftRight_eq_div_pow]
      exact congrArg BitVec.toNat hexponent
    apply BitVec.eq_of_toNat_eq
    change bits.toNat >>> 0 % 2 ^ 52 = 0
    rw [Nat.shiftRight_zero]
    simp only [Decimal.infinityWord] at hbits
    omega
  change UInt64.ofBitVec (pack double (unpack double bits.toBitVec)) = bits
  rw [pack_unpack hvalid]

/-! ## Words -/

theorem infinityWord_lt : Decimal.infinityWord < 2 ^ 63 := by decide

theorem toBits_ofWord {w : Nat} (hw : w ≤ Decimal.infinityWord) :
    (ofWord false w).toBits.toNat = w := by
  have hlt := infinityWord_lt
  have hsize : w < UInt64.size := by
    unfold UInt64.size
    omega
  have htoNat : (UInt64.ofNat w).toNat = w := UInt64.toNat_ofNat_of_lt hsize
  have hbits : (UInt64.ofNat (0 + w)).toNat ≤ Decimal.infinityWord := by
    rw [Nat.zero_add, htoNat]
    exact hw
  change (Float.ofBits (UInt64.ofNat (0 + w))).toBits.toNat = w
  rw [toBits_ofBits hbits, Nat.zero_add, htoNat]

theorem isNegative_ofWord {w : Nat} (hw : w ≤ Decimal.infinityWord) :
    isNegative (ofWord false w) = false := by
  have hlt := infinityWord_lt
  unfold isNegative
  rw [toBits_ofWord hw, decide_eq_false_iff_not]
  omega

/-- A double that is not negative is determined by its word. -/
theorem ofWord_word {x : Float} (hx : isNegative x = false) : ofWord false (word x) = x := by
  have hlt : x.toBits.toNat < 2 ^ 63 := by simpa [isNegative] using hx
  change Float.ofBits (UInt64.ofNat (0 + x.toBits.toNat % 2 ^ 63)) = x
  rw [Nat.mod_eq_of_lt hlt, Nat.zero_add, UInt64.ofNat_toNat, ofBits_toBits]

theorem nearestWord_le (d : Decimal) : d.nearestWord ≤ Decimal.infinityWord := by
  unfold Decimal.nearestWord
  dsimp only
  split_ifs
  · exact Nat.zero_le _
  · exact Nat.le_refl _
  · exact Nat.zero_le _
  · exact Nat.min_le_right _ _

/-! ## Floating-point literals -/

theorem toLower_of_isDigit {c : Char} (hc : c.isDigit = true) : c.toLower = c := by
  have hle := Text.toNat_le_of_isDigit hc
  unfold Char.toLower
  rw [dif_neg]
  intro hupper
  have hge : 65 ≤ c.toNat := UInt32.le_iff_toNat_le.mp hupper.1
  omega

/-- A magnitude that starts with a digit is none of the words for special values. -/
theorem readWord?_cons_digit {c : Char} (hc : c.isDigit = true) (cs : List Char) :
    readWord? (c :: cs) = (Decimal.read? (c :: cs)).map Decimal.nearestWord := by
  have hne : ∀ text : String, text.toList.head? ≠ some c →
      String.ofList ((c :: cs).map Char.toLower) ≠ text := by
    rintro text hhead rfl
    simp [toLower_of_isDigit hc] at hhead
  have hletter : ∀ d : Char, d.isDigit = false → some d ≠ some c := by
    rintro d hd heq
    cases heq
    simp [hc] at hd
  unfold readWord?
  split
  next htext => exact absurd htext (hne _ (hletter 'i' (by decide)))
  next htext => exact absurd htext (hne _ (hletter 'i' (by decide)))
  next htext => exact absurd htext (hne _ (hletter 'n' (by decide)))
  next => rfl

/-- A literal with a point denotes the nearest double, which is not negative. -/
theorem readFloat?_pointed {cs whole fraction : List Char} (h : Decimal.Pointed cs whole fraction) :
    readFloat? (String.ofList cs) = some (ofWord false
      (Decimal.nearestWord ⟨Decimal.digitsValue (whole ++ fraction), -fraction.length⟩)) := by
  have hread := h.read?_eq
  obtain ⟨c, rest, hcs, hc⟩ : ∃ c rest, cs = c :: rest ∧ c.isDigit = true := by
    obtain ⟨c, rest, hwhole⟩ := List.exists_cons_of_ne_nil h.whole_ne_nil
    refine ⟨c, rest ++ '.' :: fraction, ?_, h.isDigit_whole c (by simp [hwhole])⟩
    rw [h.eq, hwhole, List.cons_append]
  have hminus : c ≠ '-' := by
    rintro rfl
    simp at hc
  have hplus : c ≠ '+' := by
    rintro rfl
    simp at hc
  unfold readFloat?
  rw [String.toList_ofList, hcs]
  split
  next heq => exact absurd (List.cons.inj heq).1 hminus
  next heq => exact absurd (List.cons.inj heq).1 hplus
  next => rw [readWord?_cons_digit hc, ← hcs, hread, Option.map_some, Option.map_some]

/-- The canonical literal of a finite double that is not negative has a point between digits. -/
theorem exists_pointed_floatLiteral {x : Float} (hx : isNegative x = false)
    (hfinite : isFinite x = true) : ∃ whole fraction,
      Decimal.Pointed (floatLiteral x).toList whole fraction ∧
        Decimal.nearestWord ⟨Decimal.digitsValue (whole ++ fraction), -fraction.length⟩ =
          word x := by
  have hword : word x < Decimal.infinityWord := of_decide_eq_true hfinite
  have htext : floatText x = String.ofList (Decimal.shortest (word x)).positional := by
    unfold floatText
    rw [if_neg (Nat.lt_asymm hword)]
    simp [hfinite, hx]
  have hliteral : (floatLiteral x).toList =
      Decimal.withPoint (Decimal.shortest (word x)).positional := by
    unfold floatLiteral Decimal.withPoint
    rw [htext]
    dsimp only
    rw [String.toList_ofList]
    split
    · exact String.toList_ofList
    · rw [String.toList_append, String.toList_ofList]
      rfl
  obtain ⟨whole, fraction, hpointed, hnearest⟩ :=
    Decimal.exists_pointed_positional (Decimal.shortest (word x))
  refine ⟨whole, fraction, ?_, ?_⟩
  · rw [hliteral]
    exact hpointed
  · rw [hnearest, Decimal.nearestWord_shortest hword]

/-- The canonical literal of a finite double that is not negative denotes that double. -/
theorem readFloat?_floatLiteral {x : Float} (hx : isNegative x = false)
    (hfinite : isFinite x = true) : readFloat? (floatLiteral x) = some x := by
  obtain ⟨whole, fraction, hpointed, hword⟩ := exists_pointed_floatLiteral hx hfinite
  have hread := readFloat?_pointed hpointed
  rw [String.ofList_toList, hword, ofWord_word hx] at hread
  exact hread

/-- A literal with a point denotes no negative double. -/
theorem isNegative_of_readFloat? {cs whole fraction : List Char} {x : Float}
    (h : Decimal.Pointed cs whole fraction) (hread : readFloat? (String.ofList cs) = some x) :
    isNegative x = false := by
  rw [readFloat?_pointed h, Option.some.injEq] at hread
  subst hread
  exact isNegative_ofWord (nearestWord_le _)

/-- Only infinities and patterns for no number have the largest exponent field. -/
theorem unpackExponent_ne {x : Float} (hfinite : isFinite x = true) :
    @unpackExponent double x.toBits.toBitVec ≠ -1#_ := by
  intro hexponent
  have hword : x.toBits.toNat % 2 ^ 63 < Decimal.infinityWord := of_decide_eq_true hfinite
  have hfield : x.toBits.toNat / 2 ^ 52 % 2 ^ 11 = 2047 := by
    rw [← Nat.shiftRight_eq_div_pow]
    exact congrArg BitVec.toNat hexponent
  simp only [Decimal.infinityWord] at hword
  omega

/-- A finite double equals itself. -/
theorem beq_self_of_isFinite {x : Float} (hfinite : isFinite x = true) : (x == x) = true := by
  have hexponent := unpackExponent_ne hfinite
  change (Float.Model.UnpackedFloat.compare (unpack double x.toBits.toBitVec)
    (unpack double x.toBits.toBitVec) == some .eq) = true
  rw [beq_iff_eq]
  unfold unpack
  dsimp only
  rw [if_neg hexponent]
  split_ifs
  · rfl
  · cases Sign.ofBitVec (@unpackSign double x.toBits.toBitVec) with
    | negative => simp [Float.Model.UnpackedFloat.compare]
    | positive => simp [Float.Model.UnpackedFloat.compare]
  · cases Sign.ofBitVec (@unpackSign double x.toBits.toBitVec) with
    | negative => simp [Float.Model.UnpackedFloat.compare]
    | positive => simp [Float.Model.UnpackedFloat.compare]

/-! ## Integer literals -/

theorem readSigned?_digits {cs : List Char} (hne : cs ≠ []) (hcs : ∀ c ∈ cs, c.isDigit = true) :
    Decimal.readSigned? cs = some (Decimal.digitsValue cs : Int) := by
  obtain ⟨c, rest, rfl⟩ := List.exists_cons_of_ne_nil hne
  have hall : (c :: rest).all Char.isDigit = true := List.all_eq_true.mpr hcs
  have hminus : c ≠ '-' := by
    rintro rfl
    exact absurd (hcs '-' (by simp)) (by decide)
  have hplus : c ≠ '+' := by
    rintro rfl
    exact absurd (hcs '+' (by simp)) (by decide)
  simp [Decimal.readSigned?, hminus, hplus, hall]

/-- The notation of an integer that is not negative is made of digits. -/
theorem toList_integerText {n : Int64} (hn : 0 ≤ n.toInt) :
    (integerText n).toList = Nat.toDigits 10 n.toInt.toNat := by
  unfold integerText
  obtain ⟨k, hk⟩ := Int.eq_ofNat_of_zero_le hn
  rw [hk]
  exact Nat.toList_repr

/-- The notation of an integer that is not negative denotes that integer. -/
theorem readInteger?_integerText {n : Int64} (hn : 0 ≤ n.toInt) :
    readInteger? (integerText n) = some n := by
  have hlt : n.toInt < 2 ^ 63 := n.toInt_lt
  unfold readInteger?
  rw [toList_integerText hn, readSigned?_digits Nat.toDigits_ne_nil
    fun c hc => Decimal.isDigit_of_mem_toDigits hc, Decimal.digitsValue_toDigits,
    Int.toNat_of_nonneg hn, Option.bind_eq_bind, Option.bind_some]
  unfold integer?
  rw [if_pos ⟨by omega, hlt⟩, Int64.ofInt_toInt]

/-- Digits denote no negative integer. -/
theorem toInt_nonneg_of_readInteger? {cs : List Char} {n : Int64} (hne : cs ≠ [])
    (hcs : ∀ c ∈ cs, c.isDigit = true) (hread : readInteger? (String.ofList cs) = some n) :
    0 ≤ n.toInt := by
  unfold readInteger? at hread
  rw [String.toList_ofList, readSigned?_digits hne hcs, Option.bind_eq_bind, Option.bind_some,
    integer?] at hread
  split_ifs at hread with hrange
  cases hread
  rw [Int64.toInt_ofInt_of_le hrange.1 hrange.2]
  omega

end Monkey.Number
