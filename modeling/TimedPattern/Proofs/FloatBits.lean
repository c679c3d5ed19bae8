import Mathlib
import TimedPattern.Decimal.Shortest

/-!
# The bits of floats

What the bits of a float stand for, its `datum`, determines them.
-/

open Float.Model Float.Model.UnpackedFloat

namespace TimedPattern

/-- What the bits of a float stand for. -/
def datum (x : Float) : UnpackedFloat := x.toModel.unpack

namespace FloatBits

/-! ## The three fields -/

variable {b : BitVec Format.binary64.numBits}

theorem toNat_unpackMantissa (b : BitVec Format.binary64.numBits) :
    (unpackMantissa b).toNat = b.toNat % Decimal.Binary.hidden := by
  simp [unpackMantissa, BitVec.extractLsb, Decimal.Binary.hidden]

theorem toNat_unpackExponent (b : BitVec Format.binary64.numBits) :
    (unpackExponent b).toNat = b.toNat / Decimal.Binary.hidden % 0x800 := by
  simp [unpackExponent, BitVec.extractLsb, Decimal.Binary.hidden, Nat.shiftRight_eq_div_pow]

theorem unpackSign_of_lt (h : b.toNat < 0x8000000000000000) : unpackSign b = 0#1 := by
  apply BitVec.eq_of_toNat_eq
  simp [unpackSign, BitVec.extractLsb, Nat.shiftRight_eq_div_pow]
  omega

theorem unpackSign_of_le (h : 0x8000000000000000 ≤ b.toNat) : unpackSign b = 1#1 := by
  have hlt : b.toNat < 0x10000000000000000 := b.isLt
  apply BitVec.eq_of_toNat_eq
  simp [unpackSign, BitVec.extractLsb, Nat.shiftRight_eq_div_pow]
  omega

theorem toNat_one_append (m : BitVec 52) : (1#1 ++ m).toNat = Decimal.Binary.hidden + m.toNat := by
  rw [BitVec.toNat_append, ← Nat.shiftLeft_add_eq_or_of_lt m.isLt]
  rfl

/-! ## Mantissas and exponents -/

theorem log2_normal (m : BitVec 52) : (Decimal.Binary.hidden + m.toNat).log2 = 52 := by
  have hm := m.isLt
  have hne : Decimal.Binary.hidden + m.toNat ≠ 0 := by unfold Decimal.Binary.hidden; omega
  have hlow : 52 ≤ (Decimal.Binary.hidden + m.toNat).log2 := by
    rw [Nat.le_log2 hne]
    exact Nat.le_add_right _ _
  have hhigh : (Decimal.Binary.hidden + m.toNat).log2 < 53 := by
    rw [Nat.log2_lt hne]
    unfold Decimal.Binary.hidden
    omega
  omega

theorem log2_subnormal {m : BitVec 52} (hm : m ≠ 0#52) : m.toNat.log2 < 52 := by
  have hne : m.toNat ≠ 0 := fun h => hm (BitVec.eq_of_toNat_eq h)
  rw [Nat.log2_lt hne]
  exact m.isLt

theorem toNat_exponent_lt {e : BitVec 11} (he : e ≠ -1#11) : e.toNat < 0x7ff := by
  have hlt := e.isLt
  have hne : e.toNat ≠ 0x7ff := fun h => he (BitVec.eq_of_toNat_eq (by rw [h]; rfl))
  omega

end FloatBits

/-! ## What bits stand for -/

theorem datum_injective {x y : Float} (h : datum x = datum y) : x = y := by
  obtain ⟨⟨b, hb⟩⟩ := x
  obtain ⟨⟨c, hc⟩⟩ := y
  obtain rfl := UInt64.toBitVec_inj.1 ((unpack_inj_of_valid hb hc).1 h)
  rfl

theorem ofModel_pack_datum (x : Float) : Float.ofModel (Float.Model.pack (datum x)) = x := by
  obtain ⟨⟨b, hb⟩⟩ := x
  unfold datum Float.Model.unpack Float.Model.pack
  simp only [pack_unpack_of_valid hb]

theorem datum_pack (u : UnpackedFloat) : datum (Float.ofModel (Float.Model.pack u)) =
    UnpackedFloat.unpack .binary64 (UnpackedFloat.pack .binary64 u) := by
  unfold datum Float.Model.unpack Float.Model.pack
  rfl

/-! ## NaN -/

theorem isNaN_iff (x : Float) : x.isNaN = true ↔ datum x = .notANumber :=
  UnpackedFloat.isNaN_iff

theorem isInf_iff (x : Float) : x.isInf = true ↔ ∃ s, datum x = .infinity s := by
  show (datum x).isInf = true ↔ _
  cases datum x <;> simp [UnpackedFloat.isInf]

theorem unpack_packComponents_ne_notANumber {s : Sign} {e : BitVec 11} {m : BitVec 52}
    (h : e ≠ -1#11 ∨ m = 0#52) :
    UnpackedFloat.unpack .binary64 (packComponents .binary64 s e m) ≠ .notANumber := by
  unfold UnpackedFloat.unpack
  simp only [unpackMantissa_packComponents, unpackExponent_packComponents]
  split
  · rename_i he
    rw [if_pos (h.resolve_left (fun hne => hne he))]
    simp
  · split
    · split <;> simp
    · simp

theorem unpack_pack_ne_notANumber {u : UnpackedFloat} (hu : u ≠ .notANumber) :
    UnpackedFloat.unpack .binary64 (UnpackedFloat.pack .binary64 u) ≠ .notANumber := by
  cases u with
  | notANumber => exact absurd rfl hu
  | infinity s => exact unpack_packComponents_ne_notANumber (.inr rfl)
  | zero s => exact unpack_packComponents_ne_notANumber (.inr rfl)
  | finite s m e hm =>
    unfold UnpackedFloat.pack
    dsimp only
    split
    · exact unpack_packComponents_ne_notANumber (.inr rfl)
    · rename_i hsmall
      have hsmall : ¬ 2048 ≤ (e + Format.binary64.exponentBias + (52 : Nat)).toNat + 1 := hsmall
      split
      · apply unpack_packComponents_ne_notANumber
        left
        intro h
        have h := congrArg BitVec.toNat h
        rw [BitVec.toNat_ofNat, show (-1#11 : BitVec 11).toNat = 2047 from rfl] at h
        omega
      · apply unpack_packComponents_ne_notANumber
        left
        decide

theorem isNaN_pack {u : UnpackedFloat} (hu : u ≠ .notANumber) :
    (Float.ofModel (Float.Model.pack u)).isNaN = false := by
  rw [Bool.eq_false_iff, ne_eq, isNaN_iff, datum_pack]
  exact unpack_pack_ne_notANumber hu

end TimedPattern
