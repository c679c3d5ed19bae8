import TimedPattern.Proofs.FloatOrder

/-! # Rounding what is exact -/

open Float.Model Float.Model.UnpackedFloat

namespace TimedPattern

/-! ## Logarithms -/

theorem log2_mul_two_pow {m : Nat} (hm : m ≠ 0) (j : Nat) : (m * 2 ^ j).log2 = m.log2 + j := by
  induction j with
  | zero => rw [Nat.pow_zero, Nat.mul_one, Nat.add_zero]
  | succ j ih =>
    have hne : m * 2 ^ j ≠ 0 := Nat.mul_ne_zero hm <| Nat.ne_of_gt (Nat.two_pow_pos j)
    rw [Nat.pow_succ, ← Nat.mul_assoc, Nat.mul_comm _ 2, Nat.log2_two_mul hne, ih, Nat.add_assoc]

theorem log2_mul_le {m n : Nat} (hm : m ≠ 0) (hn : n ≠ 0) :
    (m * n).log2 ≤ m.log2 + n.log2 + 1 := by
  apply Nat.le_of_lt_succ
  rw [Nat.log2_lt (Nat.mul_ne_zero hm hn)]
  calc m * n < 2 ^ (m.log2 + 1) * 2 ^ (n.log2 + 1) :=
        Nat.mul_lt_mul'' Nat.lt_log2_self Nat.lt_log2_self
    _ = 2 ^ (m.log2 + n.log2 + 1 + 1) := by
        rw [← Nat.pow_add]
        congr 1
        omega

/-! ## Shifting zeros out -/

theorem totalExponent_shift {m : Nat} (hm : 0 < m) (e : Int) (j : Nat) :
    totalExponent (m * 2 ^ j) (e - j) = totalExponent m e := by
  unfold totalExponent
  rw [log2_mul_two_pow (by omega)]
  omega

theorem repeat_shiftRightOne (m j : Nat) :
    j.repeat ExtendedMantissa.shiftRightOne ⟨m * 2 ^ j, false, false⟩ = ⟨m, false, false⟩ := by
  induction j generalizing m with
  | zero => simp [Nat.repeat]
  | succ j ih =>
    rw [Nat.repeat, Nat.pow_succ, Nat.mul_comm (2 ^ j) 2, ← Nat.mul_assoc, ih]
    simp [ExtendedMantissa.shiftRightOne]

/-- The exponent is the one that the format has for a number of this size. -/
def Canonical (m : Nat) (e : Int) : Prop :=
  Format.binary64.targetExponent (totalExponent m e) = e

theorem shiftToTargetExponent_exact {m : Nat} {e : Int} (hm : 0 < m) (he : Canonical m e)
    (j : Nat) : shiftToTargetExponent .binary64 (m * 2 ^ j) (e - j) .exact =
      (⟨m, false, false⟩, e) := by
  unfold shiftToTargetExponent shiftToExponent
  dsimp only
  rw [totalExponent_shift hm, he, show e - (e - (j : Int)) = j by omega, Int.toNat_natCast,
    show e - (j : Int) + j = e by omega]
  exact congrArg (·, e) (repeat_shiftRightOne m j)

theorem roundWithAccuracy_exact {m : Nat} {e : Int} (hm : 0 < m) (he : Canonical m e) (s : Sign)
    (j : Nat) : roundWithAccuracy .binary64 s (m * 2 ^ j) (e - j) .exact = .finite s m e hm := by
  have hagain := shiftToTargetExponent_exact hm he 0
  rw [Nat.pow_zero, Nat.mul_one, Int.natCast_zero, Int.sub_zero] at hagain
  unfold roundWithAccuracy
  rw [shiftToTargetExponent_exact hm he j]
  simp only [ExtendedMantissa.roundedMantissa, ExtendedMantissa.accuracy,
    Accuracy.roundToNearestEven, hagain]
  rw [dif_neg (by omega)]

/-! ## Floats without a sign -/

theorem canonical_normal {m : Nat} (e : Int) (hm : m.log2 = 52) (he : -1074 ≤ e) :
    Canonical m e := by
  unfold Canonical Format.targetExponent totalExponent
  rw [hm, show Format.binary64.mantissaBits = 53 from rfl,
    show Format.binary64.minExponent = -1074 from rfl]
  omega

theorem canonical_subnormal {m : Nat} (hm : m.log2 < 52) : Canonical m (-1074) := by
  unfold Canonical Format.targetExponent totalExponent
  rw [show Format.binary64.mantissaBits = 53 from rfl,
    show Format.binary64.minExponent = -1074 from rfl]
  omega

theorem ofFloat_eq (b : BitVec Format.binary64.numBits) (hb : Format.binary64.Valid b) :
    Decimal.Binary.ofFloat ⟨⟨⟨b⟩, hb⟩⟩ =
      if (@unpackExponent .binary64 b).toNat = 0 then ⟨(@unpackMantissa .binary64 b).toNat, -1074⟩
      else ⟨Decimal.Binary.hidden + (@unpackMantissa .binary64 b).toNat,
        ((@unpackExponent .binary64 b).toNat : Int) - 1075⟩ := by
  rw [FloatBits.toNat_unpackMantissa b, FloatBits.toNat_unpackExponent b]
  rfl

/-- What a float without a sign bit stands for. If it is finite and not zero, that is its mantissa
and its exponent. -/
theorem datum_cases {x : Float} (h : Decimal.negative x = false) :
    datum x = .notANumber ∨ datum x = .infinity .positive ∨ datum x = .zero .positive ∨
      ∃ m e hm, Decimal.Binary.ofFloat x = ⟨m, e⟩ ∧ datum x = .finite .positive m e hm ∧
        Canonical m e ∧ m < 2 ^ 53 ∧ e ≤ 971 := by
  obtain ⟨⟨⟨b⟩, hb⟩⟩ := x
  have hlt : b.toNat < 0x8000000000000000 := Nat.lt_of_not_le (of_decide_eq_false h)
  have hfraction := (@unpackMantissa .binary64 b).isLt
  rw [ofFloat_eq b hb]
  show UnpackedFloat.unpack .binary64 b = _ ∨ UnpackedFloat.unpack .binary64 b = _ ∨
    UnpackedFloat.unpack .binary64 b = _ ∨ ∃ m e hm, _ ∧ UnpackedFloat.unpack .binary64 b = _ ∧ _
  unfold UnpackedFloat.unpack
  rw [FloatBits.unpackSign_of_lt hlt]
  dsimp only
  split
  · split
    · exact .inr (.inl rfl)
    · exact .inl rfl
  -- The mantissa of a subnormal number is its fraction, and others have one more bit in front.
  · rename_i hnotall
    split
    · rename_i hzero
      split
      · exact .inr (.inr (.inl rfl))
      · rename_i hm
        right; right; right
        have hlog := FloatBits.log2_subnormal hm
        refine ⟨_, _, ?_, if_pos (by rw [hzero]; rfl), ?_, canonical_subnormal hlog, ?_, by omega⟩
        · exact Nat.pos_of_ne_zero fun h => hm (BitVec.eq_of_toNat_eq h)
        · rw [hzero]
          rfl
        · exact Nat.lt_trans hfraction (by decide)
    · rename_i hnotzero
      right; right; right
      have hlog := FloatBits.log2_normal (@unpackMantissa .binary64 b)
      have hall := FloatBits.toNat_exponent_lt hnotall
      have hpos : (@unpackExponent .binary64 b).toNat ≠ 0 :=
        fun h => hnotzero (BitVec.eq_of_toNat_eq h)
      refine ⟨_, _, ?_, if_neg hpos, ?_, canonical_normal _ hlog (by omega), ?_, by omega⟩
      · exact Nat.add_pos_left (by decide) _
      · simp only [FloatBits.toNat_one_append]
        rfl
      · exact Nat.lt_of_lt_of_le (Nat.add_lt_add_left hfraction _) (by decide)

/-! ## The numeral with all digits -/

theorem Canonical.le {m : Nat} {e : Int} (h : Canonical m e) : -1074 ≤ e := by
  unfold Canonical Format.targetExponent at h
  rw [show Format.binary64.minExponent = -1074 from rfl] at h
  omega

theorem targetExponent_le {m : Nat} {k : Nat} (hm : 0 < m) (he : Canonical m (-k)) :
    Format.binary64.targetExponent (totalExponent (m * 5 ^ k) 0 - totalExponent (10 ^ k) 0) ≤
      -k := by
  have hfive : 5 ^ k ≠ 0 := Nat.ne_of_gt (Nat.pow_pos (by omega))
  have hten : 10 ^ k ≠ 0 := Nat.ne_of_gt (Nat.pow_pos (by omega))
  have hshift : (m * 5 ^ k).log2 + k = (m * 10 ^ k).log2 := by
    rw [← log2_mul_two_pow (Nat.mul_ne_zero (by omega) hfive), Nat.mul_assoc, ← Nat.mul_pow]
  have hprod := log2_mul_le (Nat.ne_of_gt hm) hten
  unfold Canonical at he
  unfold Format.targetExponent totalExponent at he ⊢
  omega

theorem ofScientific_natCast {n k : Nat} (hn : n ≠ 0) (hk : k ≤ 2048) :
    UnpackedFloat.ofScientific .binary64 n k =
      roundWithAccuracy .binary64 .positive (n * 10 ^ k * 2 ^ 53) (-53) .exact := by
  have hlow : ¬ (k : Int) < -((2 ^ 11 : Int) + (n.log2 : Int)) := by omega
  unfold UnpackedFloat.ofScientific
  rw [dif_neg hn, if_neg (by show ¬ (k : Int) > 2 ^ 11; omega), if_neg hlow,
    if_pos (Int.natCast_nonneg k)]
  show roundWithAccuracy .binary64 .positive (n <<< 53 * 10 ^ k) (-53) .exact = _
  rw [Nat.shiftLeft_eq, Nat.mul_right_comm]

theorem ofScientific_neg {n k : Nat} (hn : n ≠ 0) (hpos : 0 < k) (hk : k ≤ 2048) :
    UnpackedFloat.ofScientific .binary64 n (-k) =
      roundWithAccuracy .binary64 .positive (divCore .binary64 n 0 (10 ^ k) 0).1
        (divCore .binary64 n 0 (10 ^ k) 0).2.1 (divCore .binary64 n 0 (10 ^ k) 0).2.2 := by
  have hlow : ¬ -(k : Int) < -((2 ^ 11 : Int) + (n.log2 : Int)) := by omega
  unfold UnpackedFloat.ofScientific
  rw [dif_neg hn, if_neg (by show ¬ -(k : Int) > 2 ^ 11; omega), if_neg hlow, if_neg (by omega)]
  show roundWithAccuracy .binary64 .positive (divCore .binary64 n 0 (10 ^ (- -(k : Int)).toNat) 0).1
    (divCore .binary64 n 0 (10 ^ (- -(k : Int)).toNat) 0).2.1
    (divCore .binary64 n 0 (10 ^ (- -(k : Int)).toNat) 0).2.2 = _
  rw [Int.neg_neg, Int.toNat_natCast]

theorem divCore_exact {m k : Nat} (hm : 0 < m) (he : Canonical m (-k)) :
    ∃ j : Nat, divCore .binary64 (m * 5 ^ k) 0 (10 ^ k) 0 =
      (m * 2 ^ j, -(k : Int) - j, .exact) := by
  have htarget := targetExponent_le hm he
  have hten : 0 < 10 ^ k := Nat.pow_pos (by omega)
  unfold divCore
  dsimp only
  generalize Format.binary64.targetExponent (totalExponent (m * 5 ^ k) 0 - totalExponent (10 ^ k) 0)
    = target at htarget
  obtain ⟨j, hj⟩ : ∃ j : Nat, target = -(k : Int) - j := ⟨(-(k : Int) - target).toNat, by omega⟩
  have hshift : (0 - 0 - min (0 - 0) target).toNat = k + j := by omega
  have hwhole : (m * 5 ^ k) <<< (k + j) = m * 2 ^ j * 10 ^ k := by
    rw [Nat.shiftLeft_eq, Nat.pow_add, show 10 = 5 * 2 from rfl, Nat.mul_pow]
    simp only [Nat.mul_assoc, Nat.mul_left_comm, Nat.mul_comm]
  refine ⟨j, ?_⟩
  rw [hshift, hwhole, Nat.mul_div_cancel _ hten, Nat.mul_mod_left, Int.min_eq_right (by omega), hj]
  rfl

theorem ofScientific_exact {m : Nat} {e : Int} (hm : 0 < m) (he : Canonical m e) :
    UnpackedFloat.ofScientific .binary64 (Decimal.Binary.mk m e).exact.digits
      (Decimal.Binary.mk m e).exact.exponent = .finite .positive m e hm := by
  unfold Decimal.Binary.exact
  dsimp only
  split
  · rename_i hle
    have hround := roundWithAccuracy_exact hm he .positive (e.toNat + 53)
    rw [show e - ((e.toNat + 53 : Nat) : Int) = -53 by omega, Nat.pow_add, ← Nat.mul_assoc]
      at hround
    rw [← hround, ← Nat.mul_one (m * 2 ^ e.toNat), ← Nat.pow_zero 10]
    exact ofScientific_natCast (Nat.mul_ne_zero (by omega) (Nat.ne_of_gt (Nat.two_pow_pos _)))
      (Nat.zero_le _)
  · rename_i hlt
    obtain ⟨k, rfl⟩ : ∃ k : Nat, e = -k := ⟨(-e).toNat, by omega⟩
    have hfive : m * 5 ^ k ≠ 0 := Nat.mul_ne_zero (by omega) (Nat.ne_of_gt (Nat.pow_pos (by omega)))
    have hle := he.le
    obtain ⟨j, hdiv⟩ := divCore_exact hm he
    rw [Int.neg_neg, Int.toNat_natCast]
    refine (ofScientific_neg hfive (by omega) (by omega)).trans ?_
    rw [hdiv]
    exact roundWithAccuracy_exact hm he .positive j

end TimedPattern
