import Mathlib.Data.List.TakeWhile
import TimedPattern.Proofs.Rounding

/-!
# Numbers read back

The shortest numeral was only taken because it reads back, and all digits of a number always do.
-/

namespace TimedPattern.Decimal

/-! ## Digits -/

theorem isDigit_toDigits (n : Nat) : ∀ c ∈ Nat.toDigits 10 n, c.isDigit = true :=
  fun _ hc => Nat.isDigit_of_mem_toDigits (by omega) (by omega) hc

theorem isDigit_zeros (n : Nat) : ∀ c ∈ List.replicate n '0', c.isDigit = true := by
  intro c hc
  rw [(List.mem_replicate.1 hc).2]
  rfl

theorem toDigits_mul_pow {n : Nat} (hn : 0 < n) (k : Nat) :
    Nat.toDigits 10 (n * 10 ^ k) = Nat.toDigits 10 n ++ List.replicate k '0' := by
  induction k with
  | zero => rw [Nat.pow_zero, Nat.mul_one, List.replicate_zero, List.append_nil]
  | succ k ih =>
    have hpos : 0 < n * 10 ^ k := Nat.mul_pos hn (Nat.pow_pos (by omega))
    have hnext := Nat.toDigits_append_toDigits (b := 10) (d := 0) (by omega) hpos (by omega)
    rw [Nat.add_zero, Nat.mul_comm 10, Nat.mul_assoc, ← Nat.pow_succ, Nat.toDigits_zero] at hnext
    rw [← hnext, ih, List.append_assoc, List.replicate_succ']

namespace Numeral

theorem natural?_digits {text : List Char} (hne : text ≠ [])
    (hdigits : ∀ c ∈ text, c.isDigit = true) :
    natural? text = some (Nat.ofDigitChars 10 text 0) :=
  if_pos ⟨hne, List.all_eq_true.2 hdigits⟩

/-- A text in the form without an exponent, and the numeral that it spells. -/
inductive Spells : List Char → Numeral → Prop where
  | natural {digits : List Char} (ne_nil : digits ≠ [])
      (all_digits : ∀ c ∈ digits, c.isDigit = true) :
      Spells digits ⟨Nat.ofDigitChars 10 digits 0, 0⟩
  | point {whole part : List Char} (ne_nil : whole ≠ [])
      (whole_digits : ∀ c ∈ whole, c.isDigit = true) (part_digits : ∀ c ∈ part, c.isDigit = true) :
      Spells (whole ++ '.' :: part) ⟨Nat.ofDigitChars 10 (whole ++ part) 0, -(part.length : Int)⟩

namespace Spells

variable {text : List Char} {n : Numeral}

theorem ofChars? (h : Spells text n) : ofChars? text = some n := by
  cases h with
  | natural hne hdigits =>
    unfold Numeral.ofChars?
    rw [List.takeWhile_eq_self_iff.2 hdigits, List.dropWhile_eq_nil_iff.2 hdigits]
    simp only [fraction, List.append_nil, natural?_digits hne hdigits, exponent?]
    rfl
  | @point whole part hne hwhole hpart =>
    have hdigits := List.forall_mem_append.2 ⟨hwhole, hpart⟩
    unfold Numeral.ofChars?
    rw [List.takeWhile_append_of_pos hwhole, List.dropWhile_append_of_pos hwhole,
      List.takeWhile_cons_of_neg (by decide), List.dropWhile_cons_of_neg (by decide),
      List.append_nil]
    simp only [fraction, List.takeWhile_eq_self_iff.2 hpart, List.dropWhile_eq_nil_iff.2 hpart,
      natural?_digits (List.append_ne_nil_of_left_ne_nil hne part) hdigits, exponent?,
      Int.zero_sub]

theorem head (h : Spells text n) : ∃ c rest, text = c :: rest ∧ c.isDigit = true := by
  cases h with
  | natural hne hdigits =>
    obtain ⟨c, rest, rfl⟩ := List.exists_cons_of_ne_nil hne
    exact ⟨c, rest, rfl, hdigits c (List.mem_cons_self ..)⟩
  | point hne hwhole hpart =>
    obtain ⟨c, rest, rfl⟩ := List.exists_cons_of_ne_nil hne
    exact ⟨c, _, rfl, hwhole c (List.mem_cons_self ..)⟩

theorem chars (h : Spells text n) : ∀ c ∈ text, c.isDigit = true ∨ c = '.' := by
  intro c hc
  cases h with
  | natural hne hdigits => exact .inl (hdigits c hc)
  | point hne hwhole hpart =>
    rcases List.mem_append.1 hc with hc | hc
    · exact .inl (hwhole c hc)
    · rcases List.mem_cons.1 hc with rfl | hc
      · exact .inr rfl
      · exact .inl (hpart c hc)

end Spells

/-- The numeral as its text spells it: zeros behind the digits belong to them. -/
def whole (n : Numeral) : Numeral :=
  if 0 ≤ n.exponent then ⟨n.digits * 10 ^ n.exponent.toNat, 0⟩ else n

namespace Spells

variable {digits : List Char} {value : Nat}

theorem zeros_behind (hne : digits ≠ []) (hdigits : ∀ c ∈ digits, c.isDigit = true)
    (hvalue : Nat.ofDigitChars 10 digits 0 = value) (k : Nat) :
    Spells (digits ++ List.replicate k '0') ⟨value * 10 ^ k, 0⟩ := by
  have hspells := Spells.natural
    (List.append_ne_nil_of_left_ne_nil hne (List.replicate k '0'))
    (List.forall_mem_append.2 ⟨hdigits, isDigit_zeros _⟩)
  rw [Nat.ofDigitChars_append, Nat.ofDigitChars_replicate_zero, hvalue, Nat.mul_comm] at hspells
  exact hspells

theorem point_among {n : Nat} (hn : 0 < n) (hne : digits ≠ [])
    (hdigits : ∀ c ∈ digits, c.isDigit = true) (hvalue : Nat.ofDigitChars 10 digits 0 = value) :
    Spells (digits.take n ++ '.' :: digits.drop n) ⟨value, -((digits.length - n : Nat) : Int)⟩ := by
  have htake : digits.take n ≠ [] := by
    rw [ne_eq, List.take_eq_nil_iff]
    exact fun h => h.elim (by omega) hne
  have hdrop : ∀ c ∈ digits.drop n, c.isDigit = true :=
    fun c hc => hdigits c (List.mem_of_mem_drop hc)
  have hspells := Spells.point htake (fun c hc => hdigits c (List.mem_of_mem_take hc)) hdrop
  rw [List.take_append_drop, hvalue, List.length_drop] at hspells
  exact hspells

theorem zeros_before (hdigits : ∀ c ∈ digits, c.isDigit = true)
    (hvalue : Nat.ofDigitChars 10 digits 0 = value) (k : Nat) :
    Spells ('0' :: '.' :: (List.replicate k '0' ++ digits))
      ⟨value, -((k + digits.length : Nat) : Int)⟩ := by
  have hpart := List.forall_mem_append.2 ⟨isDigit_zeros k, hdigits⟩
  have hspells := Spells.point (List.cons_ne_nil '0' []) (isDigit_zeros 1) hpart
  have hzero : Nat.ofDigitChars 10 ['0'] 0 = 0 := rfl
  rw [Nat.ofDigitChars_append, Nat.ofDigitChars_append, hzero, Nat.ofDigitChars_replicate_zero,
    Nat.mul_zero, hvalue, List.length_append, List.length_replicate] at hspells
  exact hspells

end Spells

theorem spells_lay (n : Numeral) : Spells (Format.plain.lay n) n.whole := by
  have hdigits := isDigit_toDigits n.digits
  have hne : Nat.toDigits 10 n.digits ≠ [] := Nat.toDigits_ne_nil
  have hvalue : Nat.ofDigitChars 10 (Nat.toDigits 10 n.digits) 0 = n.digits :=
    Nat.ofDigitChars_ten_toDigits
  obtain ⟨value, exponent⟩ := n
  unfold Format.lay
  simp only [Format.plain, if_true]
  generalize Nat.toDigits 10 value = digits at hdigits hne hvalue
  unfold Format.layPositional whole
  dsimp only at hvalue ⊢
  split
  · rw [if_neg (by decide), List.append_nil]
    exact .zeros_behind hne hdigits hvalue _
  · rename_i hlt
    split
    · rename_i hpoint
      have hspells := Spells.point_among (n := ((digits.length : Int) + exponent).toNat) (by omega)
        hne hdigits hvalue
      rwa [show -((digits.length - ((digits.length : Int) + exponent).toNat : Nat) : Int) =
        exponent by omega] at hspells
    · rename_i hpoint
      have hspells := Spells.zeros_before hdigits hvalue (-((digits.length : Int) + exponent)).toNat
      rwa [show -(((-((digits.length : Int) + exponent)).toNat + digits.length : Nat) : Int) =
        exponent by omega] at hspells

/-! ## Magnitudes -/

theorem magnitude_whole {n : Nat} (hn : 0 < n) (k : Nat) :
    (Numeral.mk (n * 10 ^ k) 0).magnitude = (Numeral.mk n k).magnitude := by
  unfold magnitude
  dsimp only
  rw [toDigits_mul_pow hn, List.length_append, List.length_replicate]
  omega

theorem toFloat_whole (n : Numeral) : n.whole.toFloat = n.toFloat := by
  obtain ⟨digits, exponent⟩ := n
  unfold whole
  split
  · rename_i hle
    obtain ⟨k, rfl⟩ := Int.eq_ofNat_of_zero_le hle
    rcases Nat.eq_zero_or_pos digits with rfl | hpos
    · simp [toFloat]
    · have hscaled : digits * 10 ^ k ≠ 0 := Nat.ne_of_gt (Nat.mul_pos hpos (Nat.pow_pos (by omega)))
      have hlength := @Nat.length_toDigits_pos 10 digits
      unfold toFloat
      simp only [Int.toNat_natCast, magnitude_whole hpos, hscaled, Nat.ne_of_gt hpos, false_or]
      split
      · rfl
      · split
        · rfl
        · rename_i hhigh
          have hk : k ≤ 2048 := by
            unfold magnitude at hhigh
            dsimp only at hhigh
            omega
          have hzero := ofScientific_natCast hscaled (Nat.zero_le 2048)
          rw [Nat.pow_zero, Nat.mul_one] at hzero
          unfold Float.Model.ofScientific
          rw [ofScientific_natCast (Nat.ne_of_gt hpos) hk, ← hzero]
          rfl
  · rfl

theorem length_whole_le {m k : Nat} (hm : m < 2 ^ 53) (hk : k ≤ 971) :
    (Nat.toDigits 10 (m * 2 ^ k)).length ≤ 309 := by
  rw [Nat.length_toDigits_le_iff (by omega) (by omega)]
  calc m * 2 ^ k < 2 ^ 53 * 2 ^ k := Nat.mul_lt_mul_of_pos_right hm (Nat.two_pow_pos k)
    _ = 2 ^ (53 + k) := (Nat.pow_add 2 53 k).symm
    _ ≤ 2 ^ 1024 := Nat.pow_le_pow_right (by omega) (by omega)
    _ ≤ 10 ^ 309 := by decide +kernel

theorem length_fraction_le {m : Nat} (hm : m < 2 ^ 53) (k : Nat) :
    (Nat.toDigits 10 (m * 5 ^ k)).length ≤ 16 + k := by
  rw [Nat.length_toDigits_le_iff (by omega) (by omega)]
  calc m * 5 ^ k < 2 ^ 53 * 5 ^ k := Nat.mul_lt_mul_of_pos_right hm (Nat.pow_pos (by omega))
    _ ≤ 10 ^ 16 * 10 ^ k := Nat.mul_le_mul (by omega) (Nat.pow_le_pow_left (by omega) k)
    _ = 10 ^ (16 + k) := (Nat.pow_add 10 16 k).symm

theorem le_length_add {n k c : Nat} (hn : 5 ^ k ≤ n) (hc : 2 ^ k ≤ 10 ^ c) :
    k ≤ (Nat.toDigits 10 n).length + c := by
  refine Nat.le_of_not_lt fun hfew => ?_
  obtain ⟨j, rfl⟩ : ∃ j, k = c + j := ⟨k - c, by omega⟩
  have hsmall : n < 10 ^ j := (Nat.length_toDigits_le_iff (by omega) (by omega)).1 (by omega)
  -- With fewer digits, `5 ^ k` would be less than `10 ^ (k - c)`.
  have hpow : 10 ^ (c + j) < 10 ^ (c + j) := by
    calc 10 ^ (c + j) = 2 ^ (c + j) * 5 ^ (c + j) := by rw [← Nat.mul_pow]
      _ < 2 ^ (c + j) * 10 ^ j :=
          Nat.mul_lt_mul_of_pos_left (Nat.lt_of_le_of_lt hn hsmall) (Nat.two_pow_pos _)
      _ ≤ 10 ^ c * 10 ^ j := Nat.mul_le_mul_right _ hc
      _ = 10 ^ (c + j) := (Nat.pow_add 10 c j).symm
  exact Nat.lt_irrefl _ hpow

theorem le_length_fraction {m k : Nat} (hm : 0 < m) (hk : k ≤ 1074) :
    k ≤ (Nat.toDigits 10 (m * 5 ^ k)).length + 330 := by
  apply le_length_add (Nat.le_mul_of_pos_left _ hm)
  calc 2 ^ k ≤ 2 ^ 1074 := Nat.pow_le_pow_right (by omega) hk
    _ ≤ 10 ^ 330 := by decide +kernel

theorem magnitude_exact {m : Nat} {e : Int} (hm : 0 < m) (hhigh : m < 2 ^ 53) (hle : -1074 ≤ e)
    (he : e ≤ 971) : -330 ≤ (Binary.mk m e).exact.magnitude ∧
      (Binary.mk m e).exact.magnitude ≤ 310 := by
  unfold Binary.exact
  dsimp only
  split
  · rename_i hpos
    obtain ⟨k, rfl⟩ := Int.eq_ofNat_of_zero_le hpos
    have hlength := length_whole_le hhigh (by omega : k ≤ 971)
    show -330 ≤ ((Nat.toDigits 10 (m * 2 ^ k)).length : Int) + 0 ∧
      ((Nat.toDigits 10 (m * 2 ^ k)).length : Int) + 0 ≤ 310
    omega
  · rename_i hneg
    obtain ⟨k, rfl⟩ : ∃ k : Nat, e = -k := ⟨(-e).toNat, by omega⟩
    have hhigh := length_fraction_le hhigh k
    have hlow := le_length_fraction hm (by omega : k ≤ 1074)
    simp only [Int.neg_neg, Int.toNat_natCast]
    show -330 ≤ ((Nat.toDigits 10 (m * 5 ^ k)).length : Int) + -k ∧
      ((Nat.toDigits 10 (m * 5 ^ k)).length : Int) + -k ≤ 310
    omega

theorem toFloat_exact {x : Float} {m : Nat} {e : Int} {hm : 0 < m}
    (hx : datum x = .finite .positive m e hm) (hcanonical : Canonical m e) (hhigh : m < 2 ^ 53)
    (he : e ≤ 971) : (Binary.mk m e).exact.toFloat = x := by
  obtain ⟨hlow, hmagnitude⟩ := magnitude_exact hm hhigh hcanonical.le he
  have hdigits : (Binary.mk m e).exact.digits ≠ 0 := by
    unfold Binary.exact
    split
    · exact Nat.ne_of_gt (Nat.mul_pos hm (Nat.two_pow_pos _))
    · exact Nat.ne_of_gt (Nat.mul_pos hm (Nat.pow_pos (by omega)))
  unfold toFloat
  rw [if_neg (by omega), if_neg (by omega)]
  unfold Float.Model.ofScientific
  rw [ofScientific_exact hm hcanonical, ← hx, ofModel_pack_datum]

end Numeral

/-! ## Reading back -/

theorem beq_of_onGrid? {b : Binary} {x : Float} {k : Int} {n : Numeral}
    (h : b.onGrid? x k = some n) : (n.toFloat == x) = true := by
  unfold Binary.onGrid? at h
  dsimp only at h
  generalize (if (b.ratio k).1 / (b.ratio k).2 = 9 then (⟨1, k + 1⟩ : Numeral)
    else ⟨(b.ratio k).1 / (b.ratio k).2 + 1, k⟩) = above at h
  split at h
  · rename_i habove
    obtain rfl := Option.some.inj h
    exact habove.1
  · split at h
    · rename_i hbelow
      obtain rfl := Option.some.inj h
      exact hbelow
    · simp at h

theorem toFloat_shortest {x : Float} {m : Nat} {e : Int} {hm : 0 < m}
    (hbinary : Binary.ofFloat x = ⟨m, e⟩) (hx : datum x = .finite .positive m e hm)
    (hcanonical : Canonical m e) (hhigh : m < 2 ^ 53) (he : e ≤ 971) :
    (shortest x).toFloat = x := by
  unfold shortest
  dsimp only
  rw [hbinary]
  cases hsearch : (List.range 17).findSome? fun (n : Nat) =>
      (Binary.mk m e).onGrid? x ((Binary.mk m e).leading - n) with
  | none => exact Numeral.toFloat_exact hx hcanonical hhigh he
  | some n =>
    obtain ⟨k, -, hgrid⟩ := List.exists_of_findSome?_eq_some hsearch
    refine eq_of_beq (fun s => ?_) (beq_of_onGrid? hgrid)
    rw [hx]
    simp

theorem toLower_of_isDigit {c : Char} (h : c.isDigit = true) : c.toLower = c := by
  unfold Char.toLower
  rw [dif_neg]
  rintro ⟨hupper, -⟩
  simp only [Char.isDigit, Bool.and_eq_true, decide_eq_true_eq] at h
  exact absurd (UInt32.le_trans hupper h.2) (by decide)

theorem read?_of_spells {text : List Char} {n : Numeral} (h : Numeral.Spells text n) :
    read? text = some n.toFloat := by
  have hread := h.ofChars?
  obtain ⟨c, rest, rfl, hc⟩ := h.head
  -- A text that starts with a digit is no word.
  have hword : ∀ d word, d.isDigit = false → (c :: rest).map Char.toLower ≠ d :: word := by
    intro d word hd hmap
    rw [List.map_cons, List.cons.injEq, toLower_of_isDigit hc] at hmap
    rw [hmap.1, hd] at hc
    simp at hc
  have hmagnitude : readMagnitude? (c :: rest) = some n.toFloat := by
    unfold readMagnitude?
    dsimp only
    rw [if_neg, if_neg (hword _ _ (by decide)), hread]
    · rfl
    · rintro (hinf | hinf)
      · exact hword _ _ (by decide) hinf
      · exact hword _ _ (by decide) hinf
  unfold read?
  split
  · rename_i htext
    obtain ⟨rfl, -⟩ := List.cons.inj htext
    exact absurd hc (by decide)
  · rename_i htext
    obtain ⟨rfl, -⟩ := List.cons.inj htext
    exact absurd hc (by decide)
  · exact hmagnitude

/-- How a number that has no sign is written. -/
inductive Written (x : Float) : List Char → Prop where
  | word (h : x = infinity) : Written x ['i', 'n', 'f']
  | numeral {text : List Char} {n : Numeral} (spells : Numeral.Spells text n)
      (value : n.toFloat = x) : Written x text

theorem datum_infinity : datum infinity = .infinity .positive := rfl

theorem written_write {x : Float} (hx : x.isNaN = false) (hsign : negative x = false) :
    Written x (write .plain x) := by
  unfold write
  rw [hx, hsign]
  simp only [Bool.false_eq_true, if_false]
  rcases datum_cases hsign with h | h | h | ⟨m, e, hm, hbinary, hdatum, hcanonical, hhigh, he⟩
  · rw [(isNaN_iff x).2 h] at hx
    simp at hx
  · obtain rfl : x = infinity := datum_injective (h.trans datum_infinity.symm)
    exact .word rfl
  · obtain rfl : x = 0 := datum_injective (h.trans datum_zero.symm)
    exact .numeral (Numeral.spells_lay ⟨0, 0⟩) rfl
  · have hinf : x.isInf = false := by
      rw [Bool.eq_false_iff, ne_eq, isInf_iff, hdatum]
      simp
    have hzero : ¬ (x == 0) = true := by
      rw [beq_iff_compare, hdatum, datum_zero]
      simp [Float.Model.UnpackedFloat.compare]
    unfold writeMagnitude
    rw [hinf, if_neg Bool.false_ne_true, if_neg hzero]
    refine .numeral (Numeral.spells_lay (shortest x)) ?_
    rw [Numeral.toFloat_whole, toFloat_shortest hbinary hdatum hcanonical hhigh he]

theorem Written.read? {x : Float} {text : List Char} (h : Written x text) :
    read? text = some x := by
  cases h with
  | word h => rw [h]; rfl
  | numeral hspells hvalue => rw [read?_of_spells hspells, hvalue]

end TimedPattern.Decimal
