import Mathlib.Data.Prod.Lex
import TimedPattern.Proofs.FloatBits
import TimedPattern.Range

/-!
# The order of floats

Only NaN compares with nothing, so comparisons of other floats can be chained.
-/

open Float.Model Float.Model.UnpackedFloat

namespace TimedPattern

theorem lt_iff_compare (x y : Float) : x < y ↔ (datum x).compare (datum y) = some .lt := by
  show decide ((datum x).lt (datum y) = true) = true ↔ _
  rw [decide_eq_true_iff, UnpackedFloat.lt, beq_iff_eq]

theorem le_iff_compare (x y : Float) :
    x ≤ y ↔ ∃ o, (datum x).compare (datum y) = some o ∧ o.isLE = true := by
  show decide ((datum x).le (datum y) = true) = true ↔ _
  rw [decide_eq_true_iff, UnpackedFloat.le, Option.any_eq_true]

theorem beq_iff_compare (x y : Float) :
    (x == y) = true ↔ (datum x).compare (datum y) = some .eq := by
  show (datum x).beq (datum y) = true ↔ _
  rw [UnpackedFloat.beq, beq_iff_eq]

/-! ## Comparing -/

theorem compare_eq_none {u v : UnpackedFloat} (h : u.compare v = none) :
    u = .notANumber ∨ v = .notANumber := by
  revert h
  fun_cases UnpackedFloat.compare u v
  all_goals simp

theorem then_swap (e f : Int) (m n : Nat) :
    (compare f e).then (compare n m) = ((compare e f).then (compare m n)).swap := by
  rw [Ordering.swap_then, Int.compare_swap, Nat.compare_swap]

theorem compare_swap (u v : UnpackedFloat) : v.compare u = (u.compare v).map Ordering.swap := by
  cases u with
  | notANumber => cases v <;> rfl
  | infinity s =>
    cases v with
    | notANumber => rfl
    | infinity t => cases s <;> cases t <;> rfl
    | zero t => cases s <;> rfl
    | finite t n f hn => cases s <;> rfl
  | zero s =>
    cases v with
    | notANumber => rfl
    | infinity t => cases t <;> rfl
    | zero t => rfl
    | finite t n f hn => cases t <;> rfl
  | finite s m e hm =>
    cases v with
    | notANumber => rfl
    | infinity t => cases t <;> rfl
    | zero t => cases s <;> rfl
    | finite t n f hn =>
      cases s <;> cases t
      · exact congrArg (fun o => some o.swap) (then_swap e f m n)
      · rfl
      · rfl
      · exact congrArg some (then_swap e f m n)

theorem eq_of_compare {u v : UnpackedFloat} (hv : ∀ s, v ≠ .zero s)
    (h : u.compare v = some .eq) : u = v := by
  have hbeq : u.beq v = true := by
    rw [UnpackedFloat.beq, h, beq_self_eq_true]
  obtain ⟨-, -, heq | ⟨-, hzero⟩ | ⟨-, hzero⟩⟩ := (beq_iff_ne_notANumber_and_eq u v).1 hbeq
  · exact heq
  · exact absurd hzero (hv _)
  · exact absurd hzero (hv _)

theorem eq_of_beq {x y : Float} (hx : ∀ s, datum x ≠ .zero s) (h : (y == x) = true) : y = x :=
  datum_injective (eq_of_compare hx ((beq_iff_compare y x).1 h))

theorem compare_notANumber (u : UnpackedFloat) : u.compare .notANumber = none := by
  cases u <;> rfl

theorem notANumber_compare (u : UnpackedFloat) : UnpackedFloat.compare .notANumber u = none := by
  cases u <;> rfl

theorem isNaN_of_le {x y : Float} (h : x ≤ y) : x.isNaN = false ∧ y.isNaN = false := by
  obtain ⟨o, ho, -⟩ := (le_iff_compare x y).1 h
  constructor
  · rw [Bool.eq_false_iff, ne_eq, isNaN_iff]
    intro hx
    rw [hx, notANumber_compare] at ho
    simp at ho
  · rw [Bool.eq_false_iff, ne_eq, isNaN_iff]
    intro hy
    rw [hy, compare_notANumber] at ho
    simp at ho

theorem beq_self {x : Float} (hx : x.isNaN = false) : (x == x) = true := by
  rw [Bool.eq_false_iff, ne_eq, isNaN_iff] at hx
  exact (beq_iff_ne_notANumber_and_eq _ _).2 ⟨hx, hx, .inl rfl⟩

theorem le_self {x : Float} (hx : x.isNaN = false) : x ≤ x :=
  (le_iff_compare x x).2 ⟨.eq, (beq_iff_compare x x).1 (beq_self hx), rfl⟩

theorem le_of_not_lt {x y : Float} (hx : x.isNaN = false) (hy : y.isNaN = false)
    (h : ¬ x < y) : y ≤ x := by
  rw [Bool.eq_false_iff, ne_eq, isNaN_iff] at hx hy
  rw [lt_iff_compare] at h
  rw [le_iff_compare, compare_swap]
  cases ho : (datum x).compare (datum y) with
  | none => exact absurd (compare_eq_none ho) (by simp [hx, hy])
  | some o =>
    rw [ho] at h
    refine ⟨o.swap, rfl, ?_⟩
    cases o
    · exact absurd rfl h
    · rfl
    · rfl

theorem not_le_of_lt {x y : Float} (h : x < y) : ¬ y ≤ x := by
  rw [lt_iff_compare] at h
  rw [le_iff_compare, compare_swap, h]
  rintro ⟨o, ho, hle⟩
  obtain rfl := Option.some.inj ho
  simp at hle

theorem beq_of_le_of_le {x y : Float} (h : x ≤ y) (h' : y ≤ x) : (x == y) = true := by
  obtain ⟨o, ho, hle⟩ := (le_iff_compare x y).1 h
  obtain ⟨o', ho', hle'⟩ := (le_iff_compare y x).1 h'
  rw [compare_swap, ho] at ho'
  obtain rfl := Option.some.inj ho'
  rw [beq_iff_compare, ho]
  cases o with
  | lt => cases hle'
  | eq => rfl
  | gt => cases hle

/-! ## Chains of comparisons -/

/-- Where a number lies among all: on which side of zero, then by exponent and mantissa. -/
def rung : UnpackedFloat → ℤ ×ₗ ℤ ×ₗ ℤ
  | .infinity .negative => toLex (-2, toLex (0, 0))
  | .finite .negative m e _ => toLex (-1, toLex (-e, -m))
  | .zero _ | .notANumber => toLex (0, toLex (0, 0))
  | .finite .positive m e _ => toLex (1, toLex (e, m))
  | .infinity .positive => toLex (2, toLex (0, 0))

theorem compares_rung {u v : UnpackedFloat} {o : Ordering} (h : u.compare v = some o) :
    o.Compares (rung u) (rung v) := by
  rcases u with (_ | _) | _ | _ | ⟨(_ | _), m, e, hm⟩ <;>
    rcases v with (_ | _) | _ | _ | ⟨(_ | _), n, f, hn⟩ <;>
    cases o <;>
    simp_all [UnpackedFloat.compare, rung, Ordering.Compares, Prod.Lex.toLex_lt_toLex,
      Ordering.swap_then, Ordering.then_eq_lt, Ordering.then_eq_eq, Ordering.then_eq_gt,
      Nat.compare_eq_lt, Nat.compare_eq_gt, Int.compare_eq_lt, Int.compare_eq_gt]
  all_goals omega

theorem rung_le_of_le {x y : Float} (h : x ≤ y) : rung (datum x) ≤ rung (datum y) := by
  obtain ⟨o, ho, hle⟩ := (le_iff_compare x y).1 h
  have hcompares := compares_rung ho
  cases o with
  | lt => exact le_of_lt hcompares
  | eq => exact le_of_eq hcompares
  | gt => simp at hle

theorem le_of_lt_of_le {x y z : Float} (hxy : x < y) (hyz : y ≤ z) : x ≤ z := by
  have hle : x ≤ y := (le_iff_compare x y).2 ⟨.lt, (lt_iff_compare x y).1 hxy, rfl⟩
  refine le_of_not_lt (isNaN_of_le hyz).2 (isNaN_of_le hle).1 fun hzx => ?_
  have hback : rung (datum z) < rung (datum x) := compares_rung ((lt_iff_compare z x).1 hzx)
  exact absurd ((rung_le_of_le hle).trans (rung_le_of_le hyz)) (not_le_of_gt hback)

/-! ## The two zeros -/

theorem datum_of_negative {x : Float} (h : Decimal.negative x = true) :
    datum x = .notANumber ∨ datum x = .infinity .negative ∨ datum x = .zero .negative ∨
      ∃ m e hm, datum x = .finite .negative m e hm := by
  obtain ⟨⟨⟨b⟩, hb⟩⟩ := x
  have hle : 0x8000000000000000 ≤ b.toNat := of_decide_eq_true h
  show UnpackedFloat.unpack .binary64 b = _ ∨ UnpackedFloat.unpack .binary64 b = _ ∨
    UnpackedFloat.unpack .binary64 b = _ ∨ ∃ m e hm, UnpackedFloat.unpack .binary64 b = _
  unfold UnpackedFloat.unpack
  rw [FloatBits.unpackSign_of_le hle]
  dsimp only
  split
  · split
    · exact .inr (.inl rfl)
    · exact .inl rfl
  · split
    · split
      · exact .inr (.inr (.inl rfl))
      · rename_i hm
        refine .inr (.inr (.inr ⟨_, _, ?_, rfl⟩))
        exact Nat.pos_of_ne_zero fun h => hm (BitVec.eq_of_toNat_eq h)
    · refine .inr (.inr (.inr ⟨_, _, ?_, rfl⟩))
      rw [FloatBits.toNat_one_append]
      exact Nat.add_pos_left (by decide) _

theorem datum_zero : datum 0 = .zero .positive := rfl

theorem datum_neg_zero : datum (-0) = .zero .negative := rfl

theorem eq_neg_zero {x : Float} (hle : 0 ≤ x) (hsign : Decimal.negative x = true) : x = -0 := by
  obtain ⟨o, ho, hle⟩ := (le_iff_compare 0 x).1 hle
  rw [datum_zero] at ho
  apply datum_injective
  rw [datum_neg_zero]
  rcases datum_of_negative hsign with h | h | h | ⟨m, e, hm, h⟩
  · rw [h] at ho
    cases ho
  · rw [h] at ho
    cases ho
    cases hle
  · exact h
  · rw [h] at ho
    cases ho
    cases hle

/-! ## Counts -/

theorem roundWithAccuracy_ne_notANumber (f : Format) (s : Sign) (m : Nat) (e : Int)
    (a : Accuracy) : roundWithAccuracy f s m e a ≠ .notANumber := by
  unfold roundWithAccuracy
  dsimp only
  split <;> simp

theorem ofNat_ne_notANumber (f : Format) (n : Nat) : UnpackedFloat.ofNat f n ≠ .notANumber := by
  unfold UnpackedFloat.ofNat UnpackedFloat.ofInt UnpackedFloat.normalize
  split
  · exact roundWithAccuracy_ne_notANumber _ _ _ _ _
  · simp
  · exact roundWithAccuracy_ne_notANumber _ _ _ _ _

theorem mul_finite_ne_notANumber {f : Format} {u : UnpackedFloat} {s : Sign} {m : Nat} {e : Int}
    {hm : 0 < m} (hu : u ≠ .notANumber) :
    UnpackedFloat.mul f u (.finite s m e hm) ≠ .notANumber := by
  cases u with
  | notANumber => exact absurd rfl hu
  | infinity t => simp [UnpackedFloat.mul]
  | zero t => simp [UnpackedFloat.mul]
  | finite t n g hn => exact roundWithAccuracy_ne_notANumber _ _ _ _ _

theorem ofScientific_zero_ne_notANumber (f : Format) (n : Nat) :
    UnpackedFloat.ofScientific f n 0 ≠ .notANumber := by
  unfold UnpackedFloat.ofScientific
  split
  · simp
  · split
    · simp
    · split
      · simp
      · split
        · exact mul_finite_ne_notANumber (by simp)
        · rename_i h; exact absurd (Int.le_refl 0) h

theorem datum_one : ∃ hm, datum (Float.ofBits 0x3FF0000000000000) =
    .finite .positive Decimal.Binary.hidden (-52) hm := ⟨by decide, rfl⟩

theorem isNaN_ofNat (n : Nat) : (Float.ofNat n).isNaN = false := by
  show (Float.ofScientific n false 0).isNaN = false
  unfold Float.ofScientific
  -- Small numbers are multiplied by one, large ones are rounded.
  split
  · show (Float.ofModel (Float.Model.pack (UnpackedFloat.mul .binary64 (datum n.toUInt64.toFloat)
      (datum (Float.ofBits 0x3FF0000000000000))))).isNaN = false
    obtain ⟨hm, hone⟩ := datum_one
    rw [hone]
    apply isNaN_pack
    apply mul_finite_ne_notANumber
    show datum (Float.ofModel (Float.Model.pack (UnpackedFloat.ofNat .binary64 _))) ≠ _
    rw [datum_pack]
    exact unpack_pack_ne_notANumber (ofNat_ne_notANumber _ _)
  · exact isNaN_pack (ofScientific_zero_ne_notANumber _ n)

namespace Range

theorem containsCount_of_not_lt {r : Range} {n : Nat} (hmin : ¬ Float.ofNat n < r.minimum)
    (hmax : ¬ r.maximum < Float.ofNat n) : r.containsCount n = true := by
  have hn := isNaN_ofNat n
  have h1 := le_of_not_lt hn (isNaN_of_le r.zero_le_minimum).2 hmin
  have h2 := le_of_not_lt (isNaN_of_le r.zero_le_maximum).2 hn hmax
  unfold containsCount contains
  exact decide_eq_true ⟨h1, h2⟩

theorem containsCount_iff {r : Range} {n : Nat} :
    r.containsCount n = true ↔ ¬ Float.ofNat n < r.minimum ∧ ¬ r.maximum < Float.ofNat n := by
  constructor
  · intro h
    obtain ⟨hmin, hmax⟩ := of_decide_eq_true h
    exact ⟨fun hlt => not_le_of_lt hlt hmin, fun hlt => not_le_of_lt hlt hmax⟩
  · rintro ⟨hmin, hmax⟩
    exact containsCount_of_not_lt hmin hmax

end Range

end TimedPattern
