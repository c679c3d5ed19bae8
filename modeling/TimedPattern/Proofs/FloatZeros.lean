import TimedPattern.Event
import TimedPattern.Proofs.FloatOrder

/-!
# The sign of zero

The later of two times can depend on their order, but only in the sign of a zero, which never moves
the end of a window.
-/

open Float.Model Float.Model.UnpackedFloat

namespace TimedPattern

/-- The same number, up to the sign of zero. -/
def SameNumber (x y : Float) : Prop :=
  x = y ∨ (∃ s, datum x = .zero s) ∧ ∃ s, datum y = .zero s

theorem SameNumber.refl (x : Float) : SameNumber x x := .inl rfl

theorem SameNumber.trans {x y z : Float} (h : SameNumber x y) (h' : SameNumber y z) :
    SameNumber x z := by
  rcases h with rfl | ⟨hx, hy⟩
  · exact h'
  · rcases h' with rfl | ⟨-, hz⟩
    · exact .inr ⟨hx, hy⟩
    · exact .inr ⟨hx, hz⟩

theorem beq_zero_iff (x : Float) : (x == 0) = true ↔ ∃ s, datum x = .zero s := by
  constructor
  · intro h
    obtain ⟨-, -, hx | ⟨hx, -⟩ | ⟨hx, -⟩⟩ := (beq_iff_ne_notANumber_and_eq _ _).1 h
    · exact ⟨_, hx⟩
    · exact ⟨_, hx⟩
    · exact ⟨_, hx⟩
  · rintro ⟨s, hs⟩
    rw [beq_iff_compare, hs]
    rfl

theorem isInf_of_beq_zero {x : Float} (h : (x == 0) = true) : x.isInf = false := by
  obtain ⟨s, hs⟩ := (beq_zero_iff x).1 h
  rw [Bool.eq_false_iff, ne_eq, isInf_iff, hs]
  rintro ⟨t, ht⟩
  cases ht

/-! ## Sums and differences -/

theorem datum_add (x y : Float) : datum (x + y) =
    UnpackedFloat.unpack .binary64
      (UnpackedFloat.pack .binary64 (UnpackedFloat.add .binary64 (datum x) (datum y))) :=
  datum_pack _

theorem datum_sub (x y : Float) : datum (x - y) =
    UnpackedFloat.unpack .binary64
      (UnpackedFloat.pack .binary64 (UnpackedFloat.sub .binary64 (datum x) (datum y))) :=
  datum_pack _

theorem datum_sub_self {x : Float} (hnan : x.isNaN = false) (hinf : x.isInf = false) :
    datum (x - x) = .zero .positive := by
  rw [Bool.eq_false_iff, ne_eq, isNaN_iff] at hnan
  rw [Bool.eq_false_iff, ne_eq, isInf_iff] at hinf
  have hsub : UnpackedFloat.sub .binary64 (datum x) (datum x) = .zero .positive := by
    cases hx : datum x with
    | notANumber => exact absurd hx hnan
    | infinity s => exact absurd ⟨s, hx⟩ hinf
    | zero s => cases s <;> rfl
    | finite s m e hm => simp [UnpackedFloat.sub, UnpackedFloat.normalize]
  rw [datum_sub, hsub, UnpackedFloat.pack, unpack_packedZero]

theorem datum_sub_self_of_not_finite {x : Float} (h : x.isNaN = true ∨ x.isInf = true) :
    datum (x - x) = .notANumber := by
  have hsub : UnpackedFloat.sub .binary64 (datum x) (datum x) = .notANumber := by
    rcases h with h | h
    · rw [(isNaN_iff x).1 h]
      rfl
    · obtain ⟨s, hs⟩ := (isInf_iff x).1 h
      rw [hs]
      cases s <;> rfl
  rw [datum_sub, hsub]
  rfl

theorem add_zeros (s t : Sign) :
    ∃ u, UnpackedFloat.add .binary64 (.zero s) (.zero t) = .zero u := by
  cases s <;> cases t <;> exact ⟨_, rfl⟩

theorem sub_zeros (s t : Sign) :
    ∃ u, UnpackedFloat.sub .binary64 (.zero s) (.zero t) = .zero u := by
  cases s <;> cases t <;> exact ⟨_, rfl⟩

theorem SameNumber.add {x y : Float} (h : SameNumber x y) (b : Float) :
    SameNumber (b + x) (b + y) := by
  rcases h with rfl | ⟨⟨s, hx⟩, t, hy⟩
  · exact .refl _
  · have hadd := datum_add b
    cases hb : datum b with
    | zero r =>
      obtain ⟨u, hu⟩ := add_zeros r s
      obtain ⟨v, hv⟩ := add_zeros r t
      refine .inr ⟨⟨u, ?_⟩, v, ?_⟩
      · rw [hadd, hb, hx, hu, UnpackedFloat.pack, unpack_packedZero]
      · rw [hadd, hb, hy, hv, UnpackedFloat.pack, unpack_packedZero]
    | _ =>
      left
      apply datum_injective
      rw [hadd, hadd, hb, hx, hy]
      rfl

theorem SameNumber.sub {x y : Float} (h : SameNumber x y) (b : Float) :
    SameNumber (x - b) (y - b) := by
  rcases h with rfl | ⟨⟨s, hx⟩, t, hy⟩
  · exact .refl _
  · have hsub (z : Float) := datum_sub z b
    cases hb : datum b with
    | zero r =>
      obtain ⟨u, hu⟩ := sub_zeros s r
      obtain ⟨v, hv⟩ := sub_zeros t r
      refine .inr ⟨⟨u, ?_⟩, v, ?_⟩
      · rw [hsub, hb, hx, hu, UnpackedFloat.pack, unpack_packedZero]
      · rw [hsub, hb, hy, hv, UnpackedFloat.pack, unpack_packedZero]
    | _ =>
      left
      apply datum_injective
      rw [hsub, hsub, hb, hx, hy]
      rfl

/-! ## Comparisons -/

theorem zero_compare (s t : Sign) (u : UnpackedFloat) :
    UnpackedFloat.compare (.zero s) u = UnpackedFloat.compare (.zero t) u := by
  cases u with
  | notANumber => rfl
  | infinity r => cases r <;> rfl
  | zero r => rfl
  | finite r m e hm => cases r <;> rfl

theorem compare_zero (s t : Sign) (u : UnpackedFloat) :
    u.compare (.zero s) = u.compare (.zero t) := by
  rw [compare_swap (.zero s), compare_swap (.zero t), zero_compare]

theorem SameNumber.compare_eq {x y z w : Float} (h : SameNumber x y) (h' : SameNumber z w) :
    (datum x).compare (datum z) = (datum y).compare (datum w) := by
  have hleft (u : UnpackedFloat) : (datum x).compare u = (datum y).compare u := by
    rcases h with rfl | ⟨⟨s, hx⟩, t, hy⟩
    · rfl
    · rw [hx, hy, zero_compare]
  have hright (u : UnpackedFloat) : u.compare (datum z) = u.compare (datum w) := by
    rcases h' with rfl | ⟨⟨s, hz⟩, t, hw⟩
    · rfl
    · rw [hz, hw, compare_zero]
  rw [hleft, hright]

theorem SameNumber.lt_iff {x y z w : Float} (h : SameNumber x y) (h' : SameNumber z w) :
    x < z ↔ y < w := by
  rw [lt_iff_compare, lt_iff_compare, h.compare_eq h']

theorem SameNumber.le_iff {x y z w : Float} (h : SameNumber x y) (h' : SameNumber z w) :
    x ≤ z ↔ y ≤ w := by
  rw [le_iff_compare, le_iff_compare, h.compare_eq h']

theorem SameNumber.beq_eq {x y z w : Float} (h : SameNumber x y) (h' : SameNumber z w) :
    (x == z) = (y == w) := by
  rw [Bool.eq_iff_iff, beq_iff_compare, beq_iff_compare, h.compare_eq h']

theorem SameNumber.isInf_eq {x y : Float} (h : SameNumber x y) : x.isInf = y.isInf := by
  rcases h with rfl | ⟨hx, hy⟩
  · rfl
  · rw [isInf_of_beq_zero ((beq_zero_iff x).2 hx), isInf_of_beq_zero ((beq_zero_iff y).2 hy)]

/-! ## The later of two times -/

theorem later_eq_or (x y : Float) : later x y = x ∨ later x y = y := by
  unfold later
  split
  · exact .inr rfl
  · exact .inl rfl

theorem SameNumber.later {x y z w : Float} (h : SameNumber x y) (h' : SameNumber z w) :
    SameNumber (later x z) (later y w) := by
  unfold TimedPattern.later
  by_cases hlt : x < z
  · rw [if_pos hlt, if_pos ((h.lt_iff h').1 hlt)]
    exact h'
  · rw [if_neg hlt, if_neg (mt (h.lt_iff h').2 hlt)]
    exact h

theorem not_lt_zero {w z : Float} (hw : 0 ≤ w) {r : Sign} (hz : datum z = .zero r) : ¬ w < z := by
  intro hlt
  obtain ⟨o, ho, hle⟩ := (le_iff_compare 0 w).1 hw
  rw [lt_iff_compare, hz, compare_swap, zero_compare r .positive, ← datum_zero, ho] at hlt
  obtain rfl : o = .gt := by
    cases o <;> simp_all
  simp at hle

theorem SameNumber.later_eq {x y w : Float} (h : SameNumber x y) (hw : 0 ≤ w) :
    TimedPattern.later w x = TimedPattern.later w y := by
  rcases h with rfl | ⟨⟨s, hx⟩, t, hy⟩
  · rfl
  · unfold TimedPattern.later
    rw [if_neg (not_lt_zero hw hx), if_neg (not_lt_zero hw hy)]

theorem not_lt_sub_self {w : Float} (hw : 0 ≤ w) (x : Float) : ¬ w < x - x := by
  by_cases hfinite : x.isNaN = false ∧ x.isInf = false
  · exact not_lt_zero hw (datum_sub_self hfinite.1 hfinite.2)
  -- An infinite time leaves NaN, which is not late either.
  · rw [lt_iff_compare, datum_sub_self_of_not_finite (by simpa [or_iff_not_imp_left] using hfinite),
      compare_notANumber]
    simp

theorem SameNumber.of_compare {x y : Float} (h : (datum x).compare (datum y) = some .eq) :
    SameNumber x y := by
  have hbeq : (datum x).beq (datum y) = true := by
    rw [UnpackedFloat.beq, h, beq_self_eq_true]
  obtain ⟨-, -, heq | ⟨hx, hy⟩ | ⟨hx, hy⟩⟩ := (beq_iff_ne_notANumber_and_eq _ _).1 hbeq
  · exact .inl (datum_injective heq)
  · exact .inr ⟨⟨_, hx⟩, _, hy⟩
  · exact .inr ⟨⟨_, hx⟩, _, hy⟩

theorem later_comm {x y : Float} (hx : x.isNaN = false) (hy : y.isNaN = false) :
    SameNumber (later x y) (later y x) := by
  rw [Bool.eq_false_iff, ne_eq, isNaN_iff] at hx hy
  have hswap := compare_swap (datum x) (datum y)
  cases ho : (datum x).compare (datum y) with
  | none => exact absurd (compare_eq_none ho) (by simp [hx, hy])
  | some o =>
    rw [ho] at hswap
    unfold later
    simp only [lt_iff_compare, ho, hswap]
    cases o with
    | lt => exact .inl rfl
    | gt => exact .inl rfl
    | eq => exact .of_compare ho

end TimedPattern
