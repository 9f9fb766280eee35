/-!
# Machine words

Constants, coefficients and bounds are signed 64-bit words. They are kept as integers, and a result
that leaves the range is refused where it arises, so no operation ever wraps. Interval bounds are
accumulated in signed 128-bit range before they are narrowed to a word.
-/

namespace Linearization

namespace Word

/-- The smallest signed 64-bit word. -/
def least : Int := -9223372036854775808

/-- The largest signed 64-bit word. -/
def greatest : Int := 9223372036854775807

/-- The integer is a signed 64-bit word. -/
def Fits (v : Int) : Prop := least ≤ v ∧ v ≤ greatest

instance : DecidablePred Fits := fun v => inferInstanceAs (Decidable (least ≤ v ∧ v ≤ greatest))

/-- The word nearest to an integer. -/
def clamp (v : Int) : Int := max least (min v greatest)

theorem fits_clamp (v : Int) : Fits (clamp v) := by
  unfold Fits clamp least greatest; omega

theorem clamp_eq_self {v : Int} (h : Fits v) : clamp v = v := by
  unfold Fits at h; unfold clamp; unfold least greatest at *; omega

/-- The number of values from `lower` to `upper`, at most `2 ^ 64 - 1`. -/
def span (lower upper : Int) : Nat := min (upper - lower + 1).toNat 18446744073709551615

end Word

namespace WideWord

/-- The integer is a signed 128-bit word. -/
def Fits (v : Int) : Prop :=
  -170141183460469231731687303715884105728 ≤ v ∧ v ≤ 170141183460469231731687303715884105727

instance : DecidablePred Fits := fun _ => inferInstanceAs (Decidable (_ ∧ _))

end WideWord

end Linearization
