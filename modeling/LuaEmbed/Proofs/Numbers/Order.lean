import LuaEmbed.Number.Binary64
import Mathlib

/-!
# The order of doubles

The doubles other than NaN are ordered by their sign, then by their exponent and mantissa.  The two
zeros have one place in that order and are equal to each other; no other double is equal to any but
itself.
-/

namespace LuaEmbed.Number

open Float.Model UnpackedFloat

/-! ## Places in the order -/

/-- The place of what a double is unpacked to.  NaN has none of its own. -/
def place : UnpackedFloat → ℤ ×ₗ ℤ ×ₗ ℤ
  | .infinity .negative => toLex (-2, toLex (0, 0))
  | .finite .negative m e _ => toLex (-1, toLex (-e, -m))
  | .zero _ | .notANumber => toLex (0, toLex (0, 0))
  | .finite .positive m e _ => toLex (1, toLex (e, m))
  | .infinity .positive => toLex (2, toLex (0, 0))

theorem compare_toLex (s a b m n : ℤ) :
    compare (α := ℤ ×ₗ ℤ ×ₗ ℤ) (toLex (s, toLex (a, m))) (toLex (s, toLex (b, n))) =
      (compare a b).then (compare m n) := by
  simp [Prod.Lex.compare_def, compareLex, compareOn]

theorem compare_neg (a b : ℤ) : compare (-a) (-b) = compare b a := by
  have hanti : StrictAnti fun n : ℤ ↦ -n := fun _ _ h ↦ Int.neg_lt_neg h
  simpa only [cmp_eq_compare] using hanti.cmp_map_eq a b

theorem compare_natCast (m n : ℕ) : compare (m : ℤ) n = compare m n := by
  have hmono : StrictMono fun n : ℕ ↦ (n : ℤ) := fun _ _ h ↦ Int.ofNat_lt.2 h
  simpa only [cmp_eq_compare] using hmono.cmp_map_eq m n

variable {u v : UnpackedFloat}

theorem compare_eq_compare_place (hu : u.isNaN = false) (hv : v.isNaN = false) :
    u.compare v = some (compare (place u) (place v)) := by
  rcases u with (_ | _) | _ | (_ | _) | ⟨_ | _, m, e, hm⟩ <;>
    rcases v with (_ | _) | _ | (_ | _) | ⟨_ | _, n, f, hn⟩ <;>
    first | rfl | contradiction | skip
  · rw [place, place, compare_toLex, compare_neg, compare_neg, compare_natCast,
      UnpackedFloat.compare, Ordering.swap_then, Int.compare_swap, Nat.compare_swap]
  · rw [place, place, compare_toLex, compare_natCast, UnpackedFloat.compare]

/-! ## Comparison of doubles -/

variable {f g : Float}

theorem lt_iff_place (hf : f.isNaN = false) (hg : g.isNaN = false) :
    f < g ↔ place f.toModel.unpack < place g.toModel.unpack := by
  change decide ((f.toModel.unpack.compare g.toModel.unpack == some .lt) = true) = true ↔ _
  rw [decide_eq_true_iff, compare_eq_compare_place hf hg, beq_iff_eq, Option.some.injEq,
    compare_lt_iff_lt]

/-- A double is equal to zero if it is one of the two zeros. -/
theorem beq_zero_iff : (f == 0) = true ↔ f = 0 ∨ f = -0 := by
  have hzero : (0 : Float) ≠ Float.nan ∧ (-0 : Float) ≠ Float.nan := by decide +kernel
  rw [Float.beq_iff_ne_nan_and_eq]
  grind

theorem beq_iff (hf : f.isNaN = false) (hg : g.isNaN = false) :
    (f == g) = true ↔ f = g ∨ (f == 0) = true ∧ (g == 0) = true := by
  rw [Float.isNaN_eq_decide_eq_nan, decide_eq_false_iff_not] at hf hg
  rw [beq_zero_iff, beq_zero_iff, Float.beq_iff_ne_nan_and_eq]
  grind

end LuaEmbed.Number
