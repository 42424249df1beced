import Mathlib.Algebra.Polynomial.Degree.Lemmas
import Mathlib.Tactic

/-!
# Horner's scheme

Evaluation of a polynomial from its coefficients, the constant one first. The coefficients may
stand in the exponent: they are then elements of a module.

Main results:

- `evaluate_map_smul`: multiples of one element evaluate to the value of the
  polynomial times that element.
- `degree_ofCoefficients_lt`: the degree is below the number of coefficients.
-/

namespace Horner

open Polynomial

variable {R M : Type*} [CommRing R] [AddCommGroup M] [Module R M]

/-- Evaluation from the last coefficient to the constant one. -/
def evaluate (x : R) (coefficients : List M) : M :=
  match coefficients.reverse with
  | [] => 0
  | last :: rest => rest.foldl (fun result coefficient => x • result + coefficient) last

noncomputable def ofCoefficients : List R → R[X]
  | [] => 0
  | coefficient :: coefficients => ofCoefficients coefficients * X + C coefficient

@[simp] theorem evaluate_nil (x : R) : evaluate x ([] : List M) = 0 := rfl

@[simp] theorem evaluate_cons (x : R) (coefficient : M) (coeffs : List M) :
    evaluate x (coefficient :: coeffs) = x • evaluate x coeffs + coefficient := by
  unfold evaluate
  rw [List.reverse_cons]
  cases coeffs.reverse with
  | nil => simp
  | cons last rest => simp

theorem evaluate_map_smul (x : R) (element : M) (coeffs : List R) :
    evaluate x (coeffs.map (· • element))
      = (ofCoefficients coeffs).eval x • element := by
  induction coeffs with
  | nil => simp [ofCoefficients]
  | cons coefficient coeffs ih =>
    rw [List.map_cons, evaluate_cons, ih, ofCoefficients, eval_add, eval_mul, eval_X, eval_C,
      add_smul, smul_smul, mul_comm]

theorem evaluate_eq_eval (x : R) (coeffs : List R) :
    evaluate x coeffs = (ofCoefficients coeffs).eval x := by
  induction coeffs with
  | nil => simp [ofCoefficients]
  | cons coefficient coeffs ih =>
    rw [evaluate_cons, ih, ofCoefficients, eval_add, eval_mul, eval_X, eval_C, smul_eq_mul,
      mul_comm]

theorem evaluate_eq_sum (x : R) (coeffs : List R) :
    evaluate x coeffs
      = ∑ power ∈ Finset.range coeffs.length, coeffs[power]?.getD 0 * x ^ power := by
  induction coeffs with
  | nil => simp
  | cons coefficient coeffs ih =>
    rw [evaluate_cons, ih, List.length_cons, Finset.sum_range_succ', smul_eq_mul, Finset.mul_sum]
    congr 1
    · refine Finset.sum_congr rfl fun power _ => ?_
      rw [List.getElem?_cons_succ, pow_succ]
      ring
    · simp

theorem eval_zero_ofCoefficients (coefficient : R) (coeffs : List R) :
    (ofCoefficients (coefficient :: coeffs)).eval 0 = coefficient := by
  simp [ofCoefficients]

theorem coeff_ofCoefficients (coeffs : List R) (power : ℕ) :
    (ofCoefficients coeffs).coeff power = coeffs[power]?.getD 0 := by
  induction coeffs generalizing power with
  | nil => simp [ofCoefficients]
  | cons coefficient coeffs ih =>
    cases power with
    | zero => simp [ofCoefficients]
    | succ power => simp [ofCoefficients, ih, coeff_C]

theorem ofCoefficients_coeff {p : R[X]} {count : ℕ} (hdeg : p.degree < count) :
    ofCoefficients ((List.range count).map p.coeff) = p := by
  ext power
  rw [coeff_ofCoefficients, List.getElem?_map]
  by_cases hpower : power < count
  · rw [List.getElem?_range hpower, Option.map_some, Option.getD_some]
  · rw [List.getElem?_eq_none (by simpa using hpower), Option.map_none, Option.getD_none,
      (degree_lt_iff_coeff_zero p count).mp hdeg power (not_lt.mp hpower)]

theorem degree_ofCoefficients_lt (coeffs : List R) :
    (ofCoefficients coeffs).degree < coeffs.length := by
  induction coeffs with
  | nil => simp [ofCoefficients]
  | cons coefficient coeffs ih =>
    rw [ofCoefficients, List.length_cons]
    refine lt_of_le_of_lt (degree_add_le _ _) (max_lt ?_ ?_)
    · rw [degree_lt_iff_coeff_zero] at ih ⊢
      intro power hpower
      cases power with
      | zero => exact absurd hpower (by omega)
      | succ power =>
        rw [coeff_mul_X]
        exact ih power (by omega)
    · refine lt_of_le_of_lt degree_C_le ?_
      exact_mod_cast Nat.succ_pos coeffs.length

end Horner
