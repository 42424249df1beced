import Mathlib.Algebra.BigOperators.Group.List.Basic
import Mathlib.LinearAlgebra.Lagrange
import Mathlib.Tactic

/-!
# Interpolation at zero

The value of a polynomial at zero from its values at distinct nodes, computed with running
products of the nodes and multiplied by a common factor. The values may stand in the
exponent: they are then multiples of one element of a module.

Main results:

- `sum_weight`: weighted values add up to the scaled value at zero.
- `atZero_eq`: so do weighted multiples of one element.
-/

namespace Interpolation

open Polynomial List

variable {F : Type*} [Field F] [DecidableEq F]

/-- The scaled coefficient of one node, from running products over the other nodes. -/
def weight (scaler node : F) (others : List F) : F :=
  others.foldl (fun product other => product * -other) scaler *
    (others.foldl (fun product other => product * (node - other)) 1)⁻¹

omit [DecidableEq F] in
theorem foldl_mul_eq (f : F → F) (start : F) (others : List F) :
    others.foldl (fun product o => product * f o) start
      = start * (others.map f).prod := by
  induction others generalizing start with
  | nil => simp
  | cons o others ih => rw [foldl_cons, ih, map_cons, prod_cons, mul_assoc]

omit [DecidableEq F] in
theorem weight_eq (scaler node : F) (others : List F) :
    weight scaler node others
      = scaler * (others.map fun o => (node - o)⁻¹ * (0 - o)).prod := by
  rw [weight, foldl_mul_eq, foldl_mul_eq, one_mul]
  induction others with
  | nil => simp
  | cons o others ih =>
    simp only [map_cons, prod_cons, mul_inv]
    linear_combination (-o * (node - o)⁻¹) * ih

theorem prod_filter_ne {nodes : List F} (hnd : nodes.Nodup) (node : F) (f : F → F) :
    ((nodes.filter (· ≠ node)).map f).prod = ∏ other ∈ nodes.toFinset.erase node, f other := by
  have hset : nodes.toFinset.erase node = (nodes.filter (· ≠ node)).toFinset := by
    ext other
    simp [and_comm]
  rw [hset, prod_toFinset f (hnd.filter _)]

theorem eval_basis_zero {nodes : List F} (hnd : nodes.Nodup) (node : F) :
    (Lagrange.basis nodes.toFinset id node).eval 0
      = ((nodes.filter (· ≠ node)).map fun o => (node - o)⁻¹ * (0 - o)).prod := by
  rw [prod_filter_ne hnd, Lagrange.basis, eval_prod]
  refine Finset.prod_congr rfl fun o _ => ?_
  simp [Lagrange.basisDivisor]

/-- Weighted values of a polynomial at distinct nodes add up to its scaled value at zero. -/
theorem sum_weight {nodes : List F} (hnd : nodes.Nodup) (scaler : F) {p : F[X]}
    (hdeg : p.degree < nodes.length) :
    (nodes.map fun node => weight scaler node (nodes.filter (· ≠ node)) * p.eval node).sum
      = scaler * p.eval 0 := by
  have hcard : p.degree < nodes.toFinset.card := by
    rwa [toFinset_card_of_nodup hnd]
  have hv : p.eval 0 = ∑ node ∈ nodes.toFinset,
      p.eval node * (Lagrange.basis nodes.toFinset id node).eval 0 := by
    conv_lhs => rw [Lagrange.eq_interpolate (Set.injOn_id _) hcard]
    rw [Lagrange.interpolate_apply, eval_finsetSum]
    simp
  rw [hv, ← sum_toFinset _ hnd, Finset.mul_sum]
  refine Finset.sum_congr rfl fun node _ => ?_
  rw [weight_eq, eval_basis_zero hnd]
  ring

/-! ## Points in order -/

section Points

variable {M : Type*} [AddCommGroup M] [Module F M]

/-- The coefficient of the node at a position. -/
def weightAt (scaler : F) (nodes : List F) (position : ℕ) : F :=
  weight scaler (nodes.getD position 0) (nodes.eraseIdx position)

/-- The sum of the values, weighted by the coefficients of their nodes. -/
def atZero (scaler : F) (points : List (F × M)) : M :=
  (points.zipIdx.map fun entry =>
    weightAt scaler (points.map Prod.fst) entry.2 • entry.1.2).sum

/-- Without repetition, the other positions hold the other nodes. -/
theorem weightAt_eq {nodes : List F} (hnd : nodes.Nodup) (scaler : F) {pos : ℕ} {node : F}
    (hnode : nodes[pos]? = some node) :
    weightAt scaler nodes pos = weight scaler node (nodes.filter (· ≠ node)) := by
  rcases List.getElem?_eq_some_iff.mp hnode with ⟨hlt, hget⟩
  have hothers : nodes.eraseIdx pos = nodes.filter (· ≠ node) := by
    rw [← hnd.erase_getElem pos hlt, hget, hnd.erase_eq_filter]
    exact List.filter_congr fun o _ => (decide_not (p := o = node)).symm
  rw [weightAt, List.getD_eq_getElem?_getD, hnode, Option.getD_some, hothers]

/-- Interpolation in the exponent: points whose values are multiples of one element by the values
of a polynomial. -/
theorem atZero_eq {points : List (F × M)} (hnd : (points.map Prod.fst).Nodup) (scaler : F)
    {p : F[X]} (hdeg : p.degree < points.length) {element : M}
    (hv : ∀ point ∈ points, point.2 = p.eval point.1 • element) :
    atZero scaler points = (scaler * p.eval 0) • element := by
  have hterm : ∀ e ∈ points.zipIdx,
      weightAt scaler (points.map Prod.fst) e.2 • e.1.2
        = (weight scaler e.1.1 ((points.map Prod.fst).filter (· ≠ e.1.1)) *
            p.eval e.1.1) • element := by
    intro e he
    have hget : points[e.2]? = some e.1 := mem_zipIdx_iff_getElem?.mp he
    have hnode : (points.map Prod.fst)[e.2]? = some e.1.1 := by
      rw [getElem?_map, hget, Option.map_some]
    rw [weightAt_eq hnd scaler hnode, hv e.1 (mem_of_getElem? hget), mul_smul]
  have hfst : ∀ f : F × M → M,
      points.zipIdx.map (fun e => f e.1) = points.map f := by
    intro f
    have hmap := congrArg (map f) (zipIdx_map_fst 0 points)
    rwa [map_map] at hmap
  have hlen : p.degree < (points.map Prod.fst).length := by
    rwa [length_map]
  calc atZero scaler points
      = (points.zipIdx.map fun e =>
          (weight scaler e.1.1 ((points.map Prod.fst).filter (· ≠ e.1.1)) *
            p.eval e.1.1) • element).sum := by
        rw [atZero, map_congr_left hterm]
    _ = (((points.map Prod.fst).map fun node =>
          weight scaler node ((points.map Prod.fst).filter (· ≠ node)) * p.eval node).sum)
            • element := by
        rw [sum_smul, map_map, map_map, hfst fun point =>
          (weight scaler point.1 ((points.map Prod.fst).filter (· ≠ point.1)) *
            p.eval point.1) • element]
        rfl
    _ = (scaler * p.eval 0) • element := by
        rw [sum_weight hnd scaler hlen]

end Points

end Interpolation
