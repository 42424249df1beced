import Mathlib.NumberTheory.LucasPrimality
import Mathlib.Tactic

/-!
# Primality of large numbers

A number is prime when some base has the powers of a primitive root modulo it. The powers
are computed by squaring, so that a proof for a number of some hundred digits is short.

Main results:

- `cast_powMod`: the computed power, as a residue.
- `prime_of_powMod`: the primality criterion in terms of computed powers.
-/

namespace Primality

/-- An accumulator times a power, reduced after every step; one step for each binary digit of
the exponent. -/
def powMod (modulus : ℕ) : ℕ → ℕ → ℕ → ℕ → ℕ
  | 0, accumulator, _, _ => accumulator
  | digits + 1, accumulator, base, exponent =>
    powMod modulus digits
      (if exponent % 2 = 1 then accumulator * base % modulus else accumulator)
      (base * base % modulus) (exponent / 2)

theorem cast_powMod {modulus digits exponent : ℕ} (h : exponent < 2 ^ digits)
    (accumulator base : ℕ) :
    (powMod modulus digits accumulator base exponent : ZMod modulus)
      = accumulator * (base : ZMod modulus) ^ exponent := by
  induction digits generalizing accumulator base exponent with
  | zero =>
    rw [pow_zero, Nat.lt_one_iff] at h
    rw [powMod, h, pow_zero, mul_one]
  | succ digits ih =>
    have hhalf : exponent / 2 < 2 ^ digits := by
      rw [pow_succ] at h
      omega
    have hsplit : exponent = 2 * (exponent / 2) + exponent % 2 :=
      (Nat.div_add_mod exponent 2).symm
    rw [powMod, ih hhalf, ZMod.natCast_mod, Nat.cast_mul, ← pow_two, ← pow_mul]
    rcases Nat.mod_two_eq_zero_or_one exponent with heven | hodd
    · rw [heven, add_zero] at hsplit
      rw [if_neg (by omega), ← hsplit]
    · rw [hodd] at hsplit
      rw [if_pos hodd, ZMod.natCast_mod, Nat.cast_mul, mul_assoc, ← pow_succ', ← hsplit]

/-- A number is prime when the power of some base to one less is one, and no power to a prime
part of that is. -/
theorem prime_of_powMod {p digits : ℕ} (base : ℕ) (hdigits : p < 2 ^ digits) (hone : 1 < p)
    (hfull : powMod p digits 1 base (p - 1) % p = 1)
    (hparts : ∀ q, q.Prime → q ∣ p - 1 → powMod p digits 1 base ((p - 1) / q) % p ≠ 1) :
    p.Prime := by
  have hpower : ∀ exponent ≤ p - 1,
      (base : ZMod p) ^ exponent = (powMod p digits 1 base exponent : ZMod p) := by
    intro exponent hle
    rw [cast_powMod (by omega), Nat.cast_one, one_mul]
  have hcast : ∀ v : ℕ, (v : ZMod p) = 1 ↔ v % p = 1 := by
    intro v
    rw [← Nat.cast_one, ZMod.natCast_eq_natCast_iff', Nat.mod_eq_of_lt hone]
  refine lucas_primality p (base : ZMod p) ?_ ?_
  · rw [hpower _ le_rfl, hcast]
    exact hfull
  · intro q hq hdvd
    rw [hpower _ (Nat.div_le_self _ _), Ne, hcast]
    exact hparts q hq hdvd

theorem mem_of_prime_dvd_prod {factors : List ℕ} (hprime : ∀ factor ∈ factors, factor.Prime) {q : ℕ}
    (hq : q.Prime) (hdvd : q ∣ factors.prod) : q ∈ factors := by
  rcases (Prime.dvd_prod_iff hq.prime).mp hdvd with ⟨factor, hmem, hdvd⟩
  rw [(Nat.prime_dvd_prime_iff_eq hq (hprime factor hmem)).mp hdvd]
  exact hmem

end Primality
