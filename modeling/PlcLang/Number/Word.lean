/-!
# The 32-bit range

Integers of the language are kept in the signed 32-bit range by reducing results modulo `2 ^ 32`.

* `Word.wrap`: the representative of an integer in the range.
* `Word.quotient`: division toward zero.
* `Word.power`: powers, by repeated squaring modulo `2 ^ 32`.
-/

namespace PlcLang.Word

/-- The number of values, `2 ^ 32`. -/
def modulus : Nat := 4294967296

/-- The smallest value. -/
def least : Int := -2147483648

/-- The greatest value. -/
def greatest : Int := 2147483647

/-- The value lies in the range. -/
def InRange (i : Int) : Prop := least ≤ i ∧ i ≤ greatest

instance (i : Int) : Decidable (InRange i) := inferInstanceAs (Decidable (_ ∧ _))

/-- The value of the range that is congruent to `i`. -/
def wrap (i : Int) : Int := i.bmod modulus

/-- The wrapped quotient, rounded toward zero. -/
def quotient (a b : Int) : Int := wrap (a.tdiv b)

/-- The power `b ^ e` modulo `m`, by repeated squaring. -/
def powMod (m b e : Nat) : Nat :=
  if h : e = 0 then 1 % m
  else
    let half := powMod m b (e / 2)
    if e % 2 = 0 then half * half % m else half * half % m * b % m
termination_by e

/-- The wrapped power of an integer. -/
def power (b : Int) (e : Nat) : Int := wrap (powMod modulus (b % modulus).toNat e)

/-! ## Laws -/

theorem wrap_inRange (i : Int) : InRange (wrap i) := by
  have h1 := Int.le_bmod (x := i) (m := modulus) (by decide)
  have h2 := Int.bmod_lt (x := i) (m := modulus) (by decide)
  simp only [InRange, wrap, least, greatest, modulus] at *
  omega

theorem wrap_of_inRange {i : Int} (h : InRange i) : wrap i = i := by
  simp only [InRange, least, greatest] at h
  rw [wrap, Int.bmod_def, modulus]
  omega

theorem powMod_eq (m b e : Nat) : powMod m b e = Nat.pow b e % m := by
  change _ = b ^ e % m
  induction e using Nat.strongRecOn with
  | _ e ih =>
    rw [powMod]
    split
    next h => subst h; simp
    next h =>
      have hlt : e / 2 < e := Nat.div_lt_self (by omega) (by decide)
      have hsq : powMod m b (e / 2) * powMod m b (e / 2) % m = b ^ (2 * (e / 2)) % m := by
        rw [ih _ hlt, Nat.two_mul, Nat.pow_add, ← Nat.mul_mod]
      simp only [hsq]
      split
      next he => rw [show 2 * (e / 2) = e by omega]
      next he =>
        rw [← Nat.mod_mul_mod, Nat.mod_mod, Nat.mod_mul_mod, ← Nat.pow_succ,
          show (2 * (e / 2)).succ = e by omega]

end PlcLang.Word
