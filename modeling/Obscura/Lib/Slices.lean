import Mathlib.Algebra.BigOperators.Group.Multiset.Basic
import Mathlib.Algebra.Order.BigOperators.Group.Multiset

/-! # Selling an amount in slices

An amount `give` is sold for `get` in slices at the fixed rate `give / get`; each
slice is priced by itself and rounded down. However it is sliced, the prices never
add up to more than the rounded price of the whole, so what is left always covers
the next slice.
-/

namespace Slices

/-- The price of a slice, rounded down. -/
def price (give get pay : Nat) : Nat := pay * give / get

theorem price_add_le (give get first second : Nat) :
    price give get first + price give get second ≤ price give get (first + second) := by
  rw [price, price, price, Nat.add_mul]
  exact Nat.div_add_div_le_add_div

theorem price_le {give get pay : Nat} (positive : 0 < get) (within : pay ≤ get) :
    price give get pay ≤ give := by
  rw [price]
  calc pay * give / get ≤ get * give / get := Nat.div_le_div_right (Nat.mul_le_mul_right _ within)
    _ = give := Nat.mul_div_cancel_left give positive

theorem sum_price_le (give get : Nat) (pays : Multiset Nat) :
    (pays.map (price give get)).sum ≤ price give get pays.sum := by
  induction pays using Multiset.induction with
  | empty => simp
  | cons pay pays ih =>
    rw [Multiset.map_cons, Multiset.sum_cons, Multiset.sum_cons]
    exact (Nat.add_le_add_left ih _).trans (price_add_le give get pay pays.sum)

theorem next_slice_fits {give get pay : Nat} {pays : Multiset Nat} (positive : 0 < get)
    (within : pays.sum + pay ≤ get) :
    (pays.map (price give get)).sum + price give get pay ≤ give :=
  calc (pays.map (price give get)).sum + price give get pay
      ≤ price give get pays.sum + price give get pay :=
        Nat.add_le_add_right (sum_price_le give get pays) _
    _ ≤ price give get (pays.sum + pay) := price_add_le give get _ _
    _ ≤ give := price_le positive within

end Slices
