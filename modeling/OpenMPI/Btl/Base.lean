import Mathlib.Algebra.Order.Ring.Int

/-!
# Machine numbers
-/

namespace OpenMPI.Btl

def int32 (n : ℤ) : ℤ := n.bmod (2 ^ 32)

/-- A number as a `size_t`. -/
def size64 (n : ℤ) : ℕ := (n % (2 ^ 64 : ℕ)).toNat

end OpenMPI.Btl
