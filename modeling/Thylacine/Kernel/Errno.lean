import Mathlib.Data.Int.Notation

/-!
# Error Numbers

The error numbers of `thylacine/errno.h` that the models return, negated, from a call.
-/

namespace Thylacine

/-- `T_E_INTR`. -/
def tEIntr : ℤ := 4

/-- `T_E_BADF`. -/
def tEBadf : ℤ := 9

/-- `T_E_AGAIN`. -/
def tEAgain : ℤ := 11

/-- `T_E_NOMEM`. -/
def tENomem : ℤ := 12

/-- `T_E_ACCES`. -/
def tEAcces : ℤ := 13

/-- `T_E_INVAL`. -/
def tEInval : ℤ := 22

/-- `T_E_MFILE`. -/
def tEMfile : ℤ := 24

/-- `T_E_PIPE`. -/
def tEPipe : ℤ := 32

end Thylacine
