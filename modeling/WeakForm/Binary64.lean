import WeakForm.Binary64.Eigen
import WeakForm.Binary64.Inverse
import WeakForm.Binary64.Shortest
import WeakForm.Product

/-!
# Floating-point scalars

Forms with floating-point constants: their texts are the shortest ones that read back, and the
numerical operations are those of the modules below this one.
-/

namespace WeakForm

instance instNatCastFloat : NatCast Float := ⟨Float.ofNat⟩

instance : Constant Float where
  isFinite := Float.isFinite
  text x := Binary64.text x.toBits.toNat

instance : Numerics Float where
  sqrt := Float.sqrt
  inverse? := Binary64.inverse?
  eigen := Binary64.eigen

end WeakForm
