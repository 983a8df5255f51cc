import Easel.Program

/-!
# Surfaces

A surface is whatever can take the calls of a program. `Recording` keeps them.
-/

namespace Easel

/-- A type of surfaces: what a call makes of one. -/
class Surface (σ : Type) where
  apply : σ → Call → σ

/-- A surface that keeps the calls as they came. -/
structure Recording where
  width : Float
  height : Float
  calls : Array Call

namespace Recording

/-- Nothing recorded yet. -/
def blank (width height : Float) : Recording := ⟨width, height, #[]⟩

instance : Surface Recording where
  apply r call := { r with calls := r.calls.push call }

end Recording

end Easel
