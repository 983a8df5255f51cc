import Easel.Number.Whole

/-!
# Levels and grays

Programs give color and paper as levels from 0, white, to 100, black. A raster holds grays from 0,
black, to 255, white.
-/

namespace Easel.Level

/-- The level within 0 to 100 nearest to `v`; NaN counts as 0. -/
def clamp (v : Float) : Float :=
  if v.isNaN then 0
  else if v < 0 then 0
  else if 100 < v then 100
  else v

/-- The gray of a level: `255 · (100 - v) / 100`, without its fraction. -/
def gray (v : Float) : UInt8 :=
  UInt8.ofNat (Number.wholePart (255 * (100 - clamp v) / 100))

end Easel.Level
