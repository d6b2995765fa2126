import Less.Color.Basic

/-!
# Blending two colors

`Color.overlay` lays one color over another: where the bottom is dark the channels are multiplied, where it is
light they are screened, and the opacities are composed.
-/

namespace Less.Color

/-- The channel of two opaque colors laid over each other. -/
def overlayShare (bottom top : Float) : Float :=
  if bottom ≤ 0.5 then bottom * 2.0 * top
  else
    let screened := bottom * 2.0 - 1.0
    screened + top - screened * top

/-- One channel of the composition of a bottom and a top color with opacities. -/
def composeShare (bottomAlpha topAlpha alpha bottom top : Float) : Float :=
  let blended := overlayShare bottom top
  if 0.0 < alpha then
    (topAlpha * top + bottomAlpha * (bottom - topAlpha * (bottom + top - blended))) / alpha
  else blended

/-- The bottom color with the top color laid over it. -/
def overlay (bottom top : Color) : Color :=
  let alpha := top.alpha + bottom.alpha * (1.0 - top.alpha)
  (ofShares (bottom.shares.zipWith (composeShare bottom.alpha top.alpha alpha) top.shares)).withAlpha alpha

end Less.Color
