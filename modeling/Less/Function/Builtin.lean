import Less.Function.Coloring
import Less.Function.Formatting

/-!
# The built-in functions

The registry every compiler starts with.
-/

namespace Less.Registry

/-- The built-in functions in their order of registration. -/
def builtinFunctions : List (String × Function) :=
  [("%", Function.format), ("e", Function.escape),
   ("lighten", Function.lighten), ("darken", Function.darken),
   ("saturate", Function.saturate), ("desaturate", Function.desaturate),
   ("spin", Function.spin), ("grayscale", Function.grayscale), ("greyscale", Function.grayscale),
   ("argb", Function.argb), ("fade", Function.fade), ("overlay", Function.overlay),
   ("rgb", Function.rgb), ("rgba", Function.rgb), ("hsl", Function.hsl), ("hsla", Function.hsl)]

/-- A registry with the built-in functions. -/
def builtin : Registry := ⟨⟨builtinFunctions, by decide⟩⟩

end Less.Registry
