/-!
The integer hash that shaders use in either numeric domain.
-/
namespace FixedIL.Native

def hash (x seed : UInt32) : UInt32 :=
  let h := x ^^^ (seed * 0x9e3779b9)
  let h := h ^^^ (h >>> 16)
  let h := h * 0x7feb352d
  let h := h ^^^ (h >>> 15)
  let h := h * 0x846ca68b
  h ^^^ (h >>> 16)

end FixedIL.Native
