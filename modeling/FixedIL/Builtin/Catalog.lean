import FixedIL.Builtin.PrototypeText
import FixedIL.Builtin.Registry
import FixedIL.Native.Color
import FixedIL.Native.Hash
import FixedIL.Native.Trig

/-!
The builtins that come with the system, one row for each implementation.
-/
namespace FixedIL.Builtin

structure CatalogRow where
  line : Nat
  prototype : String
  variant : Option Variant
  symbol : String
  routine : NativeRoutine

open NativeRoutine (ofInts ofFloats ofWords)
open Native

def catalogRows : List CatalogRow := [
  ⟨22, "float sin(float x)", some .float, "qs_sin_f32", ofFloats fun a => [sinFloat (a 0)]⟩,
  ⟨23, "float sin(float x)", some .fixedPoint, "qs_sin_q32", ofInts fun a => [sinFixed (a 0)]⟩,
  ⟨25, "float cos(float x)", some .float, "qs_cos_f32", ofFloats fun a => [cosFloat (a 0)]⟩,
  ⟨26, "float cos(float x)", some .fixedPoint, "qs_cos_q32", ofInts fun a => [cosFixed (a 0)]⟩,
  ⟨28, "float lpfx_saturate(float x)", some .float, "qs_saturate_f32",
    ofFloats fun a => [saturateFloat (a 0)]⟩,
  ⟨29, "float lpfx_saturate(float x)", some .fixedPoint, "qs_saturate_q32",
    ofInts fun a => [Lane.clamp01 (a 0)]⟩,
  ⟨31, "vec3 lpfx_hue2rgb(float hue)", some .float, "qs_hue2rgb_f32",
    ofFloats fun a => (hueToRgbFloat (a 0)).toList⟩,
  ⟨32, "vec3 lpfx_hue2rgb(float hue)", some .fixedPoint, "qs_hue2rgb_q32",
    ofInts fun a => (hueToRgbFixed (a 0)).toList⟩,
  ⟨34, "vec3 lpfx_hsv2rgb(vec3 hsv)", some .float, "qs_hsv2rgb_f32",
    ofFloats fun a => (hsvToRgbFloat (a 0) (a 1) (a 2)).toList⟩,
  ⟨35, "vec3 lpfx_hsv2rgb(vec3 hsv)", some .fixedPoint, "qs_hsv2rgb_q32",
    ofInts fun a => (hsvToRgbFixed (a 0) (a 1) (a 2)).toList⟩,
  ⟨37, "vec4 lpfx_hsv2rgb(vec4 hsv)", some .float, "qs_hsv2rgb_vec4_f32",
    ofFloats fun a => (hsvToRgbFloat (a 0) (a 1) (a 2)).toList ++ [a 3]⟩,
  ⟨38, "vec4 lpfx_hsv2rgb(vec4 hsv)", some .fixedPoint, "qs_hsv2rgb_vec4_q32",
    ofInts fun a => (hsvToRgbFixed (a 0) (a 1) (a 2)).toList ++ [a 3]⟩,
  ⟨40, "vec3 lpfx_rgb2hsv(vec3 rgb)", some .float, "qs_rgb2hsv_f32",
    ofFloats fun a => (rgbToHsvFloat (a 0) (a 1) (a 2)).toList⟩,
  ⟨41, "vec3 lpfx_rgb2hsv(vec3 rgb)", some .fixedPoint, "qs_rgb2hsv_q32",
    ofInts fun a => (rgbToHsvFixed (a 0) (a 1) (a 2)).toList⟩,
  ⟨43, "vec4 lpfx_rgb2hsv(vec4 rgb)", some .float, "qs_rgb2hsv_vec4_f32",
    ofFloats fun a => (rgbToHsvFloat (a 0) (a 1) (a 2)).toList ++ [a 3]⟩,
  ⟨44, "vec4 lpfx_rgb2hsv(vec4 rgb)", some .fixedPoint, "qs_rgb2hsv_vec4_q32",
    ofInts fun a => (rgbToHsvFixed (a 0) (a 1) (a 2)).toList ++ [a 3]⟩,
  ⟨46, "vec2 lpfx_rotate2(vec2 p, float angle)", some .float, "qs_rotate2_f32",
    ofFloats fun a => rotateFloat (a 0) (a 1) (a 2)⟩,
  ⟨47, "vec2 lpfx_rotate2(vec2 p, float angle)", some .fixedPoint, "qs_rotate2_q32",
    ofInts fun a => rotateFixed (a 0) (a 1) (a 2)⟩,
  ⟨49, "uint lpfx_hash(uint x, uint seed)", none, "qs_hash_u32",
    ofWords fun a => [hash (a 0) (a 1)]⟩]

def CatalogRow.declare (row : CatalogRow) : Except Diagnostic Implementation :=
  match Prototype.parse row.prototype with
  | .error e => .error (Prototype.parseDiagnostic row.prototype e)
  | .ok p =>
    .ok ⟨p, row.variant, row.symbol, "Builtins.def:" ++ toString row.line, some row.routine⟩

def catalog : Except Diagnostic (List Implementation) := catalogRows.mapM CatalogRow.declare

def defaultRegistry : Except LoweringError Registry :=
  match catalog with
  | .error d => .error (.malformedPrototype d.message)
  | .ok decls => Registry.create decls

end FixedIL.Builtin
