import FixedIL.Signature

/-!
Shader-level prototypes of builtins: types, parameter directions, the key by which
implementations are grouped, and the flat signature of scalar lanes in each domain.
-/
namespace FixedIL.Builtin

inductive ShaderTy where
  | void
  | bool
  | int
  | uint
  | float
  | vec2
  | vec3
  | vec4
  deriving DecidableEq, Repr

namespace ShaderTy

def name : ShaderTy → String
  | .void => "void"
  | .bool => "bool"
  | .int => "int"
  | .uint => "uint"
  | .float => "float"
  | .vec2 => "vec2"
  | .vec3 => "vec3"
  | .vec4 => "vec4"

def all : List ShaderTy := [.void, .bool, .int, .uint, .float, .vec2, .vec3, .vec4]

def lanes : ShaderTy → Nat
  | .void => 0
  | .vec2 => 2
  | .vec3 => 3
  | .vec4 => 4
  | _ => 1

def isVector (t : ShaderTy) : Bool := 1 < t.lanes

end ShaderTy

inductive Direction where
  | input
  | output
  | both
  deriving DecidableEq, Repr

namespace Direction

def name : Direction → String
  | .input => "in"
  | .output => "out"
  | .both => "inout"

def all : List Direction := [.input, .output, .both]

end Direction

inductive Variant where
  | float
  | fixedPoint
  deriving DecidableEq, Repr

namespace Variant

def name : Variant → String
  | .float => "Float"
  | .fixedPoint => "FixedPoint"

def other : Variant → Variant
  | .float => .fixedPoint
  | .fixedPoint => .float

end Variant

structure Param where
  name : String
  type : ShaderTy
  direction : Direction
  deriving DecidableEq, Repr

structure Prototype where
  name : String
  returns : ShaderTy
  params : List Param
  deriving DecidableEq, Repr

namespace Param

def shape (p : Param) : ShaderTy × Direction := (p.type, p.direction)

def keyText (p : Param) : String := p.direction.name ++ " " ++ p.type.name

def text (p : Param) : String := p.keyText ++ if p.name.isEmpty then "" else " " ++ p.name

end Param

namespace Prototype

def key (p : Prototype) : String :=
  p.name ++ "|" ++ p.returns.name ++ String.join (p.params.map (fun q => "|" ++ q.keyText))

def sameShape (p q : Prototype) : Bool :=
  p.returns = q.returns && p.params.map Param.shape = q.params.map Param.shape

def text (p : Prototype) : String :=
  p.returns.name ++ " " ++ p.name ++ "(" ++ ", ".intercalate (p.params.map Param.text) ++ ")"

def paramTypes (p : Prototype) : List ShaderTy := p.params.map Param.type

end Prototype

def laneTy (v : Variant) : ShaderTy → Ty
  | .bool => .i1
  | .int | .uint => .i32
  | _ => match v with
    | .float => .f32
    | .fixedPoint => .i32

def lanesOf (v : Variant) (t : ShaderTy) : List Ty := List.replicate t.lanes (laneTy v t)

def Param.flatten (v : Variant) (p : Param) : List Ty :=
  if p.direction = .input then lanesOf v p.type else [.ptr]

def Prototype.flatten (v : Variant) (p : Prototype) : Signature :=
  .ofTypes (p.params.flatMap (Param.flatten v)) (lanesOf v p.returns)

end FixedIL.Builtin
