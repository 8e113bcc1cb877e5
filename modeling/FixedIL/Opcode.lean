/-!
Operation codes and what is fixed about each: mnemonic, category, how many results
and operands, whether it has an effect and whether it ends a block.
-/
namespace FixedIL

inductive IntOp where
  | add
  | sub
  | mul
  | sdiv
  | udiv
  | srem
  | urem
  | and
  | or
  | xor
  | shl
  | lshr
  | ashr
  deriving DecidableEq, Repr

inductive IntCompare where
  | eq
  | ne
  | slt
  | sle
  | sgt
  | sge
  | ult
  | ule
  | ugt
  | uge
  deriving DecidableEq, Repr

inductive FloatOp where
  | add
  | sub
  | mul
  | div
  | neg
  | abs
  | min
  | max
  | sqrt
  deriving DecidableEq, Repr

inductive FloatCompare where
  | eq
  | ne
  | lt
  | le
  | gt
  | ge
  deriving DecidableEq, Repr

inductive Opcode where
  | iconst
  | fconst
  | int (op : IntOp)
  | icmp (c : IntCompare)
  | sext
  | zext
  | trunc
  | zext1
  | trunc1
  | select
  | float (op : FloatOp)
  | frem
  | fcmp (c : FloatCompare)
  | sitofp
  | fptosi
  | fpext
  | fptrunc
  | tofixed
  | fromfixed
  | stackaddr
  | load
  | store
  | call
  | br
  | cbr
  | ret
  deriving DecidableEq, Repr

inductive Category where
  | constant
  | integer
  | boolean
  | floatArith
  | floatCompare
  | conversion
  | memory
  | call
  | control
  | floatRemainder
  deriving DecidableEq, Repr

def Category.name : Category → String
  | .constant => "constant"
  | .integer => "integer"
  | .boolean => "boolean"
  | .floatArith => "float-arith"
  | .floatCompare => "float-compare"
  | .conversion => "conversion"
  | .memory => "memory"
  | .call => "call"
  | .control => "control"
  | .floatRemainder => "float-remainder"

inductive ResultArity where
  | none
  | one
  | variadic
  deriving DecidableEq, Repr

def ResultArity.name : ResultArity → String
  | .none => "none"
  | .one => "one"
  | .variadic => "variadic"

namespace IntOp

def mnemonic : IntOp → String
  | .add => "add"
  | .sub => "sub"
  | .mul => "mul"
  | .sdiv => "sdiv"
  | .udiv => "udiv"
  | .srem => "srem"
  | .urem => "urem"
  | .and => "and"
  | .or => "or"
  | .xor => "xor"
  | .shl => "shl"
  | .lshr => "lshr"
  | .ashr => "ashr"

def all : List IntOp :=
  [.add, .sub, .mul, .sdiv, .udiv, .srem, .urem, .and, .or, .xor, .shl, .lshr, .ashr]

end IntOp

namespace IntCompare

def mnemonic : IntCompare → String
  | .eq => "icmp_eq"
  | .ne => "icmp_ne"
  | .slt => "scmp_lt"
  | .sle => "scmp_le"
  | .sgt => "scmp_gt"
  | .sge => "scmp_ge"
  | .ult => "ucmp_lt"
  | .ule => "ucmp_le"
  | .ugt => "ucmp_gt"
  | .uge => "ucmp_ge"

def all : List IntCompare :=
  [.eq, .ne, .slt, .sle, .sgt, .sge, .ult, .ule, .ugt, .uge]

end IntCompare

namespace FloatOp

def mnemonic : FloatOp → String
  | .add => "fadd"
  | .sub => "fsub"
  | .mul => "fmul"
  | .div => "fdiv"
  | .neg => "fneg"
  | .abs => "fabs"
  | .min => "fmin"
  | .max => "fmax"
  | .sqrt => "fsqrt"

def all : List FloatOp := [.add, .sub, .mul, .div, .neg, .abs, .min, .max, .sqrt]

def operands : FloatOp → Nat
  | .neg | .abs | .sqrt => 1
  | _ => 2

end FloatOp

namespace FloatCompare

def mnemonic : FloatCompare → String
  | .eq => "fcmp_eq"
  | .ne => "fcmp_ne"
  | .lt => "fcmp_lt"
  | .le => "fcmp_le"
  | .gt => "fcmp_gt"
  | .ge => "fcmp_ge"

def all : List FloatCompare := [.eq, .ne, .lt, .le, .gt, .ge]

def onEncodings : FloatCompare → IntCompare
  | .eq => .eq
  | .ne => .ne
  | .lt => .slt
  | .le => .sle
  | .gt => .sgt
  | .ge => .sge

end FloatCompare

namespace Opcode

def all : List Opcode :=
  [.iconst, .fconst] ++ IntOp.all.map .int ++ IntCompare.all.map .icmp ++
    [.sext, .zext, .trunc, .zext1, .trunc1, .select] ++ FloatOp.all.map .float ++ [.frem] ++
    FloatCompare.all.map .fcmp ++
    [.sitofp, .fptosi, .fpext, .fptrunc, .tofixed, .fromfixed, .stackaddr, .load, .store,
      .call, .br, .cbr, .ret]

theorem memAll (op : Opcode) : op ∈ all := by
  cases op <;> (try rename_i x; cases x) <;> decide

def mnemonic : Opcode → String
  | .iconst => "iconst"
  | .fconst => "fconst"
  | .int op => op.mnemonic
  | .icmp c => c.mnemonic
  | .sext => "sext"
  | .zext => "zext"
  | .trunc => "trunc"
  | .zext1 => "zext1"
  | .trunc1 => "trunc1"
  | .select => "select"
  | .float op => op.mnemonic
  | .frem => "frem"
  | .fcmp c => c.mnemonic
  | .sitofp => "sitofp"
  | .fptosi => "fptosi"
  | .fpext => "fpext"
  | .fptrunc => "fptrunc"
  | .tofixed => "tofixed"
  | .fromfixed => "fromfixed"
  | .stackaddr => "stackaddr"
  | .load => "load"
  | .store => "store"
  | .call => "call"
  | .br => "br"
  | .cbr => "cbr"
  | .ret => "ret"

def ofMnemonic? (s : String) : Option Opcode := all.find? (fun op => op.mnemonic = s)

def category : Opcode → Category
  | .iconst | .fconst => .constant
  | .int _ | .icmp _ | .sext | .zext | .trunc => .integer
  | .zext1 | .trunc1 | .select => .boolean
  | .float _ => .floatArith
  | .frem => .floatRemainder
  | .fcmp _ => .floatCompare
  | .sitofp | .fptosi | .fpext | .fptrunc | .tofixed | .fromfixed => .conversion
  | .stackaddr | .load | .store => .memory
  | .call => .call
  | .br | .cbr | .ret => .control

def results : Opcode → ResultArity
  | .store | .br | .cbr | .ret => .none
  | .call => .variadic
  | _ => .one

def minOperands : Opcode → Nat
  | .call | .br | .ret => 0
  | .iconst | .fconst | .sext | .zext | .trunc | .zext1 | .trunc1 | .sitofp | .fptosi
  | .fpext | .fptrunc | .tofixed | .fromfixed | .cbr => 1
  | .int _ | .icmp _ | .frem | .fcmp _ | .stackaddr | .load => 2
  | .select | .store => 3
  | .float op => op.operands

def maxOperands? : Opcode → Option Nat
  | .call | .ret => none
  | op => some op.minOperands

def acceptsOperands (op : Opcode) (n : Nat) : Bool :=
  decide (op.minOperands ≤ n) && op.maxOperands?.all (fun most => decide (n ≤ most))

def hasSideEffects : Opcode → Bool
  | .store | .call | .br | .cbr | .ret => true
  | _ => false

def isTerminator : Opcode → Bool
  | .br | .cbr | .ret => true
  | _ => false

end Opcode
end FixedIL
