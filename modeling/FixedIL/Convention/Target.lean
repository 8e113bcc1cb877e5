/-!
Targets: what deciding where a result travels needs to know about a machine.
-/
namespace FixedIL

inductive Arch where
  | x86_64
  | aarch64
  | riscv32
  deriving DecidableEq, Repr

inductive RegisterClass where
  | integer
  | float
  deriving DecidableEq, Repr

/-- Sizes are bytes. Up to `maxHfaMembers` floats of one type return one to a register, if
the number is not zero. Without float return registers floats travel as integers. -/
structure Target where
  name : String
  arch : Arch
  gprBytes : Nat
  fprBytes : Nat
  maxRegisterReturnBytes : Nat
  maxHfaMembers : Nat
  hasFloatReturnRegs : Bool
  sretInRegister : Bool
  intReturnRegs : List String
  floatReturnRegs : List String
  sretLocation : String
  deriving DecidableEq, Repr

namespace Target

def x86_64Sysv : Target where
  name := "x86_64-sysv"
  arch := .x86_64
  gprBytes := 8
  fprBytes := 8
  maxRegisterReturnBytes := 16
  maxHfaMembers := 0
  hasFloatReturnRegs := true
  sretInRegister := false
  intReturnRegs := ["rax", "rdx"]
  floatReturnRegs := ["xmm0", "xmm1"]
  sretLocation := "rdi"

def aarch64Aapcs64 : Target where
  name := "aarch64-aapcs64"
  arch := .aarch64
  gprBytes := 8
  fprBytes := 8
  maxRegisterReturnBytes := 16
  maxHfaMembers := 4
  hasFloatReturnRegs := true
  sretInRegister := true
  intReturnRegs := ["x0", "x1"]
  floatReturnRegs := ["v0", "v1", "v2", "v3"]
  sretLocation := "x8"

def riscv32Ilp32 : Target where
  name := "riscv32-ilp32"
  arch := .riscv32
  gprBytes := 4
  fprBytes := 0
  maxRegisterReturnBytes := 8
  maxHfaMembers := 0
  hasFloatReturnRegs := false
  sretInRegister := false
  intReturnRegs := ["a0", "a1"]
  floatReturnRegs := []
  sretLocation := "a0"

def all : List Target := [x86_64Sysv, aarch64Aapcs64, riscv32Ilp32]

def host : Target := x86_64Sysv

instance : Inhabited Target := ⟨host⟩

def ofName? (name : String) : Option Target :=
  if name = "host" then some host else all.find? (fun t => t.name = name)

def isHost (t : Target) : Bool := t.arch = host.arch

def returnRegs (t : Target) : RegisterClass → List String
  | .integer => t.intReturnRegs
  | .float => t.floatReturnRegs

def registerName (t : Target) (c : RegisterClass) (index : Nat) : String :=
  ((t.returnRegs c)[index]?).getD "?"

def registerBytes (t : Target) : RegisterClass → Nat
  | .integer => t.gprBytes
  | .float => t.fprBytes

end Target
end FixedIL
