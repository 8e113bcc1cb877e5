import FixedIL.WellFormed

/-!
The last check before code leaves for a target without floating point: nothing in a
function may have a float type or be a float literal.
-/
namespace FixedIL.FloatFree

open WellFormed (require)

def instr? (i : Instr) : Option Fault :=
  require (!i.type.isFloat) .floatInstr <|>
  require (!i.results.any (·.type.isFloat)) .floatResult <|>
  require (!i.operands.any Value.isFloat) .floatLiteral

def block? (name : String) (b : Block) : Option Violation :=
  (require (!b.params.any (·.type.isFloat)) (.floatParam b.label)).map (⟨name, none, ·⟩) <|>
  b.instrs.findSome? fun i => (instr? i).map (⟨name, some i, ·⟩)

end FixedIL.FloatFree

namespace FixedIL

/-- Branch arguments are not looked at. A float among them goes to a parameter of float type, which
already counts, unless it is a literal. -/
def Function.float? (f : Function) : Option Violation :=
  (WellFormed.require (!f.sig.mentionsFloat) .floatSignature).map (⟨f.name, none, ·⟩) <|>
  f.blocks.findSome? (FloatFree.block? f.name)

end FixedIL
