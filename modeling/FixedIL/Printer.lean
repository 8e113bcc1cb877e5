import FixedIL.Program

/-!
The text form of programs. An instruction shows the fields that its operation uses;
a value name follows its definition as a comment.
-/
namespace FixedIL.Printer

def commaList (xs : List String) : String := ", ".intercalate xs

def values (vs : List Value) : String := commaList (vs.map Value.text)

def target (i : Instr) (k : Nat) : String :=
  let args := (i.branchArgs[k]?).getD []
  (i.labels[k]?).getD "" ++ if args.isEmpty then "" else "(" ++ values args ++ ")"

def defines (i : Instr) : String :=
  if i.results.isEmpty then ""
  else commaList (i.results.map (fun r => Value.tempText r.id)) ++ " = "

def behind (lead : String) (vs : List Value) : String :=
  if vs.isEmpty then "" else lead ++ values vs

def body (i : Instr) : String :=
  match i.op with
  | .call =>
    "call @" ++ i.callee ++ "(" ++ values i.operands ++ ")" ++
      if i.results.isEmpty then ""
      else " -> (" ++ commaList (i.results.map (fun r => r.type.name)) ++ ")"
  | .br => "br " ++ target i 0
  | .cbr => "cbr " ++ values (i.operands.take 1) ++ ", " ++ target i 0 ++ ", " ++ target i 1
  | .ret => "ret" ++ behind " " i.operands
  | op =>
    op.mnemonic ++ (if i.type = .void then "" else "." ++ i.type.name) ++ behind " " i.operands

def instr (i : Instr) : String := defines i ++ body i

def nameComment (names : List String) (i : Instr) : String :=
  match i.results with
  | [] => ""
  | r :: _ =>
    let name := (names[r.id.toNat]?).getD ""
    if name.isEmpty then "" else "  ; " ++ name

def param (t : Temp) : String := Value.tempText t.id ++ ": " ++ t.type.name

def block (names : List String) (b : Block) : String :=
  b.label ++
    (if b.params.isEmpty then "" else "(" ++ commaList (b.params.map param) ++ ")") ++ ":\n" ++
    String.join (b.instrs.map (fun i => "  " ++ instr i ++ nameComment names i ++ "\n"))

def slot (s : FrameSlot × Nat) : String :=
  "  slot" ++ toString s.2 ++ ": size " ++ toString s.1.size.toNat ++
    ", align " ++ toString s.1.align.toNat ++ "\n"

def function (f : Function) : String :=
  "func @" ++ f.name ++ f.sig.text ++ " \x7b\n" ++ String.join (f.slots.zipIdx.map slot) ++
    String.join (f.blocks.map (block f.valueNames)) ++ "\x7d\n"

def externDecl (e : Extern) : String := "extern @" ++ e.name ++ e.sig.text ++ "\n"

def program (p : Program) : String :=
  let lead := if p.externs.isEmpty then "" else "\n"
  String.join (p.externs.map externDecl) ++
    if p.functions.isEmpty then "" else lead ++ "\n".intercalate (p.functions.map function)

end FixedIL.Printer
