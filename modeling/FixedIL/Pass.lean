import FixedIL.Pass.Context

/-!
Passes over whole functions and programs. A pass says how types, literals, externs and
single instructions change; blocks, parameters, labels and frame slots carry over.
-/
namespace FixedIL

structure Pass where
  name : String
  encoding : Encoding
  keepExterns : Program → Except LoweringError (List Extern)
  convert : Site → Instr → PassM Unit

namespace Pass

def site (pass : Pass) (p : Program) (f : Function) : Site := ⟨p, f, pass.encoding⟩

def defineParams (f : Function) (b : Block) : List Temp → PassM Unit
  | [] => return
  | t :: rest => do
    if (← get).isMapped t.id then
      PassM.fail (.malformed f.name (b.instrs.head?.getD default) (.definedTwice t.id))
    else
      PassM.mapValue t.id (.temp t.id)
      defineParams f b rest

def openBlocks (f : Function) : List Block → PassM Unit
  | [] => return
  | b :: rest => do
    defineParams f b b.params
    modify (·.mapLabel b.label b.label)
    openBlocks f rest

def openSlots (f : Function) : PassM Unit := do
  modify fun s => (List.range f.slots.length).foldl
    (fun s k => s.mapSlot k.toUInt32 k.toUInt32) s
  PassM.emit (modify fun e => { e with slots := f.slots })

def repeatedResult? (s : PassState) (seen : List TempId) : List TempId → Option TempId
  | [] => none
  | id :: rest =>
    if s.isMapped id || seen.contains id then some id else repeatedResult? s (id :: seen) rest

def instr (pass : Pass) (site : Site) (i : Instr) : PassM Unit := do
  PassM.emit (Emit.setLoc i.loc)
  match repeatedResult? (← get) [] (i.results.map Temp.id) with
  | some id => PassM.malformed site i (.definedTwice id)
  | none => pass.convert site i

def instrs (pass : Pass) (site : Site) : List Instr → PassM Unit
  | [] => return
  | i :: rest => do
    pass.instr site i
    instrs pass site rest

def block (pass : Pass) (site : Site) (b : Block) : PassM Block := do
  PassM.emit (modify fun e => { e with code := [] })
  pass.instrs site b.instrs
  return ⟨b.label, b.params.map (fun t => { t with type := pass.encoding.mapTy t.type }),
    (← get).emission.code⟩

/-- Follows what temporaries have become until nothing changes, for at most `hops` steps. -/
def resolve (s : PassState) (t : Encoding) : Nat → Value → Value
  | 0, v => v
  | hops + 1, v =>
    if v.isTemp then
      let next := s.operand t v
      if next.agrees v then v else resolve s t hops next
    else v

def resolveInstr (s : PassState) (t : Encoding) (hops : Nat) (i : Instr) : Instr :=
  { i with
    operands := i.operands.map (resolve s t hops)
    branchArgs := i.branchArgs.map (·.map (resolve s t hops)) }

def resolveBlock (s : PassState) (t : Encoding) (hops : Nat) (b : Block) : Block :=
  { b with instrs := b.instrs.map (resolveInstr s t hops) }

def function (pass : Pass) (p : Program) (f : Function) (sig : Signature) : PassM Function := do
  let site := pass.site p f
  openBlocks f f.blocks
  openSlots f
  PassM.emit (Emit.reserveBelow f.nextTemp)
  let blocks ← f.blocks.mapM (pass.block site)
  let s ← get
  return ⟨f.name, sig, blocks.map (resolveBlock s pass.encoding f.nextTemp.toNat),
    s.emission.slots, f.valueNames⟩

-- All that the function before leaves is hidden: `leftUnseen`.
def runFunction (pass : Pass) (p : Program) (externs : List Extern) (f : Function) :
    Except LoweringError (Function × List Extern) :=
  let sig := ((pass.site p f).signature? f.name).getD default
  let start : PassState := { PassState.blank (.fresh 0) with externs := externs }
  match (pass.function p f sig).run.run start with
  | (.ok f', s) => .ok (f', s.externs)
  | (.error e, _) => .error e

def startLine (pass : Pass) (f : Function) : String :=
  "[" ++ pass.name ++ "] rewriting @" ++ f.name ++ "\n"

def failLine (pass : Pass) (f : Function) (e : LoweringError) : String :=
  "[" ++ pass.name ++ "] failed @" ++ f.name ++ ": " ++ e.message ++ "\n"

def runFunctions (pass : Pass) (p : Program) (externs : List Extern) :
    List Function → List String × Except LoweringError (List Function × List Extern)
  | [] => ([], .ok ([], externs))
  | f :: rest =>
    match pass.runFunction p externs f with
    | .error e => ([pass.startLine f, pass.failLine f e], .error e)
    | .ok (f', externs) =>
      let (lines, r) := runFunctions pass p externs rest
      (pass.startLine f :: lines, r.map fun (fs, externs) => (f' :: fs, externs))

def runTraced (pass : Pass) (p : Program) : List String × Except LoweringError Program :=
  match pass.keepExterns p with
  | .error e => ([], .error e)
  | .ok externs =>
    let (lines, r) := pass.runFunctions p externs p.functions
    (lines, r.map fun (functions, externs) => ⟨externs, functions⟩)

def run (pass : Pass) (p : Program) : Except LoweringError Program := (pass.runTraced p).2

end Pass

def Pass.identity : Pass where
  name := "identity"
  encoding := ⟨id, .float⟩
  keepExterns p := .ok p.externs
  convert := PassM.copy

end FixedIL
