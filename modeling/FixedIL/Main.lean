import FixedIL.CommandLine

/-!
The program: arguments in, texts and exit code out.
-/

def main (args : List String) : IO UInt32 := do
  let reply := FixedIL.CommandLine.run args
  (← IO.getStdout).putStr reply.out
  (← IO.getStderr).putStr reply.err
  return reply.code
