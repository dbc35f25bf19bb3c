import SuperH.Cli.Command

/-!
# The program

Reads the files that a command names, runs it, and writes its output.
-/

open SuperH.Cli

/-- The content of a file that can be read. -/
def readIfPresent (path : String) : IO (Option ByteArray) := do
  try
    return some (← IO.FS.readBinFile path)
  catch _ =>
    return none

def main (words : List String) : IO UInt32 := do
  let paths := ((Command.ofWords? words).map Command.files).getD []
  let contents ← paths.mapM fun path => return (path, ← readIfPresent path)
  let outcome := run words fun path => (contents.lookup path).join
  (← IO.getStdout).putStr outcome.stdout
  (← IO.getStderr).putStr outcome.stderr
  return outcome.exitCode.toUInt32
