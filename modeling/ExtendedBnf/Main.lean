import ExtendedBnf.CommandLine

/-!
# The program

Gives the command line the real file system and the standard streams.
-/
namespace ExtendedBnf

/-- What a failed access says of a file. -/
def fileProblem : IO.Error → CommandLine.FileProblem
  | .noFileOrDirectory .. => .notFound
  | problem => .other (toString problem).toList

/-- The real file system. -/
def diskFiles : CommandLine.Files IO where
  read path := do
    try return .ok (← IO.FS.readBinFile (String.ofList path))
    catch problem => return .error (fileProblem problem)
  write path bytes := do
    try
      IO.FS.writeBinFile (String.ofList path) bytes
      return .ok ()
    catch problem => return .error (fileProblem problem)

end ExtendedBnf

def main (arguments : List String) : IO UInt32 := do
  let outcome ← ExtendedBnf.CommandLine.run ExtendedBnf.diskFiles (arguments.map String.toList)
  (← IO.getStderr).putStr (String.ofList (outcome.notes ++ outcome.errors))
  (← IO.getStdout).putStr (String.ofList outcome.output)
  return outcome.exitCode
