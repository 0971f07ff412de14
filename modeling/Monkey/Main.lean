import Monkey.CommandLine

/-!
# The program

Runs the command line on standard input and on the files of the current directory, and writes back
the files that have changed.
-/

namespace Monkey

/-- All bytes of a stream. -/
partial def readAll (stream : IO.FS.Stream) (bytes : ByteArray) : IO ByteArray := do
  let chunk ← stream.read 65536
  if chunk.isEmpty then return bytes else readAll stream (bytes ++ chunk)

/-- The files of the current directory, directories apart. -/
def currentFiles : IO Host.Directory := do
  let directory ← IO.currentDir
  let mut files := []
  for entry in ← directory.readDir do
    unless ← entry.path.isDir do
      files := (entry.fileName, ← IO.FS.readBinFile entry.path) :: files
  return ⟨files⟩

/-- Writes the files whose content has changed. -/
def saveFiles (before after : Host.Directory) : IO Unit := do
  for (name, content) in after.files do
    unless before.files.lookup name == some content do
      IO.FS.writeBinFile name content

attribute [local instance (high)] instPowNat in
/-- More steps than any run takes. -/
def unlimited : Nat := 10 ^ (18 : Nat)

end Monkey

open Monkey in
def main (args : List String) : IO UInt32 := do
  let input ← readAll (← IO.getStdin) .empty
  let files ← currentFiles
  match CommandLine.execute unlimited args input.toList files with
  | none => return 1
  | some report =>
    (← IO.getStdout).write report.out
    (← IO.getStderr).putStr report.err
    saveFiles files report.files
    return report.exitCode.toUInt32
