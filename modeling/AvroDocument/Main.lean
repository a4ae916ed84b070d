import AvroDocument.CommandLine

/-!
# AvroDocument.Main

The program: reads the files that a command line names, carries the request out, and writes the files
that changed.
-/

namespace AvroDocument
namespace Main

open CommandLine

/-- Takes up a file from disk, if it can be read. -/
def load (folder : Folder) (name : String) : IO Folder := do
  match ← (IO.FS.readBinFile name).toBaseIO with
  | .ok bytes => return ⟨Folder.assign (Folder.steps name) bytes.toList folder.files⟩
  | .error _ => return folder

def save (file : List String × List UInt8) : IO Unit := do
  let (route, bytes) := file
  if 1 < route.length then IO.FS.createDirAll (Folder.nameOf route.dropLast)
  IO.FS.writeBinFile (Folder.nameOf route) ⟨bytes.toArray⟩

def carryOut (request : Request) : IO UInt32 := do
  let folder ← request.reads.foldlM load {}
  let marker ← IO.getRandomBytes 16
  let report := (request.withSyncMarker marker.toList).run folder
  (report.folder.changedSince folder).forM save
  report.warnings.forM fun text => IO.eprintln ("WARNING: " ++ text)
  IO.print report.output
  return UInt32.ofNat report.exitCode

/-- Carries out a command line; a wrong one is told how it should look. -/
def run (texts : List String) : IO UInt32 := do
  match Request.ofTexts? texts with
  | some request => carryOut request
  | none =>
    IO.eprint usage
    return 2

end Main
end AvroDocument

def main (args : List String) : IO UInt32 := AvroDocument.Main.run args
