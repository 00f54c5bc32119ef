import Reword.CommandLine.Program
import Reword.Volume.Listing
/-!
# The program on the real file system

The command line runs on a volume that holds what it will read of the real file system: the
root with everything below it, the rules file, and every target of a link met on the way, each
at its absolute path. A link is held with the canonical path of its target; a link whose target
cannot be found is held with a target that names nothing. After the run, every file the run
replaced is written back in place, which keeps its permissions; reading and writing back are all
this layer does.
-/

namespace Reword

namespace Disk

open System in
/-- Adds the node at an absolute path to the volume, with all below it and the targets of its
links; `seen` holds the paths already added. -/
partial def load (v : Volume) (seen : List String) (path : String) : IO (Volume × List String) := do
  if path ∈ seen then return (v, seen)
  let seen := path :: seen
  let some info ← (try pure (some (← FilePath.symlinkMetadata path)) catch _ => pure none)
    | return (v, seen)
  let v := (v.mkdirRecursive 0 (Path.parent path)).toOption.getD v
  match info.type with
  | .dir =>
    let v := (v.mkdirRecursive 0 path).toOption.getD v
    let entries ← (try (FilePath.readDir path) catch _ => pure #[])
    entries.foldlM (fun (v, seen) e => load v seen (Path.child path e.fileName)) (v, seen)
  | .file =>
    let bytes ← (try pure (some (← IO.FS.readBinFile path)) catch _ => pure none)
    match bytes with
    | some b => return ((v.writeFile 0 path b.toList).toOption.getD v, seen)
    | none => return (v, seen)
  | .symlink =>
    match ← (try pure (some (← IO.FS.realPath path)) catch _ => pure none) with
    | some target =>
      let v := (v.symlink target.toString path).toOption.getD v
      load v seen target.toString
    | none => return ((v.symlink "/\x00" path).toOption.getD v, seen)
  | .other =>
    match v.parentOf path with
    | .ok (.entry dir name _) => return (v.update (dir ++ [name]) fun _ => some (.special 0o644), seen)
    | _ => return (v, seen)

/-- Writes back every file that the run replaced. -/
def store (before after : Volume) : IO Unit := do
  for rel in Volume.replacedFiles before after "/" do
    let path := "/" ++ rel
    match after.readFile path with
    | .ok bytes => IO.FS.writeBinFile path ⟨bytes.toArray⟩
    | .error _ => pure ()

/-- Waits for ever, as a run that never returns does. -/
partial def waitForever : IO Unit := do
  IO.sleep 1000
  waitForever

/-- Prints a log line on its channel. -/
def emit (line : LogLine) : IO Unit :=
  match line.level with
  | .log => IO.println line.text
  | _ => IO.eprintln line.text

end Disk

end Reword

open Reword in
/-- Runs the command line on the real file system and returns its exit status. -/
def main (args : List String) : IO UInt32 := do
  let cwd := (← IO.currentDir).toString
  let host := Host.standard cwd 0
  let wanted :=
    match CommandLine.parse CommandLine.program args with
    | .ok inv =>
      let o := CommandLine.optionsOf inv
      Path.resolve cwd (o.root.getD ".") :: (o.rulesFile.toList.map (Path.resolve cwd ·))
    | .error _ => []
  let (before, _) ← wanted.foldlM (fun (v, seen) p => Disk.load v seen p) (Volume.empty, [])
  let ran := CommandLine.run host before args
  let some answer := ran.result | do Disk.waitForever; return 1
  IO.print answer.out
  IO.eprint answer.err
  ran.logs.forM Disk.emit
  Disk.store before ran.volume
  return (answer.stop.map CommandLine.Stop.exitCode |>.getD answer.status).toUInt32
