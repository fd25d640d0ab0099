import PageMend.CommandLine.Run
import Std.Time.DateTime.Timestamp

/-!
# The program

Takes a picture of the files that a command may look at, runs the command on the picture, and
writes down what has changed in it. What the command does is decided by `CommandLine.run` alone.
-/

namespace PageMend.Program

open CommandLine Storage

/-! ### Looking -/

/-- The location of a path that starts at the root. -/
def locationOf (path : String) : Location := (Path.segments path).filter (· ≠ "")

/-- The path of a location. -/
def pathOf (loc : Location) : String := "/" ++ "/".intercalate loc

/-- Adds the entry at the end of a location, and what a link there leads to. -/
def lookAtEntry (fs : FileSystem) (loc : Location) : IO FileSystem := do
  let entry : IO.FS.DirEntry := ⟨pathOf loc.dropLast, loc.getLastD ""⟩
  try
    match (← entry.path.symlinkMetadata).type with
    | .dir => return fs.put loc .directory
    | .symlink =>
      let goal ← try some <$> IO.FS.realPath entry.path catch _ => pure none
      match goal with
      | none => return fs.put loc (.link "/nowhere")
      | some goal =>
        let target := locationOf goal.toString
        let fs := (fs.makeDirectories [] target.dropLast).1.put loc (.link goal.toString)
        if ← goal.isDir then return fs.put target .directory
        else return fs.put target (.file (← IO.FS.readBinFile goal))
    | _ => return fs.put loc (.file (← IO.FS.readBinFile entry.path))
  catch _ => return fs

/-- Adds all entries that a path goes through. -/
def lookAt (fs : FileSystem) (path : String) : IO FileSystem := do
  let start := if Path.isAbsolute path then [] else fs.workingDirectory
  let mut fs := fs
  let mut here := start
  for name in (Path.segments path).filter (fun s => s ≠ "" ∧ s ≠ ".") do
    if name = ".." then
      here := here.dropLast
    else
      fs ← lookAtEntry fs (here ++ [name])
      here := here ++ [name]
      if let some (.link target) := fs.entryAt? here then
        here := locationOf target
  return fs

/-- Adds the entries of a directory. -/
def lookInside (fs : FileSystem) (path : String) : IO FileSystem := do
  match fs.locate path with
  | .ok (.taken loc .directory) =>
    let mut fs := fs
    for entry in ← (← IO.FS.realPath (pathOf loc)).readDir do
      fs ← lookAtEntry fs (loc ++ [entry.fileName])
    return fs
  | _ => return fs

/-- A picture of the files that a command may look at. -/
def picture (arguments : List String) : IO FileSystem := do
  let here := locationOf (← IO.currentDir).toString
  let fs := (FileSystem.makeDirectories { entries := [], workingDirectory := here } [] here).1
  match Command.ofArguments arguments with
  | .ok (.mend directory options) =>
    let fs ← options.config.toList.foldlM lookAt fs
    let fs ← options.report.toList.foldlM lookAt fs
    lookInside (← lookAt fs directory) directory
  | _ => return fs

/-! ### Writing -/

/-- Writes down the files that are not as they were. An entry that was there is replaced as a
whole. -/
def writeDown (stamp : String) (before after : FileSystem) : IO Unit := do
  for (loc, entry) in after.entries do
    if before.entryAt? loc ≠ some entry then
      if let .file bytes := entry then
        if (before.entryAt? loc).isSome then
          let temporary := pathOf (loc.dropLast ++ ["." ++ stamp ++ ".tmp"])
          IO.FS.writeBinFile temporary bytes
          IO.FS.rename temporary (pathOf loc)
        else IO.FS.writeBinFile (pathOf loc) bytes

/-- The time, and a text that no file name has. -/
def occasion : IO Occasion := do
  let now ← Std.Time.Timestamp.now
  let noise ← IO.getRandomBytes 16
  let digits := noise.toList.flatMap fun b =>
    [Nat.digitChar (b.toNat / 16), Nat.digitChar (b.toNat % 16)]
  return ⟨.ofUnixTime now.val.second.val now.val.nano.val.toNat, String.ofList digits⟩

end PageMend.Program

open PageMend PageMend.Program in
def main (arguments : List String) : IO UInt32 := do
  let start ← IO.monoMsNow
  let occasion ← occasion
  let before ← picture arguments
  let outcome := CommandLine.run before occasion arguments
  writeDown occasion.stamp before outcome.fs
  IO.print (outcome.output ((← IO.monoMsNow) - start))
  IO.eprint outcome.errors
  return outcome.exitCode.toUInt32
