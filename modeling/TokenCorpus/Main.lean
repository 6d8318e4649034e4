import TokenCorpus.CommandLine.Program

/-!
The command line program.

The directory in which the program starts is the home of its file system. What lies below it is read
as a whole before the run, and what the run added or changed is stored after it. Links are taken to
lead where they lead now. Of what lies elsewhere nothing is read, and no file there is replaced.
-/

namespace TokenCorpus

namespace Storage

/-- The file system with a node at a path, if there is room for it. -/
def keep (fs : FileSystem) (path : Text) (node : FileNode) : FileSystem :=
  match fs.install path node with
  | .ok fs => fs
  | .error _ => fs

/-- The file system with a directory made and entered, if there is room for it. -/
def settle (fs : FileSystem) (path : Text) : FileSystem :=
  match (keep fs path .directory).goTo path with
  | .ok fs => fs
  | .error _ => fs

/-- The target of a link that leads nowhere: no name that was read holds this character. -/
def nowhere : Text := ['\x00']

/-- The target of a link, from the root on. -/
def linkTarget (entry : IO.FS.DirEntry) : IO Text := do
  try
    return (← IO.FS.realPath entry.path).toString.toList
  catch _ => return nowhere

/-- Adds the entries of a directory, and what lies below them, to a file system. What cannot be read
is left out. -/
partial def load (entries : Array IO.FS.DirEntry) (dir : Text) (fs : FileSystem) :
    IO FileSystem := do
  let mut fs := fs
  for entry in entries do
    let path := Path.join dir entry.fileName.toList
    try
      match (← entry.path.symlinkMetadata).type with
      | .dir =>
        fs := keep fs path .directory
        fs ← load (← entry.path.readDir) path fs
      | .symlink => fs := keep fs path (.link (← linkTarget entry))
      | .file => fs := keep fs path (.file (← IO.FS.readBinFile entry.path).data.toList)
      | .other => pure ()
    catch _ => pure ()
  return fs

/-- Stores what is new or different in `after`. A file that is new must be new on the disk as well. -/
def store (before after : FileSystem) : IO Unit := do
  for (location, node) in after.entries do
    let found := before.get? location
    if found ≠ some node then
      let path := String.ofList (location.reverse.flatMap fun name => '/' :: name.text)
      match node with
      | .directory => IO.FS.createDirAll path
      | .file content =>
        let handle ← IO.FS.Handle.mk path (if found = none then .writeNew else .write)
        handle.write ⟨content.toArray⟩
      | .link _ => pure ()

end Storage

/-- Whether the terminal is to show colours. -/
def coloursWanted : IO Bool := do
  if (← IO.getEnv "NO_COLOR").isSome then return false
  return match ← IO.getEnv "TERM" with
    | none => false
    | some terminal => terminal ≠ "dumb"

end TokenCorpus

open TokenCorpus in
/-- Runs the program from the directory in which it starts. -/
def main (arguments : List String) : IO UInt32 := do
  let start ← IO.currentDir
  let home := (← IO.FS.realPath start).toString.toList
  let fs ← Storage.load (← start.readDir) home (Storage.settle .empty home)
  let after := Program.run (arguments.map String.toList) fs (.empty none) (← coloursWanted)
  Storage.store fs after.fs
  for line in after.log do
    IO.eprintln (String.ofList line)
  IO.print (String.ofList after.console.shown)
  for line in after.ending.complaint do
    IO.eprintln (String.ofList line)
  if after.ending.status = 2 then
    IO.eprint (String.ofList Program.help)
  return after.ending.status.toUInt32
