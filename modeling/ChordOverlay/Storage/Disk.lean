import ChordOverlay.SystemFault
import ChordOverlay.Storage.Files

/-!
Files on the disk of this machine.
-/

namespace ChordOverlay.Disk

/-- Does some work on a path; a path with a zero in it never reaches the machine. -/
def attempt {α : Type} (path : Path) (work : String → IO α) : IO (Except FileFault α) := do
  let text := path.text
  if text.contains '\x00' then return .error .nulByte
  match ← (work text).toBaseIO with
  | .ok a => return .ok a
  | .error e => return .error (SystemFault.toFileFault e)

/-- Meets one request. -/
def meet : (op : FileOp) → IO (FileOps.Answer op)
  | .isFolder path => do
    match ← attempt path fun text => IO.FS.realPath (Path.below text ".") with
    | .ok _ => return true
    | .error _ => return false
  | .makeFolder path => attempt path fun text => IO.FS.createDir text
  | .write path text => attempt path fun place => IO.FS.writeFile place text
  | .read path => do
    match ← attempt path fun text => IO.FS.Handle.mk text .read with
    | .error fault => return .error fault
    | .ok handle =>
      match ← handle.readBinToEnd.toBaseIO with
      | .ok bytes => return .ok (String.fromUTF8? bytes)
      | .error _ => return .ok none

end ChordOverlay.Disk
