import ChordOverlay.Console.Fault

/-!
The home folder in paths.
-/

namespace ChordOverlay.Console

/-- Puts the home folder in place of a tilde that is the first step of a path. -/
def expandHome (home : Option String) (path : String) : Except Fault String :=
  match Path.afterTilde? path, home with
  | none, _ => .ok path
  | some rest, some home => .ok (Path.below home rest)
  | some _, none => .error .noHome

end ChordOverlay.Console
