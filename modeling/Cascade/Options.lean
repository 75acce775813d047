import Cascade.FileSystem

/-!
# Options

What the one who compiles a stylesheet decides.
-/

namespace Cascade

structure Options where
  fileSystem : FileSystem := .empty
  /-- Directories to search for imports, in order, after the one an import is
  relative to. -/
  loadPaths : List Path := []
  /-- The directory that `@import <name>` is relative to. -/
  basePath : Path := ⟨[]⟩
  /-- Drop every diagnostic. -/
  quiet : Bool := false
  /-- Report what the reader recognizes. `quiet` takes precedence. -/
  verbose : Bool := false
  /-- Draw error messages with box characters. -/
  unicode : Bool := true

end Cascade
