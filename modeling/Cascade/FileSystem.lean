import Cascade.FileSystem.Contents
import Cascade.Path

/-!
# File systems

All that a stylesheet can ask of the files around it. Which file a path leads to
may depend on links, so a file system says what each path is called
canonically; a path it cannot resolve stands for itself. Imports are followed
only to files, and a file system names the keys of all its files, so that a
chain of imports that repeats no file ends.
-/

namespace Cascade

structure FileSystem where
  isFile : Path → Bool
  read : Path → Contents
  /-- The name of a file that is the same for every path to it. -/
  canonical? : Path → Option Path
  /-- The keys of the canonical names of all files. -/
  keys : List Path.Key
  mem_keys : ∀ p, isFile p = true → ((canonical? p).getD p).key ∈ keys

namespace FileSystem

/-- The identity of the file a path leads to. -/
def key (fs : FileSystem) (p : Path) : Path.Key := ((fs.canonical? p).getD p).key

theorem key_mem_keys (fs : FileSystem) {p : Path} (h : fs.isFile p = true) :
    fs.key p ∈ fs.keys :=
  fs.mem_keys p h

/-- The file system with no files in it. -/
def empty : FileSystem where
  isFile _ := false
  read p := .unreadable ("NullFs cannot read " ++ p.text)
  canonical? p := some p
  keys := []
  mem_keys _ h := nomatch h

end FileSystem

end Cascade
