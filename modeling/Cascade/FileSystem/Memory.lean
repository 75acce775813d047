import Cascade.FileSystem

/-!
# Files in memory

A set of files and the aliases of some paths, as lists. Paths with one key are
one file. An alias gives a path another canonical name, or none.
-/

namespace Cascade

structure MemoryFiles where
  files : List (Path × Contents)
  /-- The canonical names of the paths that are not their own. -/
  aliases : List (Path × Option Path)

namespace MemoryFiles

def empty : MemoryFiles := ⟨[], []⟩

/-- The entry of the first path in a table that names the same file. -/
def find? {α : Type} (p : Path) (table : List (Path × α)) : Option α :=
  (table.find? fun (q, _) => q.key == p.key).map Prod.snd

/-- A table with one entry for the path, in front. -/
def put {α : Type} (p : Path) (a : α) (table : List (Path × α)) : List (Path × α) :=
  (p, a) :: table.filter fun (q, _) => q.key != p.key

def write (p : Path) (contents : Contents) (m : MemoryFiles) : MemoryFiles :=
  { m with files := put p contents m.files }

def remove (p : Path) (m : MemoryFiles) : MemoryFiles :=
  { m with files := m.files.filter fun (q, _) => q.key != p.key }

def setAlias (p : Path) (target : Option Path) (m : MemoryFiles) : MemoryFiles :=
  { m with aliases := put p target m.aliases }

def contains (p : Path) (m : MemoryFiles) : Bool := (find? p m.files).isSome

def canonical? (m : MemoryFiles) (p : Path) : Option Path :=
  (find? p m.aliases).getD (some p)

theorem find?_congr {α : Type} {p q : Path} (h : p.key = q.key) (table : List (Path × α)) :
    find? p table = find? q table := by
  simp [find?, h]

theorem canonicalKey_congr (m : MemoryFiles) {p q : Path} (h : p.key = q.key) :
    ((m.canonical? p).getD p).key = ((m.canonical? q).getD q).key := by
  simp only [canonical?, find?_congr h]
  cases find? q m.aliases with
  | none => simpa using h
  | some target => cases target <;> simp [h]

theorem exists_of_contains {m : MemoryFiles} {p : Path} (h : m.contains p = true) :
    ∃ entry ∈ m.files, entry.1.key = p.key := by
  simp only [contains, find?, Option.isSome_map, List.find?_isSome, beq_iff_eq] at h
  exact h

/-- The files as a file system. Reading an absent file fails with its path. -/
def fileSystem (m : MemoryFiles) : FileSystem where
  isFile p := m.contains p
  read p := (find? p m.files).getD (.unreadable (p.text ++ " does not exist"))
  canonical? := m.canonical?
  keys := m.files.map fun (p, _) => ((m.canonical? p).getD p).key
  mem_keys p h := by
    obtain ⟨entry, mem, same⟩ := exists_of_contains h
    exact List.mem_map.mpr ⟨entry, mem, m.canonicalKey_congr same⟩

end MemoryFiles

end Cascade
