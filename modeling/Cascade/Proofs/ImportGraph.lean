import Cascade.Proofs.Loading
import Cascade.Proofs.Reading
import Mathlib.Logic.Relation

/-!
# Which file imports which

What a file imports can be told from its text, without reading any other file: each of
its import statements leads to the first file that its name can stand for. So the files
form a graph, and a file may come to import itself, directly or through others
(`Options.ReachesCycle`).

While a file is read, the keys of the files that it is being read for form a stack, and
the stack is a path in the graph. An import of a file on the stack closes a cycle
(`Options.Stacked.reachesCycle`). And where a file has been read with success, all that
can be reached from it has been, each file below another stack, so that no cycle can be
reached (`Options.Accepts.not_reachesCycle`).
-/

namespace Cascade

open Relation (ReflTransGen)

/-- The import statements of a source, up to where its structure breaks. -/
def Outline.imports : Outline → List Slice
  | closed | broken _ _ => []
  | statement (.importing whole) rest => whole :: rest.imports
  | statement _ rest => rest.imports
  | block _ body rest => body.imports ++ rest.imports

namespace Options

variable {options : Options} {entry p q : Path}

/-- An import statement in the file leads to another file. -/
def Leads (options : Options) (p : Path) (whole : Slice) (q : Path) : Prop :=
  ∃ target, ImportTarget.read? (Text.trim (whole.collapsed.drop "@import".length)) = some target ∧
    target.find? options p = some q

/-- One of the import statements of the file leads to the other. -/
def Imports (options : Options) (p q : Path) : Prop :=
  ∃ text, options.fileSystem.read p = .text text ∧
    ∃ whole ∈ (Outline.ofText text).imports, options.Leads p whole q

/-- The file imports the other to read it in turn, and not to copy it. -/
def Enters (options : Options) (p q : Path) : Prop :=
  options.Imports p q ∧ q.extension? ≠ some "css".toList

/-- A file that can be reached imports itself, directly or through others. -/
def ReachesCycle (options : Options) (entry : Path) : Prop :=
  ∃ p r q, ReflTransGen options.Enters entry p ∧ ReflTransGen options.Enters p r ∧
    options.Imports r q ∧ options.fileSystem.key q = options.fileSystem.key p

theorem Imports.isFile (h : options.Imports p q) : options.fileSystem.isFile q = true := by
  obtain ⟨_, -, _, -, _, -, hfind⟩ := h
  exact List.find?_some hfind

/-! ## Stacks -/

/-- The file can be read for the files with the given keys, the latest first, of which it
is one itself. -/
inductive Stacked (options : Options) (entry : Path) : List Path.Key → Path → Prop
  | entry : Stacked options entry [options.fileSystem.key entry] entry
  | enter {stack : List Path.Key} {p q : Path} : Stacked options entry stack p →
      options.Enters p q → Stacked options entry (options.fileSystem.key q :: stack) q

namespace Stacked

variable {stack : List Path.Key}

theorem reachable (h : Stacked options entry stack p) : ReflTransGen options.Enters entry p := by
  induction h with
  | entry => exact .refl
  | enter _ henters ih => exact ih.tail henters

/-- Every key on the stack is that of a file on a way to the file at hand. -/
theorem exists_of_mem (h : Stacked options entry stack p) {key : Path.Key} (hkey : key ∈ stack) :
    ∃ f, ReflTransGen options.Enters entry f ∧ ReflTransGen options.Enters f p ∧
      options.fileSystem.key f = key := by
  induction h with
  | entry => exact ⟨entry, .refl, .refl, (List.mem_singleton.mp hkey).symm⟩
  | @enter stack p q h henters ih =>
      rcases List.mem_cons.mp hkey with rfl | hkey
      · exact ⟨q, h.reachable.tail henters, .refl, rfl⟩
      · obtain ⟨f, hentry, hp, hf⟩ := ih hkey
        exact ⟨f, hentry, hp.tail henters, hf⟩

/-- An import of a file that is on the stack closes a cycle. -/
theorem reachesCycle (h : Stacked options entry stack p) (himports : options.Imports p q)
    (hkey : options.fileSystem.key q ∈ stack) : options.ReachesCycle entry := by
  obtain ⟨f, hentry, hp, hf⟩ := h.exists_of_mem hkey
  exact ⟨f, p, q, hentry, hp, himports, hf.symm⟩

end Stacked

end Options

/-! ## Files that are read with success -/

namespace Desk

/-- A block that has been read has read all imports in it. -/
theorem imports_of_readInto (d : Desk) : ∀ (parents : List Text) (block : Block) {outline : Outline}
    {block' : Block} {st st' : ReadingState},
    (d.readInto parents block outline).run.run st = (.ok block', st') →
      ∀ whole ∈ outline.imports, ∃ b st₁ b' st₂, d.Takes b st₁ (.importing whole) b' st₂
  | _, _, .closed, _, _, _, _ => nofun
  | _, _, .broken _ _, _, _, _, _ => nofun
  | parents, block, .statement s rest, _, st, _, h => by
      obtain ⟨b, st₁, hs, h⟩ := Reading.bind_ok h
      have hrest := d.imports_of_readInto parents b h
      cases s with
      | importing whole =>
          intro other hother
          rcases List.mem_cons.mp hother with rfl | hother
          · exact ⟨block, st, b, st₁, takes_of_addStatement hs⟩
          · exact hrest other hother
      | definition | directive | call | property => exact hrest
  | parents, block, .block prelude body rest, _, _, _, h => by
      obtain ⟨rule, _, -, h⟩ := Reading.bind_ok h
      obtain ⟨_, _, hbody, h⟩ := Reading.bind_ok h
      intro whole hwhole
      rcases List.mem_append.mp hwhole with hwhole | hwhole
      · exact d.imports_of_readInto rule.selectors .empty hbody whole hwhole
      · exact d.imports_of_readInto parents _ h whole hwhole

variable {d : Desk} {st st' : ReadingState}

theorem Takes.loads {whole : Slice} {block block' : Block} {q : Path}
    (h : d.Takes block st (.importing whole) block' st')
    (hleads : d.options.Leads d.path whole q) :
    ∃ i st₁ st₂, d.Loads q (whole.span d.source) st₁ i st₂ := by
  obtain ⟨target, htarget, hfind⟩ := hleads
  cases h with
  | passing hnone => cases hnone.symm.trans htarget
  | importing htarget' hfind' hloads =>
      cases htarget'.symm.trans htarget
      cases hfind'.symm.trans hfind
      exact ⟨_, _, _, hloads⟩

/-- A file that has been imported was not refused, and has been read unless it is copied. -/
theorem Loads.exists_read {q : Path} {span : Span} {i : Import} (h : d.Loads q span st i st') :
    ∃ read text, d.reader? (d.options.fileSystem.key q) = some read ∧
      d.options.fileSystem.read q = .text text ∧
      (q.extension? ≠ some "css".toList → ∃ document st₁ st₂,
        (read q text).run.run st₁ = (.ok document, st₂)) := by
  cases h with
  | css hread htext hextension => exact ⟨_, _, hread, htext, fun hne => (hne hextension).elim⟩
  | sheet hread htext _ hdocument => exact ⟨_, _, hread, htext, fun _ => ⟨_, _, _, hdocument⟩⟩

end Desk

namespace Options

variable {options : Options} {p q r entry : Path} {loading : List Path.Key}

/-- The file can be read with success, for the files with the given keys and any others
below them. -/
def Accepts (options : Options) (loading : List Path.Key) (p : Path) : Prop :=
  ∃ text, options.fileSystem.read p = .text text ∧ ∃ depth document st st',
    (Document.readNested options (fun _ _ => .fail .importCycle ⟨0, 0, 0⟩) depth loading p
      text).run.run st = (.ok document, st')

namespace Accepts

theorem imports (h : options.Accepts loading p) (himports : options.Imports p q) :
    options.fileSystem.key q ∉ loading ∧ (q.extension? ≠ some "css".toList →
      options.Accepts (options.fileSystem.key q :: loading) q) := by
  obtain ⟨text, htext, depth, document, st, st', hrun⟩ := h
  obtain ⟨text', htext', whole, hwhole, hleads⟩ := himports
  obtain rfl : text = text' := Contents.text.inj (htext.symm.trans htext')
  cases depth with
  | zero => cases hrun
  | succ depth =>
      obtain ⟨source, _, -, hrun⟩ := Reading.bind_ok hrun
      obtain ⟨_, _, hrun, -⟩ := Reading.bind_ok hrun
      obtain ⟨_, _, _, _, htakes⟩ := Desk.imports_of_readInto _ _ _ hrun whole hwhole
      obtain ⟨_, _, _, hloads⟩ := htakes.loads hleads
      obtain ⟨read, text', hread, htext', hnested⟩ := hloads.exists_read
      simp only at hread
      split at hread
      · cases hread
      · rename_i hkey
        cases hread
        exact ⟨hkey, fun hextension => ⟨text', htext', depth, hnested hextension⟩⟩

theorem reachable (h : options.Accepts loading p) (hpath : ReflTransGen options.Enters p r) :
    ∃ loading', loading ⊆ loading' ∧ options.Accepts loading' r := by
  induction hpath with
  | refl => exact ⟨loading, List.Subset.refl _, h⟩
  | tail _ henters ih =>
      obtain ⟨loading', hsubset, h⟩ := ih
      exact ⟨_, List.Subset.trans hsubset (List.subset_cons_self _ _),
        (h.imports henters.1).2 henters.2⟩

/-- The key of a file is on the stack while what it imports is read. -/
theorem entered (h : options.Accepts [options.fileSystem.key entry] entry)
    (hpath : ReflTransGen options.Enters entry p) :
    ∃ loading, options.fileSystem.key p ∈ loading ∧ options.Accepts loading p := by
  rcases hpath.cases_tail with rfl | ⟨r, hpath, henters⟩
  · exact ⟨_, List.mem_singleton_self _, h⟩
  · obtain ⟨loading, -, hr⟩ := h.reachable hpath
    exact ⟨_, List.mem_cons_self .., (hr.imports henters.1).2 henters.2⟩

theorem not_reachesCycle (h : options.Accepts [options.fileSystem.key entry] entry) :
    ¬options.ReachesCycle entry := by
  rintro ⟨p, r, q, hentry, hp, himports, hkey⟩
  obtain ⟨loading, hmem, h⟩ := h.entered hentry
  obtain ⟨loading', hsubset, h⟩ := h.reachable hp
  exact (h.imports himports).1 (hkey ▸ hsubset hmem)

end Accepts

end Options

end Cascade
