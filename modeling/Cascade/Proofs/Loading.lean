import Cascade.StyleSheet

/-!
# Files that are being loaded

`Document.read` is given the keys of the files that are not being read. The other way
round, a reader knows the files it is in, each imported by the one before, and refuses
to import one of them again. Nothing about such a reader bounds how deep it gets, so
`Document.readNested` is given a depth, and does whatever it likes beyond. It never gets
there: read from the entry file, no file is more files deep than there are keys, and the
two ways of reading are one (`Document.readNested_eq_readEntry`).
-/

namespace Cascade

/-! ## Desks that agree -/

namespace Desk

/-- Desks that differ only in how they read what is no file. -/
structure Agrees (d d' : Desk) : Prop where
  options : d'.options = d.options
  source : d'.source = d.source
  path : d'.path = d.path
  reader? : ∀ key ∈ d.options.fileSystem.keys, d'.reader? key = d.reader? key

namespace Agrees

variable {d d' : Desk}

theorem load_eq (h : d.Agrees d') {path : Path} (hpath : d.options.fileSystem.isFile path = true)
    (span : Span) : d'.load path span = d.load path span := by
  unfold load
  rw [h.options, h.reader? _ (d.options.fileSystem.key_mem_keys hpath)]

theorem addImport_eq (h : d.Agrees d') (whole : Slice) (block : Block) :
    d'.addImport whole block = d.addImport whole block := by
  unfold addImport
  rw [h.options, h.source, h.path]
  simp only
  split
  · rfl
  · rename_i target _
    cases hfind : target.find? d.options d.path with
    | none => rfl
    | some path =>
        have hpath := List.find?_some hfind
        simp only [h.load_eq hpath]

theorem addStatement_eq (h : d.Agrees d') (block : Block) (s : Statement) :
    d'.addStatement block s = d.addStatement block s := by
  unfold addStatement
  rw [h.source]
  cases s with
  | importing whole => exact h.addImport_eq whole block
  | definition | directive | call | property => rfl

theorem heading_eq (h : d.Agrees d') (parents : List Text) (prelude : Slice) :
    d'.heading parents prelude = d.heading parents prelude := by
  unfold heading
  rw [h.source]

theorem readInto_eq (h : d.Agrees d') : ∀ (outline : Outline) (parents : List Text) (block : Block),
    d'.readInto parents block outline = d.readInto parents block outline
  | .closed, _, _ => rfl
  | .broken cause blamed, _, _ => by
      unfold readInto
      rw [h.source]
  | .statement s rest, parents, block => by
      unfold readInto
      rw [h.addStatement_eq]
      exact congrArg _ (funext fun block => h.readInto_eq rest parents block)
  | .block prelude body rest, parents, block => by
      unfold readInto
      rw [h.heading_eq]
      refine congrArg _ (funext fun rule => ?_)
      rw [h.readInto_eq body rule.selectors .empty]
      exact congrArg _ (funext fun contents => h.readInto_eq rest parents _)

end Agrees

end Desk

/-! ## Nested imports -/

namespace Document

/-- Reads a file, in the files with the given keys. What is imported more than `depth`
files deep is read by `beyond`. -/
def readNested (options : Options) (beyond : Path → Text → Reading Document) :
    (depth : Nat) → (loading : List Path.Key) → Path → Text → Reading Document
  | 0, _, path, text => beyond path text
  | depth + 1, loading, path, text => do
    let source ← Reading.addSource ⟨path.text, text⟩
    let desk : Desk :=
      { options, source, path
        reader? := fun key =>
          if key ∈ loading then none
          else some (readNested options beyond depth (key :: loading)) }
    let block ← desk.readInto [] .empty (.ofText text)
    return ⟨path, block⟩

/-- The keys of the files that are not being loaded. -/
def idle (options : Options) (loading : List Path.Key) : List Path.Key :=
  options.fileSystem.keys.filter (· ∉ loading)

theorem idle_cons (options : Options) (key : Path.Key) (loading : List Path.Key) :
    idle options (key :: loading) = (idle options loading).filter (· ≠ key) := by
  unfold idle
  rw [List.filter_filter]
  refine List.filter_congr fun k _ => ?_
  rw [← Bool.decide_and, decide_eq_decide, List.mem_cons, not_or]

theorem readNested_eq_read (options : Options) (beyond : Path → Text → Reading Document) :
    ∀ (depth : Nat) (loading : List Path.Key) (path : Path) (text : Text),
      (idle options loading).length < depth →
        readNested options beyond depth loading path text =
          Document.read options (idle options loading) path text
  | 0, _, _, _, h => by cases h
  | depth + 1, loading, path, text, h => by
      rw [readNested, Document.read]
      refine congrArg _ (funext fun source => ?_)
      refine congrArg (fun m => m >>= fun block => pure (Document.mk path block)) ?_
      apply Desk.Agrees.readInto_eq
      refine ⟨rfl, rfl, rfl, fun key hkey => ?_⟩
      have hidle : key ∈ idle options loading ↔ key ∉ loading := by
        simp only [idle, List.mem_filter, decide_eq_true_eq]
        exact and_iff_right hkey
      simp only
      split
      · rename_i hloading
        rw [Idle.take?_eq_none_iff.mpr fun h => hidle.mp h hloading]
      · rename_i hloading
        obtain ⟨rest, hrest⟩ := Option.ne_none_iff_exists'.mp
          (mt Idle.take?_eq_none_iff.mp (not_not_intro (hidle.mpr hloading)))
        have hval : rest.val = idle options (key :: loading) :=
          (Idle.val_of_take? hrest).2.trans (idle_cons options key loading).symm
        have hlt : (idle options (key :: loading)).length < depth := by
          rw [← hval]
          exact Nat.lt_of_lt_of_le rest.property (Nat.le_of_lt_succ h)
        rw [hrest]
        simp only [hval]
        exact congrArg some (funext fun path => funext fun text =>
          readNested_eq_read options beyond depth (key :: loading) path text hlt)

/-- However a file is read that is imported in more files than there are, no such file
is ever come to. -/
theorem readNested_eq_readEntry (options : Options) (beyond : Path → Text → Reading Document)
    (path : Path) (text : Text) :
    readNested options beyond (options.fileSystem.keys.length + 1)
      [options.fileSystem.key path] path text = readEntry options path text := by
  rw [readNested_eq_read _ _ _ _ _ _ (Nat.lt_succ_of_le (List.length_filter_le ..)), readEntry]
  congr 1
  exact List.filter_congr fun key _ => by simp

end Document

end Cascade
