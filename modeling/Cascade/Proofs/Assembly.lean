import Cascade.Proofs.Forest
import Cascade.Proofs.Outcomes
import Cascade.StyleSheet

/-!
# How imports are put together

One writer goes through a style sheet and all that it imports, and blocks are opened and
closed in its buffer. Still each import is written as it would be on its own: the CSS of
a style sheet is that of its imports, each as the output of a style sheet of its own, one
after the other, and then that of its own rules. These see the variables and mixins of
the imports all the same, so they are written in the scope of the whole document.

What keeps an import from being written on its own keeps the style sheet from being
written, and of several such imports the first decides (`StyleSheet.assembled`).
-/

namespace Cascade

/-! ## Parts -/

/-- The CSS of what is imported, on its own. -/
def Import.written : Import → Except Fault Text
  | .sheet e => e.css.1
  | .css t => .ok (Css.Writer.empty.raw t).text

/-- The CSS of a document without that of its imports. -/
def Document.ownCss (d : Document) : Except Fault Text :=
  (draftRules d.keys (.ofBlock d.block) .outside d.block.children).text

/-! ## Documents -/

theorem Import.written_eq (i : Import) : i.written = i.forest.map (Css.Node.printAll 0) := by
  cases i with
  | sheet e => exact e.css_printed
  | css t =>
      rw [written, Css.Writer.raw_eq, Import.forest]
      simp [Except.map, Css.Writer.text, Css.Writer.empty, Pure.pure, Except.pure]

/-- Forests in a row are printed in a row. -/
theorem Css.Node.map_printAll_append (e e' : Except Fault (List Css.Node)) :
    (do return (← e) ++ (← e') : Except Fault _).map (printAll 0) = do
      return (← e.map (printAll 0)) ++ (← e'.map (printAll 0)) := by
  cases e with
  | error fault => rfl
  | ok nodes =>
      cases e' with
      | error fault => rfl
      | ok nodes' => exact congrArg Except.ok (printAll_append 0 nodes nodes')

theorem importsForest_printed (imports : List Import) :
    (importsForest imports).map (Css.Node.printAll 0) = do
      return (← imports.mapM Import.written).flatten := by
  induction imports with
  | nil => rfl
  | cons i rest ih =>
      rw [importsForest, Css.Node.map_printAll_append, ← i.written_eq, ih, List.mapM_cons]
      cases i.written with
      | error fault => rfl
      | ok first => cases rest.mapM Import.written <;> rfl

theorem Document.ownCss_eq (d : Document) : d.ownCss =
    (rulesForest d.keys (.ofBlock d.block) .outside d.block.children).map
      (Css.Node.printAll 0) :=
  (draftRules_prints (fun _ _ => Iff.rfl) .outside d.block.children .root
    (List.Subset.refl _)).text

theorem Document.css_eq (d : Document) : d.css.1 = do
    let imported ← d.block.imports.mapM Import.written
    let own ← d.ownCss
    return imported.flatten ++ own := by
  have hforest : d.forest = do
      let imported ← importsForest d.block.imports
      let rules ← rulesForest d.keys (.ofBlock d.block) .outside d.block.children
      return imported ++ rules := by
    obtain ⟨path, imports, definitions, own, children⟩ := d
    exact Document.forest.eq_def _
  rw [d.css_printed, hforest, Css.Node.map_printAll_append, importsForest_printed,
    d.ownCss_eq]
  cases d.block.imports.mapM Import.written <;> rfl

/-! ## Style sheets -/

namespace StyleSheet

/-- What a style sheet contributes that imports it: its output, or its text. -/
def importOutput (options : Options) (sources : Sources) : Import → Except Failure Text
  | .sheet e => (output options ⟨sources, e⟩).result
  | .css t => .ok (Css.Writer.empty.raw t).text

/-- The output of a style sheet without that of its imports. -/
def ownOutput (options : Options) (s : StyleSheet) : Except Failure Text :=
  s.document.ownCss.mapError (options.failure s.sources)

theorem output_result (options : Options) (s : StyleSheet) :
    (s.output options).result = s.document.css.1.mapError (options.failure s.sources) := by
  unfold output
  cases s.document.css with
  | mk result warnings => cases result <;> rfl

theorem importOutput_eq (options : Options) (sources : Sources) (i : Import) :
    importOutput options sources i = i.written.mapError (options.failure sources) := by
  cases i with
  | sheet e => exact output_result options ⟨sources, e⟩
  | css t => rfl

/-- The output of a style sheet in terms of the outputs of its imports. -/
structure Assembled (options : Options) (s : StyleSheet) : Prop where
  /-- It is that of its imports in order, each on its own, and then that of its own rules. -/
  result : (s.output options).result = do
    let imported ← s.document.block.imports.mapM (importOutput options s.sources)
    let own ← s.ownOutput options
    return imported.flatten ++ own
  /-- If a document among the imports has none, there is a first that has none, and the
  style sheet fails as that does. -/
  failure : ∀ {e : Document} {f : Failure}, Import.sheet e ∈ s.document.block.imports →
    (output options ⟨s.sources, e⟩).result = .error f →
      ∃ before first after failure,
        s.document.block.imports = before ++ .sheet first :: after ∧
        (∀ i ∈ before, ∃ css, importOutput options s.sources i = .ok css) ∧
        (output options ⟨s.sources, first⟩).result = .error failure ∧
        (s.output options).result = .error failure

theorem result_eq (options : Options) (s : StyleSheet) : (s.output options).result = do
    let imported ← s.document.block.imports.mapM (importOutput options s.sources)
    let own ← s.ownOutput options
    return imported.flatten ++ own := by
  have hparts : importOutput options s.sources =
      fun i => i.written.mapError (options.failure s.sources) :=
    funext (importOutput_eq options s.sources)
  rw [output_result, Document.css_eq, mapError_bind, mapError_mapM, hparts]
  refine congrArg _ (funext fun imported => ?_)
  rw [mapError_bind]
  rfl

theorem assembled (options : Options) (s : StyleSheet) : s.Assembled options where
  result := result_eq options s
  failure := by
    intro e f hmem hfails
    obtain ⟨before, first, after, failure, himports, hbefore, hfirst, hrow⟩ :=
      exists_first_error (g := importOutput options s.sources) ⟨_, hmem, f, hfails⟩
    cases first with
    | css t => cases hfirst
    | sheet first =>
        refine ⟨before, first, after, failure, himports, hbefore, hfirst, ?_⟩
        rw [result_eq, hrow]
        rfl

end StyleSheet

end Cascade
