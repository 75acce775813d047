import Cascade.Proofs.Keys
import Cascade.Proofs.Places
import Cascade.Proofs.Slices

/-!
# The spans of what is read

Every span that reading leaves behind is of glyphs that its source has: in a document,
in a note and in a fault. `Document.spans` lists those of a document. `Reading.Grounded`
is the statement of one step, which goes through `>>=`: sources are only added, so a
span that fits keeps fitting.
-/

namespace Cascade

/-! ## Spans in a document -/

def Declaration.spans : Declaration → List Span
  | .property p => [p.value.span]
  | .call c => c.span :: c.arguments.map Raw.span

def RuleKind.spans : RuleKind → List Span
  | .mixin parameters => parameters.filterMap fun p => p.fallback.map Raw.span
  | .style | .atRule _ | .directive _ => []

def Condition.spans : Condition → List Span
  | .test condition | .orTest condition => [condition.span]
  | .otherwise => []

mutual

/-- All spans in a document, also those of the documents it imports. -/
def Document.spans : Document → List Span
  | ⟨_, block⟩ => block.spans

def Block.spans : Block → List Span
  | ⟨imports, definitions, declarations, children⟩ =>
    definitions.map (fun (_, value) => value.span) ++ declarations.flatMap Declaration.spans ++
      importSpans imports ++ ruleSpans children

def Rule.spans : Rule → List Span
  | ⟨_, _, kind, condition, block, span⟩ =>
    span :: (kind.spans ++ condition.elim [] Condition.spans ++ block.spans)

def Import.spans : Import → List Span
  | .sheet document => document.spans
  | .css _ => []

def importSpans : List Import → List Span
  | [] => []
  | i :: rest => i.spans ++ importSpans rest

def ruleSpans : List Rule → List Span
  | [] => []
  | r :: rest => r.spans ++ ruleSpans rest

end

namespace Block

theorem spans_eq (b : Block) : b.spans =
    b.definitions.map (fun (_, value) => value.span) ++ b.declarations.flatMap Declaration.spans ++
      importSpans b.imports ++ ruleSpans b.children := by
  cases b
  rfl

theorem ruleSpans_append (rules : List Rule) (r : Rule) :
    ruleSpans (rules ++ [r]) = ruleSpans rules ++ r.spans := by
  induction rules with
  | nil => simp [ruleSpans]
  | cons _ _ ih => simp [ruleSpans, ih]

theorem importSpans_append (imports : List Import) (i : Import) :
    importSpans (imports ++ [i]) = importSpans imports ++ i.spans := by
  induction imports with
  | nil => simp [importSpans]
  | cons _ _ ih => simp [importSpans, ih]

theorem span_of_mem_define {name : Text} {value : Raw} {span : Span} :
    ∀ {definitions : List (Text × Raw)},
      span ∈ (define name value definitions).map (fun (_, value) => value.span) →
      span = value.span ∨ span ∈ definitions.map (fun (_, value) => value.span)
  | [], h => .inl (List.mem_singleton.mp h)
  | (n, v) :: rest, h => by
      rw [define] at h
      split at h
      · rcases List.mem_cons.mp h with rfl | h
        · exact .inl rfl
        · exact .inr (List.mem_cons_of_mem _ h)
      · rcases List.mem_cons.mp h with rfl | h
        · exact .inr (List.mem_cons_self ..)
        · exact (span_of_mem_define h).imp_right (List.mem_cons_of_mem _)

variable {b : Block} {span : Span}

theorem of_mem_addVariable {name : Text} {value : Raw}
    (h : span ∈ (b.addVariable name value).spans) : span = value.span ∨ span ∈ b.spans := by
  rw [spans_eq] at h ⊢
  simp only [List.mem_append] at h ⊢
  rcases h with ((h | h) | h) | h
  · exact (span_of_mem_define h).imp_right fun h => .inl (.inl (.inl h))
  · exact .inr (.inl (.inl (.inr h)))
  · exact .inr (.inl (.inr h))
  · exact .inr (.inr h)

theorem of_mem_addDeclaration {d : Declaration} (h : span ∈ (b.addDeclaration d).spans) :
    span ∈ d.spans ∨ span ∈ b.spans := by
  rw [spans_eq] at h ⊢
  simp only [addDeclaration, List.flatMap_append, List.flatMap_singleton, List.mem_append] at h ⊢
  tauto

theorem of_mem_addChild {r : Rule} (h : span ∈ (b.addChild r).spans) :
    span ∈ r.spans ∨ span ∈ b.spans := by
  rw [spans_eq] at h ⊢
  simp only [addChild, ruleSpans_append, List.mem_append] at h ⊢
  tauto

theorem of_mem_addImport {i : Import} (h : span ∈ (b.addImport i).spans) :
    span ∈ i.spans ∨ span ∈ b.spans := by
  rw [spans_eq] at h ⊢
  simp only [addImport, importSpans_append, List.mem_append] at h ⊢
  tauto

end Block

theorem Rule.spans_eq (r : Rule) : r.spans =
    r.span :: (r.kind.spans ++ r.condition.elim [] Condition.spans ++ r.block.spans) := by
  cases r
  rfl

theorem Rule.of_mem_spans_contents {r : Rule} {contents : Block} {span : Span}
    (h : span ∈ ({ r with block := contents } : Rule).spans) :
    span ∈ r.spans ∨ span ∈ contents.spans := by
  rw [spans_eq] at h ⊢
  simp only [List.mem_cons, List.mem_append] at h ⊢
  tauto

/-! ## Sources that are added to -/

namespace Sources

/-- The second sources are the first and perhaps more. -/
def Grows (sources sources' : Sources) : Prop := sources.toList <+: sources'.toList

/-- All of the spans fit. -/
def FitAll (sources : Sources) (spans : List Span) : Prop := ∀ span ∈ spans, sources.Fits span

variable {sources sources' : Sources} {span : Span} {spans : List Span}

theorem Grows.refl (sources : Sources) : sources.Grows sources := List.prefix_rfl

theorem Grows.trans {sources'' : Sources} (h : sources.Grows sources')
    (h' : sources'.Grows sources'') : sources.Grows sources'' := List.IsPrefix.trans h h'

theorem Grows.push (sources : Sources) (source : Source) : sources.Grows (sources.push source) := by
  rw [Grows, Array.toList_push]
  exact List.prefix_append ..

theorem Grows.getElem? {n : Nat} {source : Source} (h : sources.Grows sources')
    (hn : sources[n]? = some source) : sources'[n]? = some source := by
  obtain ⟨more, h⟩ := h
  rw [← Array.getElem?_toList] at hn ⊢
  rw [← h, List.getElem?_append_left (List.getElem?_eq_some_iff.mp hn).1, hn]

theorem Fits.grow (h : sources.Fits span) (hgrows : sources.Grows sources') :
    sources'.Fits span := by
  obtain ⟨source, hsource, hfits⟩ := h
  exact ⟨source, hgrows.getElem? hsource, hfits⟩

namespace FitAll

variable {b : Block}

theorem nil : sources.FitAll [] := fun _ => List.not_mem_nil.elim

theorem singleton (h : sources.Fits span) : sources.FitAll [span] :=
  fun _ hmem => List.mem_singleton.mp hmem ▸ h

theorem grow (h : sources.FitAll spans) (hgrows : sources.Grows sources') :
    sources'.FitAll spans := fun span hspan => (h span hspan).grow hgrows

theorem addVariable {name : Text} {value : Raw} (hvalue : sources.Fits value.span)
    (hb : sources.FitAll b.spans) : sources.FitAll (b.addVariable name value).spans :=
  fun span hmem => (Block.of_mem_addVariable hmem).elim (· ▸ hvalue) (hb span)

theorem addDeclaration {d : Declaration} (hd : sources.FitAll d.spans)
    (hb : sources.FitAll b.spans) : sources.FitAll (b.addDeclaration d).spans :=
  fun span hmem => (Block.of_mem_addDeclaration hmem).elim (hd span) (hb span)

theorem addChild {r : Rule} (hr : sources.FitAll r.spans) (hb : sources.FitAll b.spans) :
    sources.FitAll (b.addChild r).spans :=
  fun span hmem => (Block.of_mem_addChild hmem).elim (hr span) (hb span)

theorem addImport {i : Import} (hi : sources.FitAll i.spans) (hb : sources.FitAll b.spans) :
    sources.FitAll (b.addImport i).spans :=
  fun span hmem => (Block.of_mem_addImport hmem).elim (hi span) (hb span)

theorem contents {r : Rule} (hr : sources.FitAll r.spans) (hb : sources.FitAll b.spans) :
    sources.FitAll ({ r with block := b } : Rule).spans :=
  fun span hmem => (Rule.of_mem_spans_contents hmem).elim (hr span) (hb span)

end FitAll

/-- A slice that stands in a source has a span that fits. -/
theorem fits_of_stands {n : Nat} {source : Source} (hn : sources[n]? = some source) {s : Slice}
    (h : s.Stands (.ofText source.text)) : sources.Fits (s.span n) := by
  have := h.within.bounds
  have := h.start_lt
  have hlength : (Slice.ofText source.text).length = (Glyph.ofText source.text).length :=
    Glyph.length_visible _
  have hstart : (Slice.ofText source.text).start = 0 := rfl
  refine ⟨source, hn, ?_, ?_⟩ <;> simp only [Slice.span] <;> omega

end Sources

/-! ## Readings -/

/-- Begun with the given sources, and notes on spans that fit, a reading ends with these
sources and perhaps more, and notes on spans that fit. It gives what `P` says of it and
the sources, or blames a span that fits. -/
def Reading.Grounded {α : Type} (sources : Sources) (P : Sources → α → Prop) (m : Reading α) :
    Prop :=
  ∀ st : ReadingState, st.sources = sources → sources.FitAll (st.notes.toList.map Prod.fst) →
    sources.Grows (m.run.run st).2.sources ∧
    (m.run.run st).2.sources.FitAll ((m.run.run st).2.notes.toList.map Prod.fst) ∧
    match (m.run.run st).1 with
    | .ok a => P (m.run.run st).2.sources a
    | .error fault => (m.run.run st).2.sources.Fits fault.span

namespace Reading.Grounded

variable {α β : Type} {sources : Sources} {P P' : Sources → α → Prop} {Q : Sources → β → Prop}
  {m : Reading α} {span : Span}

theorem imp (h : Grounded sources P m)
    (himp : ∀ sources' a, sources.Grows sources' → P sources' a → P' sources' a) :
    Grounded sources P' m := by
  intro st hst hnotes
  obtain ⟨hgrows, hnotes', hresult⟩ := h st hst hnotes
  refine ⟨hgrows, hnotes', ?_⟩
  rcases hm : m.run.run st with ⟨result, st'⟩
  rw [hm] at hresult hgrows
  cases result with
  | error fault => exact hresult
  | ok a => exact himp _ _ hgrows hresult

theorem bind {f : α → Reading β} (h : Grounded sources P m)
    (hf : ∀ sources' a, sources.Grows sources' → P sources' a → Grounded sources' Q (f a)) :
    Grounded sources Q (m >>= f) := by
  intro st hst hnotes
  obtain ⟨hgrows, hnotes', hresult⟩ := h st hst hnotes
  rcases hm : m.run.run st with ⟨result, st'⟩
  rw [hm] at hgrows hnotes' hresult
  cases result with
  | error fault =>
      rw [run_bind_error hm]
      exact ⟨hgrows, hnotes', hresult⟩
  | ok a =>
      rw [run_bind_ok hm]
      obtain ⟨hgrows', hrest⟩ := hf _ a hgrows hresult st' rfl hnotes'
      exact ⟨hgrows.trans hgrows', hrest⟩

theorem pure {a : α} (h : P sources a) : Grounded sources P (Pure.pure a) := by
  rintro st rfl hnotes
  exact ⟨.refl _, hnotes, h⟩

theorem fail {cause : Cause} (h : sources.Fits span) :
    Grounded sources P (Reading.fail cause span : Reading α) := by
  rintro st rfl hnotes
  exact ⟨.refl _, hnotes, h⟩

theorem note {n : Note} (h : sources.Fits span) :
    Grounded sources (fun sources' _ => sources' = sources) (Reading.note span n) := by
  rintro st rfl hnotes
  refine ⟨.refl _, fun span' hspan' => ?_, rfl⟩
  change span' ∈ (st.notes.push (span, n)).toList.map Prod.fst at hspan'
  rw [Array.toList_push, List.map_append, List.mem_append] at hspan'
  rcases hspan' with hspan' | hspan'
  · exact hnotes span' hspan'
  · exact List.mem_singleton.mp hspan' ▸ h

/-- A value on the way, which blames a span that fits if there is none. -/
theorem after {e : Except Fault α} {f : α → Reading β}
    (herror : ∀ fault, e = .error fault → fault.span = span) (hspan : sources.Fits span)
    (hok : ∀ a, e = .ok a → Grounded sources Q (f a)) : Grounded sources Q (liftM e >>= f) := by
  cases e with
  | ok a => exact hok a rfl
  | error fault => exact .fail (herror fault rfl ▸ hspan)

/-- A note on the way. -/
theorem noting {n : Note} {f : Unit → Reading β} (hspan : sources.Fits span)
    (h : Grounded sources Q (f ())) : Grounded sources Q (Reading.note span n >>= f) := by
  refine (note hspan).bind ?_
  rintro _ _ - rfl
  exact h

theorem addSource (source : Source) : Grounded sources
    (fun sources' n => n = sources.size ∧ sources' = sources.push source)
    (Reading.addSource source) := by
  rintro st rfl hnotes
  exact ⟨.push _ _, Sources.FitAll.grow hnotes (.push _ _), rfl, rfl⟩

theorem recordTried (paths : List Path) :
    Grounded sources (fun sources' _ => sources' = sources) (Reading.recordTried paths) := by
  rintro st rfl hnotes
  exact ⟨.refl _, hnotes, rfl⟩

end Reading.Grounded

/-! ## What is blamed -/

theorem Property.blamed_of_read {source : Nat} {whole : Slice} {fault : Fault}
    (h : Property.read source whole = .error fault) : fault.span = whole.span source := by
  unfold Property.read at h
  split at h
  · cases h
    rfl
  · split at h <;> cases h
    rfl

theorem MixinCall.blamed_of_read {source : Nat} {whole : Slice} {fault : Fault}
    (h : MixinCall.read source whole = .error fault) : fault.span = whole.span source := by
  unfold MixinCall.read at h
  simp only at h
  split at h
  · cases h
    rfl
  · split at h
    · cases h
      rfl
    · split at h <;> cases h
      rfl

namespace Signature

theorem blamed_of_readParameter {mixin piece : Text} {span : Span} {before : List Parameter}
    {fault : Fault} (h : readParameter mixin span before piece = .error fault) :
    fault.span = span := by
  unfold readParameter at h
  split at h
  · cases h
    rfl
  · simp only at h
    split at h
    · cases h
      rfl
    · split at h <;> cases h
      rfl

theorem blamed_of_readParameters {mixin inside : Text} {span : Span} {fault : Fault}
    (h : readParameters mixin span inside = .error fault) : fault.span = span := by
  have blamed : ∀ {pieces : List Text} {before : List Parameter},
      pieces.foldlM (fun before piece =>
        (readParameter mixin span before piece).map fun p => before ++ [p]) before =
          .error fault → fault.span = span := by
    intro pieces
    induction pieces with
    | nil => nofun
    | cons piece rest ih =>
        intro before h
        rw [List.foldlM_cons] at h
        cases hread : readParameter mixin span before piece with
        | error fault' =>
            rw [hread] at h
            cases h
            exact blamed_of_readParameter hread
        | ok p =>
            rw [hread] at h
            exact ih h
  exact blamed h

theorem blamed_of_read? {selector : Text} {span : Span} {fault : Fault}
    (h : read? selector span = .error fault) : fault.span = span := by
  obtain hnone | ⟨rest, inside, -, -, -, hread⟩ := read?_cases selector span
  · cases hnone.symm.trans h
  · rw [hread] at h
    cases hparameters : readParameters ('.' :: rest.takeWhile isNameChar) span inside with
    | ok parameters =>
        rw [hparameters] at h
        cases h
    | error fault' =>
        rw [hparameters] at h
        cases h
        exact blamed_of_readParameters hparameters

end Signature

theorem Condition.spans_of_split {prelude selector : Text} {span span' : Span}
    {condition : Option Condition} (h : Condition.split prelude span = (selector, condition))
    (hspan : span' ∈ condition.elim [] Condition.spans) : span' = span := by
  unfold Condition.split at h
  split at h
  · cases h
    cases hspan
  · split at h
    · cases h
      cases hspan
    · split at h
      · cases h
        cases hspan
      · split at h <;> cases h
        · exact List.mem_singleton.mp hspan
        · exact List.mem_singleton.mp hspan
        · cases hspan

/-! ## Steps of reading -/

/-- A reader of files: the spans of the document fit. -/
def Reading.GroundsDocument (m : Reading Document) : Prop :=
  ∀ sources, m.Grounded sources fun sources' e => sources'.FitAll e.spans

namespace Desk

variable {d : Desk} {sources : Sources} {source : Source} {block : Block}

/-- The other files are read by readers of files. -/
def Grounds (d : Desk) : Prop :=
  ∀ key read, d.reader? key = some read → ∀ path text, (read path text).GroundsDocument

theorem heading_grounded (parents : List Text) {prelude : Slice}
    (hspan : sources.Fits (prelude.span d.source)) :
    (d.heading parents prelude).Grounded sources fun sources' r => sources'.FitAll r.spans := by
  unfold heading
  simp only
  rcases hsplit : Condition.split prelude.collapsed (prelude.span d.source) with
    ⟨selector, condition⟩
  have hrest (kind : RuleKind) (hkind : ∀ span ∈ kind.spans, span = prelude.span d.source)
      (selectors own : List Text) : sources.FitAll
        (⟨selectors, own, kind, condition, .empty, prelude.span d.source⟩ : Rule).spans := by
    intro span hmem
    rw [Rule.spans_eq] at hmem
    rcases List.mem_cons.mp hmem with rfl | hmem
    · exact hspan
    · rcases List.mem_append.mp hmem with hmem | hmem
      · rcases List.mem_append.mp hmem with hmem | hmem
        · exact hkind span hmem ▸ hspan
        · exact Condition.spans_of_split hsplit hmem ▸ hspan
      · cases hmem
  refine .after (fun _ => Signature.blamed_of_read?) hspan fun signature? hread => ?_
  cases signature? with
  | some signature =>
      refine .noting hspan (.pure (hrest _ (fun span hmem => ?_) _ _))
      obtain ⟨p, hp, hmem⟩ := List.mem_filterMap.mp hmem
      obtain ⟨value, hvalue, rfl⟩ := Option.map_eq_some_iff.mp hmem
      exact (Signature.distinct_of_read? hread).spans p hp value hvalue
  | none =>
      simp only
      split
      · exact .noting hspan (.pure (hrest _ (fun _ => List.not_mem_nil.elim) _ _))
      · exact .noting hspan (.pure (hrest _ (fun _ => List.not_mem_nil.elim) _ _))

theorem load_grounded (hgrounds : d.Grounds) {path : Path} {span : Span}
    (hspan : sources.Fits span) :
    (d.load path span).Grounded sources fun sources' i => sources'.FitAll i.spans := by
  unfold load
  split
  · exact .fail hspan
  · rename_i read hread
    split
    · exact .fail hspan
    · exact .fail hspan
    · rename_i text _
      refine .noting hspan ?_
      split
      · exact .pure .nil
      · exact (hgrounds _ _ hread _ _ sources).bind fun _ e _ he => .pure he

/-! Whether the spans of a block fit may depend on what is still to be read, which is
`unbroken` in the steps that follow. -/

variable {unbroken : Prop}

theorem addImport_grounded (hgrounds : d.Grounds) {whole : Slice}
    (hspan : sources.Fits (whole.span d.source)) (hblock : unbroken → sources.FitAll block.spans) :
    (d.addImport whole block).Grounded sources fun sources' b =>
      unbroken → sources'.FitAll b.spans := by
  unfold addImport
  simp only
  split
  · exact .noting hspan (.pure fun hunbroken => .addChild (.singleton hspan) (hblock hunbroken))
  · refine (Reading.Grounded.recordTried _).bind ?_
    rintro _ _ - rfl
    split
    · exact .fail hspan
    · exact (load_grounded hgrounds hspan).bind fun sources' i hgrows hi =>
        .pure fun hunbroken => .addImport hi ((hblock hunbroken).grow hgrows)

/-- Reading a statement that stands in the source. A property has to be followed by
something, or its value may have no place. -/
theorem addStatement_grounded (hgrounds : d.Grounds) (hsource : sources[d.source]? = some source)
    {s : Statement} (hstands : s.Stands (.ofText source.text))
    (hfollowed : unbroken → ∀ whole, s = .property whole → whole.Followed (.ofText source.text))
    (hblock : unbroken → sources.FitAll block.spans) :
    (d.addStatement block s).Grounded sources fun sources' b =>
      unbroken → sources'.FitAll b.spans := by
  cases s with
  | importing whole =>
      exact addImport_grounded hgrounds (Sources.fits_of_stands hsource hstands) hblock
  | definition name value whole =>
      exact .noting (Sources.fits_of_stands hsource hstands.2) (.pure fun hunbroken =>
        .addVariable (Sources.fits_of_stands hsource hstands.1) (hblock hunbroken))
  | directive whole =>
      have hspan := Sources.fits_of_stands hsource hstands
      exact .noting hspan (.pure fun hunbroken => .addChild (.singleton hspan) (hblock hunbroken))
  | call whole =>
      have hspan := Sources.fits_of_stands hsource hstands
      refine .after (fun _ => MixinCall.blamed_of_read) hspan fun call hread => ?_
      obtain ⟨hcall, harguments⟩ := MixinCall.of_read hread
      refine .noting (hcall ▸ hspan) (.pure fun hunbroken => .addDeclaration ?_ (hblock hunbroken))
      intro span hmem
      rcases List.mem_cons.mp hmem with rfl | hmem
      · exact hcall ▸ hspan
      · obtain ⟨a, ha, rfl⟩ := List.mem_map.mp hmem
        obtain ⟨inside, hinside, piece, hpiece, rfl⟩ := harguments a ha
        exact Sources.fits_of_stands hsource
          (hpiece.stands_of_followed (hinside.trans hstands.within))
  | property whole =>
      have hspan := Sources.fits_of_stands hsource hstands
      refine .after (fun _ => Property.blamed_of_read) hspan fun property hread => ?_
      refine .pure fun hunbroken => .addDeclaration (.singleton ?_) (hblock hunbroken)
      obtain ⟨value, hvalue, hproperty⟩ := Property.quotes_of_read hread
      rw [hproperty]
      exact Sources.fits_of_stands hsource
        (hvalue.stands_of_followed (hfollowed hunbroken whole rfl))

theorem readInto_grounded (hgrounds : d.Grounds) :
    ∀ {outline : Outline} {parents : List Text} {block : Block} {sources : Sources},
      sources[d.source]? = some source → outline.Stands (.ofText source.text) →
      outline.Followed (.ofText source.text) →
      (outline.Unbroken → sources.FitAll block.spans) →
      (d.readInto parents block outline).Grounded sources fun sources' b =>
        outline.Unbroken ∧ sources'.FitAll b.spans
  | .closed, _, _, _, _, _, _, hblock => .pure ⟨trivial, hblock trivial⟩
  | .broken _ _, _, _, _, hsource, hstands, _, _ => .fail (Sources.fits_of_stands hsource hstands)
  | .statement s rest, parents, block, sources, hsource, hstands, hfollowed, hblock => by
      have hproperty (hunbroken : rest.Unbroken) (whole : Slice) (hs : s = .property whole) :
          whole.Followed (.ofText source.text) := by
        subst hs
        exact hfollowed.1 hunbroken
      have hrest : rest.Followed (.ofText source.text) := by
        cases s with
        | property => exact hfollowed.2
        | importing | definition | directive | call => exact hfollowed
      exact (addStatement_grounded hgrounds hsource hstands.1 hproperty hblock).bind
        fun sources' b hgrows hb =>
          readInto_grounded hgrounds (hgrows.getElem? hsource) hstands.2 hrest hb
  | .block prelude body rest, parents, block, sources, hsource, hstands, hfollowed, hblock => by
      obtain ⟨hprelude, hbody, hrest⟩ := hstands
      refine (heading_grounded parents (Sources.fits_of_stands hsource hprelude)).bind
        fun sources₁ rule hgrows₁ hrule => ?_
      refine (readInto_grounded hgrounds (hgrows₁.getElem? hsource) hbody hfollowed.1
        fun _ => .nil).bind fun sources₂ contents hgrows₂ hcontents => ?_
      refine (readInto_grounded hgrounds (hgrows₂.getElem? (hgrows₁.getElem? hsource)) hrest
        hfollowed.2 fun hunbroken => ?_).imp fun _ _ _ h => ⟨⟨hcontents.1, h.1⟩, h.2⟩
      exact .addChild (.contents (hrule.grow hgrows₂) hcontents.2)
        ((hblock ⟨hcontents.1, hunbroken⟩).grow (hgrows₁.trans hgrows₂))

end Desk

/-- Every span of a document that has been read, and of the notes, is of glyphs that its
source has. If reading fails, what it blames is. -/
theorem Document.read_groundsDocument (options : Options) (idle : List Path.Key) (path : Path)
    (text : Text) : (Document.read options idle path text).GroundsDocument := by
  rw [Document.read]
  refine fun sources => (Reading.Grounded.addSource _).bind ?_
  rintro _ _ hgrows ⟨rfl, rfl⟩
  have hsource : (sources.push ⟨path.text, text⟩)[sources.size]? = some ⟨path.text, text⟩ := by simp
  refine (Desk.readInto_grounded (fun key read hread path text => ?_) hsource
    (Outline.stands_ofText text) (Outline.followed_ofText text) fun _ => .nil).bind
      fun _ block _ hblock => .pure hblock.2
  simp only at hread
  split at hread
  · rename_i rest hlt _
    cases hread
    exact read_groundsDocument options rest path text
  · cases hread
termination_by idle.length

namespace StyleSheet

/-- All that reading a style sheet leaves behind fits into its sources. -/
theorem readState_grounded (options : Options) (path : Path) (text : Text) :
    (readState options path text).2.sources.FitAll
        ((readState options path text).2.notes.toList.map Prod.fst) ∧
      match (readState options path text).1 with
      | .ok d => (readState options path text).2.sources.FitAll d.spans
      | .error fault => (readState options path text).2.sources.Fits fault.span := by
  have hgrounds := Document.read_groundsDocument options
    (options.fileSystem.keys.filter (· ≠ options.fileSystem.key path)) path text #[] ⟨#[], #[], #[]⟩
    rfl .nil
  rcases hst : readState options path text with ⟨result, st⟩
  change (Document.read _ _ path text).run.run _ = _ at hst
  rw [hst] at hgrounds
  obtain ⟨-, hnotes, hresult⟩ := hgrounds
  refine ⟨hnotes, ?_⟩
  cases result with
  | ok d => exact hresult
  | error fault => exact hresult

end StyleSheet

end Cascade
