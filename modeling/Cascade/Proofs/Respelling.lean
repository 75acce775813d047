import Cascade.Proofs.Relocation

/-!
# Comments and line ends

Texts that differ in comments and in the spelling of line ends have the same glyphs,
each in another place. They are compiled to the same CSS, or fail for the same cause,
and the same is said on the way (`StyleSheet.compile_respelled`).

Reading goes by glyphs and looks at no source again, so both texts are read into one
document (`Document.read_alike`). A span in it is by numbers of glyphs. Where spans are
by offsets in bytes instead, those of the two texts differ, but each text tells the same
spans apart as the other, and the same comes of the document (`Document.outcome_inBytes`).
-/

namespace Cascade

/-! ## Readings of two texts -/

/-- As many sources, and the same notes. -/
structure ReadingState.Alike (st st' : ReadingState) : Prop where
  size : st.sources.size = st'.sources.size
  notes : st.notes = st'.notes

/-- The two readings come to the same from states that are alike. -/
def Reading.Alike {α : Type} (m m' : Reading α) : Prop :=
  ∀ st st' : ReadingState, st.Alike st' →
    (m.run.run st).1 = (m'.run.run st').1 ∧ (m.run.run st).2.Alike (m'.run.run st').2

namespace Reading.Alike

variable {α β : Type} {m m' : Reading α}

theorem pure (a : α) : Alike (Pure.pure a) (Pure.pure a) := fun _ _ h => ⟨rfl, h⟩

theorem fail (cause : Cause) (span : Span) :
    Alike (Reading.fail cause span : Reading α) (Reading.fail cause span) := fun _ _ h => ⟨rfl, h⟩

theorem lift (e : Except Fault α) : Alike (liftM e) (liftM e) := by
  cases e <;> exact fun _ _ h => ⟨rfl, h⟩

theorem note (span : Span) (n : Note) : Alike (Reading.note span n) (Reading.note span n) :=
  fun _ _ h => ⟨rfl, h.size, congrArg (·.push (span, n)) h.notes⟩

theorem recordTried (paths : List Path) :
    Alike (Reading.recordTried paths) (Reading.recordTried paths) :=
  fun _ _ h => ⟨rfl, h.size, h.notes⟩

theorem addSource (source source' : Source) :
    Alike (Reading.addSource source) (Reading.addSource source') := by
  intro st st' h
  refine ⟨congrArg Except.ok h.size, ?_, h.notes⟩
  show (st.sources.push source).size = (st'.sources.push source').size
  rw [Array.size_push, Array.size_push, h.size]

theorem bind {f f' : α → Reading β} (h : Alike m m') (hf : ∀ a, Alike (f a) (f' a)) :
    Alike (m >>= f) (m' >>= f') := by
  intro st st' hst
  obtain ⟨hresult, hstate⟩ := h st st' hst
  rcases hm : m.run.run st with ⟨result, st₁⟩
  rcases hm' : m'.run.run st' with ⟨result', st₁'⟩
  rw [hm, hm'] at hresult hstate
  obtain rfl := hresult
  cases result with
  | error fault =>
      rw [run_bind_error hm, run_bind_error hm']
      exact ⟨rfl, hstate⟩
  | ok a =>
      rw [run_bind_ok hm, run_bind_ok hm']
      exact hf a st₁ st₁' hstate

end Reading.Alike

namespace Desk

/-- The other files are read without a look at the sources. -/
def ReadsAlike (d : Desk) : Prop :=
  ∀ key read, d.reader? key = some read → ∀ path text, (read path text).Alike (read path text)

variable {d : Desk}

open Reading (Alike)

theorem heading_alike (parents : List Text) (prelude : Slice) :
    (d.heading parents prelude).Alike (d.heading parents prelude) := by
  unfold heading
  simp only
  refine (Alike.lift _).bind fun signature? => ?_
  cases signature? with
  | some signature => exact (Alike.note _ _).bind fun _ => .pure _
  | none =>
      simp only
      split
      · exact (Alike.note _ _).bind fun _ => .pure _
      · exact (Alike.note _ _).bind fun _ => .pure _

theorem load_alike (hreads : d.ReadsAlike) (path : Path) (span : Span) :
    (d.load path span).Alike (d.load path span) := by
  unfold load
  split
  · exact .fail _ _
  · rename_i read hread
    split
    · exact .fail _ _
    · exact .fail _ _
    · refine (Alike.note _ _).bind fun _ => ?_
      split
      · exact .pure _
      · exact (hreads _ _ hread _ _).bind fun _ => .pure _

theorem addStatement_alike (hreads : d.ReadsAlike) (block : Block) (s : Statement) :
    (d.addStatement block s).Alike (d.addStatement block s) := by
  cases s with
  | importing whole =>
      show (d.addImport whole block).Alike (d.addImport whole block)
      unfold addImport
      simp only
      split
      · exact (Alike.note _ _).bind fun _ => .pure _
      · refine (Alike.recordTried _).bind fun _ => ?_
        split
        · exact .fail _ _
        · exact (load_alike hreads _ _).bind fun _ => .pure _
  | definition | directive => exact (Alike.note _ _).bind fun _ => .pure _
  | call => exact (Alike.lift _).bind fun _ => (Alike.note _ _).bind fun _ => .pure _
  | property => exact (Alike.lift _).bind fun _ => .pure _

theorem readInto_alike (hreads : d.ReadsAlike) :
    ∀ (outline : Outline) (parents : List Text) (block : Block),
      (d.readInto parents block outline).Alike (d.readInto parents block outline)
  | .closed, _, _ => .pure _
  | .broken _ _, _, _ => .fail _ _
  | .statement s rest, parents, block =>
      (addStatement_alike hreads block s).bind fun block => readInto_alike hreads rest parents block
  | .block prelude body rest, parents, _ =>
      (heading_alike parents prelude).bind fun rule =>
        (readInto_alike hreads body rule.selectors .empty).bind fun _ =>
          readInto_alike hreads rest parents _

end Desk

/-- Texts with the same glyphs are read into the same document. -/
theorem Document.read_alike (options : Options) (idle : List Path.Key) (path : Path)
    {text text' : Text} (h : Glyph.visible text = Glyph.visible text') :
    (Document.read options idle path text).Alike (Document.read options idle path text') := by
  have houtline : Outline.ofText text = Outline.ofText text' := by
    unfold Outline.ofText Slice.ofText
    rw [h]
  rw [Document.read, Document.read, houtline]
  refine (Reading.Alike.addSource _ _).bind fun source => ?_
  refine (Desk.readInto_alike (fun key read hread path text => ?_) _ _ _).bind fun _ => .pure _
  simp only at hread
  split at hread
  · rename_i rest hlt _
    cases hread
    exact read_alike options rest path rfl
  · cases hread
termination_by idle.length

/-! ## Spans by their bytes -/

namespace Sources

variable (sources : Sources)

/-- The span with offsets in bytes, counted through all sources, in the place of the
numbers of its glyphs. -/
def inBytes (span : Span) : Span := ⟨0, (sources.bytes span).1, (sources.bytes span).2⟩

/-- Spans that fit can be moved to their bytes, and the others out of the way. -/
theorem exists_injective_inBytes : ∃ move : Span → Span, move.Injective ∧
    ∀ span, sources.Fits span → move span = sources.inBytes span := by
  classical
  refine ⟨fun span => if sources.Fits span then sources.inBytes span
    else ⟨span.source + 1, span.start, span.stop⟩, fun span span' heq => ?_, fun span h => if_pos h⟩
  simp only at heq
  split at heq <;> split at heq
  · rename_i h h'
    simp only [inBytes, Span.mk.injEq, true_and] at heq
    exact eq_of_bytes_eq h h' (Prod.ext heq.1 heq.2)
  · cases congrArg Span.source heq
  · cases congrArg Span.source heq
  · cases span
    cases span'
    simpa using heq

end Sources

namespace Document

/-- What comes of a document, without where it comes from: its CSS or the cause it fails
for, and the warnings. -/
def outcome (d : Document) : Except Cause Text × List Warning :=
  (d.css.1.mapError Fault.cause, d.css.2.map Prod.snd)

theorem outcome_relocate {move : Span → Span} (hmove : move.Injective) (d : Document) :
    (d.relocate move).outcome = d.outcome := by
  unfold outcome
  rw [d.css_relocate hmove]
  refine Prod.ext ?_ ?_
  · cases d.css.1 <;> rfl
  · exact List.map_map.trans rfl

/-- With spans by their bytes the same comes of a document. -/
theorem outcome_inBytes {sources : Sources} {d : Document} (h : sources.FitAll d.spans) :
    (d.relocate sources.inBytes).outcome = d.outcome := by
  obtain ⟨move, hmove, hbytes⟩ := sources.exists_injective_inBytes
  rw [← d.relocate_congr fun span hspan => hbytes span (h span hspan)]
  exact d.outcome_relocate hmove

end Document

/-! ## Reports -/

/-- The category of what is wrong in a style sheet. -/
def Failure.category? : Failure → Option Category
  | .located cause _ _ => some cause.category
  | .unreadable _ | .undecodable _ => none

/-- What a diagnostic says, without where. -/
def Diagnostic.statement (d : Diagnostic) : Level × Text := (d.level, d.message)

/-- The reports say the same, perhaps of other places. -/
structure Report.Alike (r r' : Report Text) : Prop where
  statements : r.diagnostics.map Diagnostic.statement = r'.diagnostics.map Diagnostic.statement
  result : match r.result, r'.result with
    | .ok css, .ok css' => css = css'
    | .error f, .error f' => f.category? = f'.category? ∧ f.message = f'.message
    | _, _ => False

namespace Options

variable (options : Options) (sources sources' : Sources)

theorem statement_notes (notes : List (Span × Note)) :
    (options.notes sources notes).map Diagnostic.statement =
      (options.notes sources' notes).map Diagnostic.statement := by
  unfold Options.notes
  split
  · rw [List.map_map, List.map_map]
    rfl
  · rfl

theorem statement_warnings (log : Warnings) :
    (options.warnings sources log).map Diagnostic.statement =
      (options.warnings sources' log).map Diagnostic.statement := by
  unfold Options.warnings
  split
  · rfl
  · rw [List.map_map, List.map_map]
    rfl

end Options

namespace StyleSheet

variable {options : Options} {path : Path} {text text' : Text}

/-- What does not change with the spelling of comments and line ends. -/
structure Respelled (options : Options) (path : Path) (text text' : Text) : Prop where
  /-- The CSS, or what is wrong, and what is said on the way. -/
  report : (compile options path text).Alike (compile options path text')
  /-- The document that is read, or what keeps it from being read. -/
  document : (readState options path text).1 = (readState options path text').1
  /-- What comes of the document if its spans are by the bytes of either text. -/
  bytes : ∀ d, (readState options path text).1 = .ok d →
    (d.relocate (readState options path text).2.sources.inBytes).outcome = d.outcome ∧
      (d.relocate (readState options path text').2.sources.inBytes).outcome = d.outcome

theorem readState_alike (options : Options) (path : Path)
    (h : Glyph.visible text = Glyph.visible text') :
    (readState options path text).1 = (readState options path text').1 ∧
      (readState options path text).2.Alike (readState options path text').2 :=
  Document.read_alike options _ path h _ _ ⟨rfl, rfl⟩

theorem compile_alike (h : Glyph.visible text = Glyph.visible text') :
    (compile options path text).Alike (compile options path text') := by
  obtain ⟨hresult, hstate⟩ := readState_alike options path h
  rcases hst : readState options path text with ⟨result, st⟩
  rcases hst' : readState options path text' with ⟨result', st'⟩
  rw [hst, hst'] at hresult hstate
  obtain rfl := hresult
  have hnotes : (options.notes st.sources st.notes.toList).map Diagnostic.statement =
      (options.notes st'.sources st'.notes.toList).map Diagnostic.statement := by
    rw [← hstate.notes]
    exact options.statement_notes _ _ _
  unfold compile read
  rw [hst, hst']
  cases result with
  | error fault => exact ⟨hnotes, rfl, rfl⟩
  | ok d =>
      simp only
      unfold output
      rcases hcss : d.css with ⟨css, log⟩
      refine ⟨?_, ?_⟩
      · simp only [List.map_append]
        rw [hnotes, options.statement_warnings st.sources st'.sources]
      · simp only
        cases css with
        | ok t => rfl
        | error fault => exact ⟨rfl, rfl⟩

/-- Texts with the same glyphs come to the same. -/
theorem compile_respelled (h : Glyph.visible text = Glyph.visible text') :
    Respelled options path text text' where
  report := compile_alike h
  document := (readState_alike options path h).1
  bytes d hd := by
    have hspans := (readState_grounded options path text).2
    have hspans' := (readState_grounded options path text').2
    rw [hd] at hspans
    rw [← (readState_alike options path h).1, hd] at hspans'
    exact ⟨Document.outcome_inBytes hspans, Document.outcome_inBytes hspans'⟩

/-- With comments and carriage returns, and without. One call is of no mixin, which is
warned about. -/
theorem compile_respelled_comments :
    let text : Text := "@a: 1px; // size\r\n.b /* \x7b */\x7b c: @a + 2; .m; \x7d\r"
    let text' : Text := "@a: 1px; \n.b \x7b c: @a + 2; .m; \x7d\n"
    Glyph.visible text = Glyph.visible text' ∧
      (compile {} standardInput text).result = .ok ".b \x7b c: 3px; \x7d\n" ∧
        Respelled {} standardInput text text' := by
  refine ⟨by decide +kernel, by decide +kernel, compile_respelled (by decide +kernel)⟩

end StyleSheet

end Cascade
