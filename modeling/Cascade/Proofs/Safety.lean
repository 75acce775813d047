import Cascade.Proofs.Bytes
import Cascade.Proofs.Loading
import Cascade.Proofs.Spans
import Cascade.Proofs.Turns

/-!
# Reading is safe

Whatever the text, its path, the options and the files around it, reading ends with a
style sheet or with a failure that has a place (`StyleSheet.safeReading`). On the way
nothing is done that a text, a slice or a place does not admit:

- the loop over statements goes on only to what is shorter, and files are imported only
  as deep as there are files;
- slices are cut within the slice at hand, and all slices of an outline within their
  source;
- texts are cut between characters, and the search for the group at the end of a text
  counts no lower than zero;
- a span, also one that begins at the end of its source, comes to offsets in order and
  in the source, between characters.
-/

namespace Cascade.StyleSheet

/-- What is safe about reading a style sheet. -/
structure SafeReading (options : Options) (path : Path) (text : Text) : Prop where
  /-- Reading ends, and a failure says where. All spans that are left behind fit. -/
  ends : match (read options path text).result with
    | .ok sheet => sheet.sources.FitAll sheet.document.spans
    | .error failure => ∃ cause span, (readState options path text).2.sources.Fits span ∧
        failure = .located cause ((readState options path text).2.sources.locate span)
          options.unicode
  /-- What is noted has a place. -/
  notes : (readState options path text).2.sources.FitAll
    ((readState options path text).2.notes.toList.map Prod.fst)
  /-- No turn of the loop leaves as much as it found, except the last. -/
  turns : ∀ c c' : Cursor, c.turn = .on c' → c'.input.length < c.input.length
  /-- The loop over the statements of a source comes to what its outline says. -/
  loop : ∀ source ∈ (readState options path text).2.sources.toList, ∃ n last,
    n ≤ (Glyph.ofText source.text).length ∧ Cursor.Turns n ⟨[], .ofText source.text⟩ last ∧
      last.turn = (Outline.ofText source.text).verdict .ended
  /-- What would be done more files deep than there are files is never done. -/
  imports : ∀ beyond : Path → Text → Reading Document,
    Document.readNested options beyond (options.fileSystem.keys.length + 1)
      [options.fileSystem.key path] path text = Document.readEntry options path text
  /-- Slices are cut in bounds. -/
  slices : ∀ s : Slice, s.Cuts
  /-- The statements and preludes of a source are slices of it. -/
  statements : ∀ source ∈ (readState options path text).2.sources.toList,
    (Outline.ofText source.text).Stands (.ofText source.text)
  /-- So is the value of a property. -/
  values : ∀ source whole p, Property.read source whole = .ok p → p.value.Quotes source whole
  /-- So are the arguments of a call, which stand before the end of it. -/
  arguments : ∀ source whole c, MixinCall.read source whole = .ok c → ∀ a ∈ c.arguments,
    ∃ inside : Slice, inside.Followed whole ∧ a.Quotes source inside
  /-- Texts are cut between characters. -/
  texts : ∀ t : Text, t.Cuts
  /-- An import statement is cut between characters behind its keyword. -/
  targets : ∀ s : Slice, Statement.beginsImport s.text = true →
    let statement := (s.untilTop Statement.endsDefinition).1.collapsed
    Text.between? 7 (String.utf8Len statement) statement = some (statement.drop 7)
  /-- The span of a slice comes to offsets in order, in bounds and between characters. -/
  spans : ∀ source ∈ (readState options path text).2.sources.toList, ∀ (n : Nat) (s : Slice),
    ∃ part, Text.between? (source.bytes (s.span n)).1 (source.bytes (s.span n)).2 source.text =
      some part

/-- Reading is safe whatever is read. -/
theorem safeReading (options : Options) (path : Path) (text : Text) :
    SafeReading options path text where
  ends := by
    have hresult := (readState_grounded options path text).2
    unfold read
    rcases hst : readState options path text with ⟨result, st⟩
    rw [hst] at hresult
    cases result with
    | ok d => exact hresult
    | error fault => exact ⟨fault.cause, fault.span, hresult, rfl⟩
  notes := (readState_grounded options path text).1
  turns _ _ := Cursor.length_lt_of_turn
  loop source _ := Cursor.loop_ofText source.text
  imports beyond := Document.readNested_eq_readEntry options beyond path text
  slices := Slice.cuts
  statements source _ := Outline.stands_ofText source.text
  values _ _ _ := Property.quotes_of_read
  arguments _ _ _ h := (MixinCall.of_read h).2
  texts := Text.cuts
  targets _ := Text.between?_importing
  spans source _ n s := ⟨_, source.between?_bytes (s.span_start_lt n)⟩

end Cascade.StyleSheet
