import Cascade.Proofs.Keys
import Cascade.Proofs.Parts
import Cascade.Proofs.Retabling
import Cascade.Proofs.Spans

/-!
# What warnings are about

A warning is about a mixin call or about the condition of a rule, and carries the span it
was written at. `Document.constructs` lists all of these with their spans, at any depth and
in every file that is imported, each by its address.

In a document that has been read the span tells them apart
(`Document.constructs_unique_of_read`): a call and a prelude begin at glyphs of their own,
since neither is empty, and every file that is read is a source of its own. Reading is
followed by what it adds, as it is for the keys of definitions.
-/

namespace Cascade

/-- A mixin call, by its number among the declarations of the block at an address, or the
condition of the rule at an address. -/
inductive Construct where
  | call (block : Address) (number : Nat)
  | condition (rule : Address)
deriving DecidableEq, Repr

/-- A construct and a span that warnings about it carry. -/
abbrev Mark := Span × Construct

/-! ## The constructs of a document -/

/-- The calls among the declarations of the block at the address. The first declaration
has the number `i`. -/
def callMarks (a : Address) (i : Nat) : List Declaration → List Mark
  | [] => []
  | .property _ :: rest => callMarks a (i + 1) rest
  | .call c :: rest => (c.span, .call a i) :: callMarks a (i + 1) rest

/-- A warning about a condition is about the whole rule or about what is tested. -/
def conditionMarks (a : Address) (rule : Span) : Option Condition → List Mark
  | none => []
  | some condition => (rule :: condition.spans).map (·, .condition a)

mutual

/-- All calls and conditions of a document at the address. -/
def Document.constructs (a : Address) : Document → List Mark
  | ⟨_, block⟩ => block.constructs a

def Block.constructs (a : Address) : Block → List Mark
  | ⟨imports, _, declarations, children⟩ =>
    importMarks a 0 imports ++ callMarks a 0 declarations ++ ruleMarks a 0 children

def Rule.constructs (a : Address) : Rule → List Mark
  | ⟨_, _, _, condition, block, span⟩ => conditionMarks a span condition ++ block.constructs a

def Import.constructs (a : Address) : Import → List Mark
  | .sheet document => document.constructs a
  | .css _ => []

/-- The first of the imports has the number `i`. -/
def importMarks (a : Address) (i : Nat) : List Import → List Mark
  | [] => []
  | x :: rest => x.constructs (.imported i :: a) ++ importMarks a (i + 1) rest

def ruleMarks (a : Address) (i : Nat) : List Rule → List Mark
  | [] => []
  | r :: rest => r.constructs (.child i :: a) ++ ruleMarks a (i + 1) rest

end

theorem Document.constructs_eq (a : Address) (d : Document) :
    d.constructs a = d.block.constructs a := by
  cases d
  rfl

theorem Rule.constructs_eq (a : Address) (r : Rule) :
    r.constructs a = conditionMarks a r.span r.condition ++ r.block.constructs a := by
  cases r
  rfl

theorem callMarks_append (a : Address) (d : Declaration) : ∀ (i : Nat) (l : List Declaration),
    callMarks a i (l ++ [d]) = callMarks a i l ++ callMarks a (i + l.length) [d]
  | i, [] => rfl
  | i, .property _ :: rest => by
      rw [List.cons_append, callMarks, callMarks, callMarks_append a d, List.length_cons,
        Nat.succ_add_eq_add_succ]
  | i, .call _ :: rest => by
      rw [List.cons_append, callMarks, callMarks, callMarks_append a d, List.length_cons,
        Nat.succ_add_eq_add_succ, List.cons_append]

theorem importMarks_append (a : Address) (x : Import) (i : Nat) (imports : List Import) :
    importMarks a i (imports ++ [x]) =
      importMarks a i imports ++ x.constructs (.imported (i + imports.length) :: a) := by
  induction imports generalizing i with
  | nil =>
      rw [List.nil_append, importMarks, importMarks, importMarks, List.append_nil]
      rfl
  | cons _ rest ih =>
      rw [List.cons_append, importMarks, importMarks, ih, List.length_cons,
        Nat.succ_add_eq_add_succ, List.append_assoc]

theorem ruleMarks_append (a : Address) (r : Rule) : ∀ (i : Nat) (rules : List Rule),
    ruleMarks a i (rules ++ [r]) =
      ruleMarks a i rules ++ r.constructs (.child (i + rules.length) :: a)
  | i, [] => by rw [List.nil_append, ruleMarks, ruleMarks, ruleMarks, List.append_nil]; rfl
  | i, _ :: rest => by
      rw [List.cons_append, ruleMarks, ruleMarks, ruleMarks_append a r, List.length_cons,
        Nat.succ_add_eq_add_succ, List.append_assoc]

/-! ## Where calls and preludes begin -/

/-- Where a mixin call begins. -/
def Statement.callStarts : Statement → List Nat
  | call whole => [whole.start]
  | importing _ | definition _ _ _ | directive _ | property _ => []

/-- A call is not empty, so what follows it begins behind its first glyph. -/
theorem Statement.start_of_cut_call {nested : Bool} {s whole rest : Slice} {c : Char} {t : Text}
    (hs : s.text = c :: t) (hc : endsDefinition c = false)
    (h : cut nested s = .statement (.call whole) rest) :
    whole.start = s.start ∧ s.start < rest.start := by
  cases cutsTo_of_cut h with
  | plain _ _ hbrace hst =>
      cases hst
      refine ⟨rfl, Nat.lt_of_lt_of_le ?_ (start_le_afterEnd _)⟩
      rw [Slice.start_untilTop_snd]
      exact Nat.lt_add_of_pos_right (List.length_pos_iff.mpr (untilEnd_ne_nil hs hc hbrace))

namespace Outline

/-- Where the mixin calls and the preludes of blocks begin, in order. -/
def constructStarts : Outline → List Nat
  | closed | broken _ _ => []
  | statement st rest => st.callStarts ++ constructStarts rest
  | block prelude body rest => prelude.start :: (constructStarts body ++ constructStarts rest)

/-- The calls and preludes begin one behind the other. -/
theorem Scans.constructStarts_inOrder {opened : Option Slice} {input rest : Slice}
    {outline : Outline} (h : Scans opened input outline rest) :
    InOrder input.start rest.start outline.constructStarts := by
  induction h with
  | ended | unclosed | unmatched | broken | close => exact .nil
  | @skip _ input _ _ _ _ _ ih =>
      exact ih.mono (Nat.le_trans input.start_le_dropGap (Nat.le_add_right _ _))
  | @statement opened input after rest _ _ st outline hs hc hcut hscans ih =>
      have hgap := input.start_le_dropGap
      have hafter := (Statement.start_of_cut_statement hcut).1
      have hrest := hscans.start_le
      cases st with
      | importing | definition | directive | property => exact ih.mono (Nat.le_trans hgap hafter)
      | call whole =>
          obtain ⟨hwhole, hlt⟩ := Statement.start_of_cut_call hs hc hcut
          refine InOrder.cons ih ?_ ?_ ?_ <;> omega
  | @block opened input prelude after inside rest _ _ body outline hs hc hcut hbody hscans ihbody
      ih =>
      have hgap := input.start_le_dropGap
      obtain ⟨hprelude, hafter⟩ := Statement.start_of_cut_opening hcut
      have hinside := hbody.start_le
      have hrest := hscans.start_le
      refine (ihbody.append ih hinside hrest).cons ?_ ?_ ?_ <;> omega

theorem constructStarts_ofText_nodup (t : Text) : (ofText t).constructStarts.Nodup :=
  (scan_scans none (.ofText t)).constructStarts_inOrder.sorted.imp Nat.ne_of_lt

end Outline

/-! ## What a reading adds -/

/-- Marks that are added by reading the given places of a source, and files that become the
sources from `first` up to, not including, `last`. Among them a span tells the construct. -/
structure AddsMarks (source : Nat) (places : List Nat) (first last : Nat) (added : List Mark) :
    Prop where
  unique : ∀ x ∈ added, ∀ y ∈ added, x.1 = y.1 → x.2 = y.2
  stands : ∀ x ∈ added,
    x.1.source = source ∧ x.1.start ∈ places ∨ first ≤ x.1.source ∧ x.1.source < last

namespace AddsMarks

variable {source first middle last : Nat} {places places' : List Nat} {added added' : List Mark}

theorem nil : AddsMarks source places first last [] :=
  ⟨fun _ => List.not_mem_nil.elim, fun _ => List.not_mem_nil.elim⟩

/-- Marks of one construct, all with the same span. -/
theorem single {place : Nat} {construct : Construct} {span : Span} (hsource : span.source = source)
    (hstart : span.start = place) (h : ∀ x ∈ added, x = (span, construct)) :
    AddsMarks source [place] first last added := by
  refine ⟨fun x hx y hy _ => by rw [h x hx, h y hy], fun x hx => .inl ?_⟩
  rw [h x hx]
  exact ⟨hsource, List.mem_singleton.mpr hstart⟩

theorem append (h : AddsMarks source places first middle added)
    (h' : AddsMarks source places' middle last added') (hplaces : (places ++ places').Nodup)
    (hsource : source < first) (hfirst : first ≤ middle) (hlast : middle ≤ last) :
    AddsMarks source (places ++ places') first last (added ++ added') := by
  have apart : ∀ x ∈ added, ∀ y ∈ added', x.1 ≠ y.1 := by
    rintro x hx y hy heq
    have hx := h.stands x hx
    rw [heq] at hx
    rcases hx with ⟨hs, hp⟩ | ⟨hs, hp⟩ <;> rcases h'.stands y hy with ⟨hs', hp'⟩ | ⟨hs', hp'⟩
    · exact List.disjoint_of_nodup_append hplaces hp hp'
    all_goals omega
  refine ⟨fun x hx y hy heq => ?_, fun x hx => ?_⟩
  · rcases List.mem_append.mp hx with hx | hx <;> rcases List.mem_append.mp hy with hy | hy
    · exact h.unique x hx y hy heq
    · exact (apart x hx y hy heq).elim
    · exact (apart y hy x hx heq.symm).elim
    · exact h'.unique x hx y hy heq
  · rcases List.mem_append.mp hx with hx | hx
    · rcases h.stands x hx with ⟨hs, hp⟩ | ⟨hs, hp⟩
      · exact .inl ⟨hs, List.mem_append_left _ hp⟩
      · exact .inr ⟨hs, Nat.lt_of_lt_of_le hp hlast⟩
    · rcases h'.stands x hx with ⟨hs, hp⟩ | ⟨hs, hp⟩
      · exact .inl ⟨hs, List.mem_append_right _ hp⟩
      · exact .inr ⟨Nat.le_trans hfirst hs, hp⟩

theorem mono (h : AddsMarks source places first last added) (hadded : added' ⊆ added) :
    AddsMarks source places first last added' :=
  ⟨fun x hx y hy => h.unique x (hadded hx) y (hadded hy), fun x hx => h.stands x (hadded hx)⟩

end AddsMarks

/-! ## Reading -/

/-- A reader of files: it adds sources, and the constructs of the document are in those. -/
def Reading.MarksDocument (m : Reading Document) : Prop :=
  ∀ {st e st'}, m.run.run st = (.ok e, st') →
    st.sources.size ≤ st'.sources.size ∧
      ∀ a source, AddsMarks source [] st.sources.size st'.sources.size (e.constructs a)

namespace Block

theorem constructs_eq (a : Address) (b : Block) : b.constructs a =
    importMarks a 0 b.imports ++ callMarks a 0 b.declarations ++ ruleMarks a 0 b.children := by
  cases b
  rfl

theorem addImport_constructs_subset (a : Address) (b : Block) (x : Import) :
    (b.addImport x).constructs a ⊆
      x.constructs (.imported b.imports.length :: a) ++ b.constructs a := by
  rw [constructs_eq, constructs_eq]
  simp only [addImport, importMarks_append, Nat.zero_add]
  intro mark
  simp only [List.mem_append]
  tauto

theorem addDeclaration_constructs_subset (a : Address) (b : Block) (d : Declaration) :
    (b.addDeclaration d).constructs a ⊆
      callMarks a b.declarations.length [d] ++ b.constructs a := by
  rw [constructs_eq, constructs_eq]
  simp only [addDeclaration, callMarks_append, Nat.zero_add]
  intro mark
  simp only [List.mem_append]
  tauto

theorem addChild_constructs_subset (a : Address) (b : Block) (r : Rule) :
    (b.addChild r).constructs a ⊆
      r.constructs (.child b.children.length :: a) ++ b.constructs a := by
  rw [constructs_eq, constructs_eq]
  simp only [addChild, ruleMarks_append, Nat.zero_add]
  intro mark
  simp only [List.mem_append]
  tauto

theorem addVariable_constructs (a : Address) (b : Block) (name : Text) (value : Raw) :
    (b.addVariable name value).constructs a = b.constructs a := by
  cases b
  rfl

theorem constructs_empty (a : Address) : empty.constructs a = [] := rfl

end Block

/-- The condition of a rule that has been read carries the span of the prelude. -/
theorem Rule.HeadedBy.conditionMarks {source : Nat} {prelude : Slice} {rule : Rule}
    (h : rule.HeadedBy source prelude) (a : Address) :
    ∀ x ∈ conditionMarks a rule.span rule.condition,
      x = (prelude.span source, Construct.condition a) := by
  intro x hx
  cases hcondition : rule.condition with
  | none =>
      rw [hcondition] at hx
      cases hx
  | some condition =>
      rw [hcondition] at hx
      obtain ⟨span, hspan, rfl⟩ := List.mem_map.mp hx
      rcases List.mem_cons.mp hspan with rfl | hspan
      · rw [h.span]
      · have hsplit : Condition.split prelude.collapsed (prelude.span source) =
            ((Condition.split prelude.collapsed (prelude.span source)).1, some condition) :=
          Prod.ext rfl (h.condition.symm.trans hcondition)
        rw [Condition.spans_of_split hsplit hspan]

namespace Desk

variable {d : Desk} {st st' : ReadingState}

/-- The other files are read by readers of files. -/
def ReadsMarked (d : Desk) : Prop :=
  ∀ key read, d.reader? key = some read → ∀ path text, (read path text).MarksDocument

/-- What a step of reading makes of a block, wherever it stands. -/
def Marks (source : Nat) (places : List Nat) (st st' : ReadingState) (block block' : Block) :
    Prop :=
  st.sources.size ≤ st'.sources.size ∧ ∀ a, ∃ added,
    block'.constructs a ⊆ added ++ block.constructs a ∧
      AddsMarks source places st.sources.size st'.sources.size added

namespace Marks

variable {source : Nat} {places places' : List Nat} {st₁ : ReadingState}
  {block block₁ block' : Block}

theorem nothing (hsources : st'.sources = st.sources)
    (h : ∀ a, block'.constructs a ⊆ block.constructs a) :
    Marks source places st st' block block' :=
  ⟨Nat.le_of_eq (by rw [hsources]), fun a => ⟨[], h a, .nil⟩⟩

theorem trans (h : Marks source places st st₁ block block₁)
    (h' : Marks source places' st₁ st' block₁ block') (hplaces : (places ++ places').Nodup)
    (hsource : source < st.sources.size) :
    Marks source (places ++ places') st st' block block' := by
  obtain ⟨hle, h⟩ := h
  obtain ⟨hle', h'⟩ := h'
  refine ⟨Nat.le_trans hle hle', fun a => ?_⟩
  obtain ⟨added, hsubset, hadds⟩ := h a
  obtain ⟨added', hsubset', hadds'⟩ := h' a
  refine ⟨added ++ added', fun mark hmark => ?_, hadds.append hadds' hplaces hsource hle hle'⟩
  rcases List.mem_append.mp (hsubset' hmark) with hmark | hmark
  · exact List.mem_append_left _ (List.mem_append_right _ hmark)
  · rcases List.mem_append.mp (hsubset hmark) with hmark | hmark
    · exact List.mem_append_left _ (List.mem_append_left _ hmark)
    · exact List.mem_append_right _ hmark

end Marks

/-- What is passed through holds no construct. -/
theorem marks_directive {source : Nat} {places : List Nat} (block : Block) (text : Text)
    (span : Span) (hsources : st'.sources = st.sources) :
    Marks source places st st' block (block.addChild (.directive text span)) :=
  .nothing hsources fun a => block.addChild_constructs_subset a _

theorem Loads.marks (hreads : d.ReadsMarked) {file : Path} {span : Span} {i : Import}
    (block : Block) (h : d.Loads file span st i st') :
    Marks d.source [] st st' block (block.addImport i) := by
  cases h with
  | css => exact .nothing rfl fun a => block.addImport_constructs_subset a _
  | sheet hread _ _ hdocument =>
      obtain ⟨hle, hadds⟩ := hreads _ _ hread _ _ hdocument
      exact ⟨hle, fun a => ⟨_, block.addImport_constructs_subset a _, hadds _ _⟩⟩

theorem Takes.marks (hreads : d.ReadsMarked) {s : Statement} {block block' : Block}
    (h : d.Takes block st s block' st') : Marks d.source s.callStarts st st' block block' := by
  cases h with
  | passing | directive => exact marks_directive block _ _ rfl
  | importing _ _ hloads =>
      exact hloads.marks hreads block
  | definition =>
      refine .nothing rfl fun a => ?_
      rw [block.addVariable_constructs]
      exact List.Subset.refl _
  | call hread =>
      refine ⟨Nat.le_refl _, fun a => ⟨_, block.addDeclaration_constructs_subset a _, ?_⟩⟩
      have hspan := (MixinCall.of_read hread).1
      exact .single (by rw [hspan]; rfl) (by rw [hspan]; rfl) fun x => List.mem_singleton.mp
  | property => exact .nothing rfl fun a => block.addDeclaration_constructs_subset a _

theorem readInto_marks (hreads : d.ReadsMarked) :
    ∀ {outline : Outline} {parents : List Text} {block block' : Block} {st st' : ReadingState},
      d.source < st.sources.size → outline.constructStarts.Nodup →
      (d.readInto parents block outline).run.run st = (.ok block', st') →
      Marks d.source outline.constructStarts st st' block block'
  | .closed, _, _, _, _, _, _, _, h => by
      cases h
      exact .nothing rfl fun a => List.Subset.refl _
  | .broken _ _, _, _, _, _, _, _, _, h => by cases h
  | .statement s rest, parents, block, block', st, st', hsource, hstarts, h => by
      obtain ⟨block₁, st₁, hs, h⟩ := Reading.bind_ok h
      have hmarks := (takes_of_addStatement hs).marks hreads
      exact hmarks.trans
        (readInto_marks hreads (Nat.lt_of_lt_of_le hsource hmarks.1) hstarts.of_append_right h)
        hstarts hsource
  | .block prelude body rest, parents, block, block', st, st', hsource, hstarts, h => by
      obtain ⟨rule, st₁, hheading, h⟩ := Reading.bind_ok h
      obtain ⟨contents, st₂, hbody, h⟩ := Reading.bind_ok h
      have hheads := heads_of_heading hheading
      have hsources := hheads.sources_eq
      have hheaded := hheads.headedBy
      have hinner := (List.nodup_cons.mp hstarts).2
      have hplaces : ([prelude.start] ++ body.constructStarts).Nodup :=
        hstarts.sublist ((List.sublist_append_left _ _).cons_cons _)
      have hbody := readInto_marks hreads (hsources ▸ hsource) hinner.of_append_left hbody
      have hrule : Desk.Marks d.source ([prelude.start] ++ body.constructStarts) st st₂ block
          (block.addChild { rule with block := contents }) := by
        obtain ⟨hle, hadds⟩ := hbody
        rw [hsources] at hle
        refine ⟨hle, fun a => ⟨_, block.addChild_constructs_subset a _, ?_⟩⟩
        obtain ⟨added, hsubset, hadds⟩ := hadds (.child block.children.length :: a)
        rw [hsources] at hadds
        rw [Block.constructs_empty, List.append_nil] at hsubset
        rw [Rule.constructs_eq]
        refine (AddsMarks.single rfl rfl (hheaded.conditionMarks _)).append
          (hadds.mono hsubset) hplaces hsource (Nat.le_refl _) hle
      refine hrule.trans (readInto_marks hreads ?_ hinner.of_append_right h) hstarts hsource
      exact Nat.lt_of_lt_of_le hsource hrule.1

end Desk

/-- The constructs of a document that has been read are in its sources, and a span tells
them apart. -/
theorem Document.read_marksDocument (options : Options) (idle : List Path.Key) (path : Path)
    (text : Text) : (Document.read options idle path text).MarksDocument := by
  intro st e st' h
  obtain ⟨d, block, hdesk, rfl, hblock⟩ := desk_of_read h
  have hreads : d.ReadsMarked := by
    intro key read hread path text
    obtain ⟨rest, hlt, rfl⟩ := hdesk.reader key read hread
    exact read_marksDocument options rest path text
  have hnumber := hdesk.source
  have hsource : d.source < (st.sources.push ⟨path.text, text⟩).size := by simp [hnumber]
  obtain ⟨hle, hmarks⟩ :=
    Desk.readInto_marks hreads hsource (Outline.constructStarts_ofText_nodup text) hblock
  simp only [Array.size_push] at hle hmarks
  refine ⟨by omega, fun a source => ?_⟩
  obtain ⟨added, hsubset, hadds⟩ := hmarks a
  rw [Block.constructs_empty, List.append_nil] at hsubset
  rw [constructs_eq]
  refine ⟨(hadds.mono hsubset).unique, fun x hx => .inr ?_⟩
  rcases hadds.stands x (hsubset hx) with ⟨hs, -⟩ | ⟨hs, hs'⟩ <;> omega
termination_by idle.length

/-- Constructs of a document that has been read have spans of their own. -/
theorem Document.constructs_unique_of_read {options : Options} {path : Path} {text : Text}
    {d : Document} (h : (StyleSheet.readState options path text).1 = .ok d) {span : Span}
    {x y : Construct} (hx : (span, x) ∈ d.constructs []) (hy : (span, y) ∈ d.constructs []) :
    x = y := by
  have hrun : (Document.readEntry options path text).run.run ⟨#[], #[], #[]⟩ =
      (.ok d, (StyleSheet.readState options path text).2) := by
    rw [← h]
    rfl
  exact ((read_marksDocument _ _ _ _ hrun).2 [] 0).unique _ hx _ hy rfl

end Cascade
