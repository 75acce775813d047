import Cascade.FileSystem.Memory
import Cascade.Proofs.Quotations

/-!
# Strings in a document

What becomes of the strings of a source when it is read (`Document.keepsStrings_of_read`).
Values, variables and arguments are cut out and trimmed, so their strings are as they were
written. A prelude, a directive and an import are collapsed before anything else is done with
them: all of their strings come into the document, in order, but each of them collapsed, and
a name that is looked up is what is left of the string then.

What else is done with a prelude does not harm its strings, with one exception: the
parenthesis of a condition is looked for from behind, and where it is found in a string
(`Text.OpensOutside` fails) the condition begins in the middle of it.
-/

namespace Cascade

/-! ## Import targets -/

namespace Text

/-- A string ends at the first mark like its own, unless that is escaped. -/
theorem stringsFrom_name {mark : Char} (hmark : isQuote mark = true) {name after : Text}
    (hname : mark ∉ name) (hafter : ∀ c ∈ after, isQuote c = false) {escaped : Bool} {passed : Text}
    (hclosed : Quoting.run (.inside mark escaped) (name ++ mark :: after) = .outside) :
    stringsFrom (.inside mark escaped) passed (name ++ mark :: after) =
      [passed ++ (name ++ [mark])] := by
  induction name generalizing escaped passed with
  | nil =>
      have hproper := Quoting.Proper.step (q := .inside mark escaped) hmark mark
      have hstep : Quoting.step (.inside mark escaped) mark = .outside :=
        (run_plain_iff hafter hproper).mp hclosed
      rw [List.nil_append, stringsFrom, if_pos hstep,
        stringsFrom_eq_nil (q := .outside) hafter trivial]
      rfl
  | cons c name ih =>
      have hne : c ≠ mark := (List.ne_of_not_mem_cons hname).symm
      obtain ⟨escaped', hstep⟩ :
          ∃ escaped', Quoting.step (.inside mark escaped) c = .inside mark escaped' := by
        cases escaped with
        | true => exact ⟨false, rfl⟩
        | false =>
            rw [Quoting.step, if_neg hne]
            split
            · exact ⟨true, rfl⟩
            · exact ⟨false, rfl⟩
      rw [List.cons_append, Quoting.run_cons, hstep] at hclosed
      rw [List.cons_append, stringsFrom, hstep, if_neg (by simp),
        ih (List.not_mem_of_not_mem_cons hname) hclosed]
      simp

end Text

namespace ImportTarget

/-- What is looked up is what the only string of the statement says; a name in brackets has all
strings that there are. -/
inductive Names : ImportTarget → List Text → Prop
  | quoted {name : Path} {mark : Char} : isQuote mark = true →
      Names (.quoted name) [mark :: (name.text ++ [mark])]
  | bracketed {name : Path} : Names (.bracketed name) name.text.strings

theorem of_nameUpTo? {mark : Char} {t : Text} {name : Path} (h : nameUpTo? mark t = some name) :
    ∃ after, t = name.text ++ mark :: after ∧ mark ∉ name.text ∧ ∀ c ∈ after, isBlank c = true := by
  have htake := List.prefix_iff_eq_append.mp (List.takeWhile_prefix (l := t) (· ≠ mark))
  have hname : mark ∉ t.takeWhile (· ≠ mark) := fun hmem => by
    simpa using List.mem_takeWhile_imp hmem
  unfold nameUpTo? at h
  simp only at h
  split at h
  · cases h
  · rename_i c after hdrop
    split at h
    · cases h
    · rename_i hgood
      cases h
      rw [hdrop] at htake
      have hmark : c = mark := by
        have hagain : (t.takeWhile (· ≠ mark) ++ c :: after).takeWhile (· ≠ mark) = _ :=
          List.takeWhile_append_of_pos fun d hd => List.mem_takeWhile_imp (l := t) hd
        rw [htake, List.takeWhile_cons] at hagain
        by_contra hne
        simp [hne] at hagain
      subst hmark
      simp only [Bool.or_eq_true, not_or, Bool.not_eq_true', Bool.not_eq_false] at hgood
      refine ⟨after, htake.symm, hname, fun c hc => ?_⟩
      refine (Text.mem_trim_or_isBlank hc).resolve_left ?_
      rw [List.isEmpty_iff.mp hgood.1.1]
      exact List.not_mem_nil

theorem names_of_read? {t : Text} {target : ImportTarget} (h : read? t = some target)
    (hclosed : Quoting.run .outside t = .outside) : target.Names t.strings := by
  have hquoted : ∀ {mark : Char} {rest : Text}, isQuote mark = true →
      Quoting.run .outside (mark :: rest) = .outside →
        (nameUpTo? mark rest).map quoted = some target →
          target.Names (Text.strings (mark :: rest)) := by
    intro mark rest hmark hclosed h
    obtain ⟨name, hname, rfl⟩ := Option.map_eq_some_iff.mp h
    obtain ⟨after, rfl, hnot, hafter⟩ := of_nameUpTo? hname
    have hstep : Quoting.step .outside mark = .inside mark false := by
      rw [Quoting.step, hmark]
      rfl
    rw [Quoting.run_cons, hstep] at hclosed
    rw [Text.strings, Text.stringsFrom, hstep, Text.stringsFrom_name hmark hnot
      (fun c hc => not_isQuote_of_isBlank (hafter c hc)) hclosed]
    exact .quoted hmark
  unfold read? at h
  split at h
  · exact hquoted rfl hclosed h
  · exact hquoted rfl hclosed h
  · obtain ⟨name, hname, rfl⟩ := Option.map_eq_some_iff.mp h
    obtain ⟨after, rfl, -, hafter⟩ := of_nameUpTo? hname
    rw [Text.strings_cons rfl, Text.strings_append_plain]
    · exact .bracketed
    · intro c hc
      rcases List.mem_cons.mp hc with rfl | hc
      · rfl
      · exact not_isQuote_of_isBlank (hafter c hc)
  · cases h

end ImportTarget

/-- The keyword of an import has no part in its strings, so what names the target has all of
them. -/
theorem Statement.strings_target {s : Slice} (h : beginsImport s.text = true)
    (hne : (s.untilTop endsDefinition).2.text ≠ []) :
    let whole := (s.untilTop endsDefinition).1
    let target := Text.trim (whole.collapsed.drop "@import".length)
    target.strings = whole.text.strings.map Text.collapse ∧
      Quoting.run .outside target = .outside := by
  intro whole target
  obtain ⟨head, hlower, others, hothers⟩ := Text.exists_prefix_importing h
  have hlength : head.length = "@import".length := by
    rw [← List.length_map Char.toLower, hlower]
    rfl
  have hplain : ∀ c ∈ head, isQuote c = false := by
    intro c hc
    have hmem := Text.toLower_mem_import hlower c hc
    refine Bool.eq_false_iff.mpr fun hquote => ?_
    simp only [isQuote, Bool.or_eq_true, beq_iff_eq] at hquote
    rcases hquote with rfl | rfl <;> revert hmem <;> decide
  have hdrop : whole.collapsed.drop "@import".length = others := by
    rw [← hothers, ← hlength, List.drop_left]
  have hclosed : Quoting.run .outside whole.collapsed = .outside :=
    (Text.run_collapse whole.text).mpr (Slice.run_untilTop hne)
  constructor
  · rw [← Text.strings_collapse, show whole.text.collapse = head ++ others from hothers.symm,
      Text.strings_plain_append hplain]
    show Text.strings (Text.trim _) = _
    rw [Text.strings_trim, hdrop]
  · refine (Text.run_trim _).mpr ?_
    rw [hdrop]
    rwa [← hothers, Quoting.run_append, Text.run_of_plain hplain] at hclosed

/-! ## Preludes -/

/-- The strings of a default. -/
def Parameter.strings (p : Parameter) : List Text :=
  match p.fallback with
  | none => []
  | some raw => raw.text.strings

/-- The strings in what a rule is, besides its selectors. -/
def RuleKind.strings : RuleKind → List Text
  | style => []
  | mixin parameters => parameters.flatMap Parameter.strings
  | atRule prelude => prelude.strings
  | directive text => text.strings

def Condition.strings : Option Condition → List Text
  | some (test raw) | some (orTest raw) => raw.text.strings
  | some otherwise | none => []

/-- The strings in what a rule says before its block, in order. -/
def Rule.strings (r : Rule) : List Text :=
  r.ownSelectors.flatMap Text.strings ++ r.kind.strings ++ Condition.strings r.condition

/-- The group at the end, if there is one, is opened outside strings. -/
def Text.OpensOutside (t : Text) : Prop :=
  ∀ before inside, lastGroup? t = some (before, inside) → Quoting.run .outside before = .outside

theorem Text.strings_of_lastGroup? {t before inside : Text}
    (h : lastGroup? t = some (before, inside)) (hopens : Quoting.run .outside before = .outside) :
    t.strings = before.strings ++ inside.strings := by
  have hspec := lastGroup?_spec t
  rw [h] at hspec
  obtain ⟨rfl, -⟩ := hspec
  rw [strings_append hopens, strings_cons rfl, strings_append_plain]
  exact fun c hc => List.mem_singleton.mp hc ▸ rfl

theorem Condition.Splits.strings {span : Span} {prelude selector : Text}
    {condition? : Option Condition} (h : Splits span prelude selector condition?)
    (hopens : condition? = none ∨ prelude.OpensOutside) :
    prelude.strings = selector.strings ++ Condition.strings condition? := by
  have hkeyword : ∀ {before keyword selector : Text}, (∀ c ∈ keyword, isQuote c = false) →
      before.trimEnd = selector ++ keyword → before.strings = selector.trimEnd.strings := by
    intro before keyword selector hplain hbefore
    rw [← Text.strings_trimEnd before, hbefore, Text.strings_append_plain hplain,
      Text.strings_trimEnd]
  cases h with
  | unconditional => exact (List.append_nil _).symm
  | alone => rfl
  | otherwise =>
      rw [Text.strings_append_plain (Text.forall_mem_of_all (by decide))]
      exact (List.append_nil _).symm
  | test hgroup hhead | orTest hgroup hhead =>
      rw [Text.strings_of_lastGroup? hgroup (hopens.resolve_left nofun _ _ hgroup),
        hkeyword (Text.forall_mem_of_all (by decide)) hhead]
      simp only [Condition.strings, Text.strings_trim]

namespace Signature

/-- All strings of a parameter are in its default. -/
theorem strings_of_readParameter {mixin piece : Text} {span : Span} {before : List Parameter}
    {p : Parameter} (h : readParameter mixin span before piece = .ok p) :
    p.strings = piece.strings := by
  obtain ⟨declaration, rfl, hname, ⟨-, hchars⟩, -, hfallback⟩ := of_readParameter h
  have hplain : ∀ c ∈ declaration.takeWhile (· ≠ ':'), isQuote c = false := by
    intro c hc
    rcases Text.mem_trim_or_isBlank hc with hc | hc
    · exact not_isQuote_of_isNameChar (hchars c (hname ▸ hc))
    · exact not_isQuote_of_isBlank hc
  have hdefault : Text.strings declaration =
      Text.strings (declaration.dropWhile (· ≠ ':')) := by
    conv_lhs => rw [← List.takeWhile_append_dropWhile (p := (· ≠ ':')) (l := declaration)]
    exact Text.strings_plain_append hplain
  rw [Text.strings_cons rfl, hdefault, Parameter.strings, hfallback]
  cases hrest : declaration.dropWhile (· ≠ ':') with
  | nil => rfl
  | cons c rest =>
      have hcolon := List.head?_dropWhile_not (· ≠ ':') declaration
      rw [hrest] at hcolon
      obtain rfl : c = ':' := by simpa using hcolon
      exact (Text.strings_trim rest).trans (Text.strings_cons rfl).symm

/-- All strings between the parentheses are in the defaults. -/
theorem strings_of_readParameters {mixin inside : Text} {span : Span} {parameters : List Parameter}
    (h : readParameters mixin span inside = .ok parameters) :
    parameters.flatMap Parameter.strings = inside.strings := by
  have hpieces : parameters.flatMap Parameter.strings = (pieces inside).flatMap Text.strings := by
    refine readParameters_induction (motive := fun read parameters =>
      parameters.flatMap Parameter.strings = read.flatMap Text.strings) rfl
        (fun hbefore hread => ?_) h
    rw [List.flatMap_append, List.flatMap_append, hbefore, List.flatMap_singleton,
      List.flatMap_singleton, strings_of_readParameter hread]
  rw [hpieces, pieces, Text.flatMap_strings_filter, List.flatMap_map]
  simp only [Text.strings_trim]
  exact Text.flatMap_strings_splitTop not_isQuote_separator inside

/-- All strings of a signature are in its parameters. -/
theorem strings_of_read? {selector : Text} {span : Span} {signature : Signature}
    (h : read? selector span = .ok (some signature)) :
    signature.name.strings = [] ∧
      signature.parameters.flatMap Parameter.strings = selector.strings := by
  obtain ⟨rest, inside, rfl, hname, -, hgroup, hparameters⟩ := of_read? h
  have hplain : ∀ c ∈ rest.takeWhile isNameChar, isQuote c = false := fun c hc =>
    not_isQuote_of_isNameChar (List.mem_takeWhile_imp hc)
  have hsplit := List.prefix_iff_eq_append.mp (List.takeWhile_prefix (l := rest) isNameChar)
  refine ⟨?_, ?_⟩
  · rw [hname]
    exact (Text.strings_cons rfl).trans (Text.strings_of_plain hplain)
  · rw [strings_of_readParameters hparameters, Text.strings_cons rfl, ← hsplit,
      Text.strings_plain_append hplain, ← Text.strings_trimStart (rest.drop _),
      Text.strings_of_lastGroup? hgroup rfl]
    rfl

end Signature

/-- What a selector makes of a rule has all of its strings, if they are collapsed already. -/
theorem RuleKind.ReadFrom.strings {span : Span} {selector : Text} {kind : RuleKind}
    {own : List Text} (h : kind.ReadFrom span selector own)
    (hcollapsed : selector.strings.map Text.collapse = selector.strings) :
    own.flatMap Text.strings ++ kind.strings = selector.strings := by
  cases h with
  | mixin hsignature =>
      obtain ⟨hname, hparameters⟩ := Signature.strings_of_read? hsignature
      rw [List.flatMap_singleton, hname]
      exact hparameters
  | atRule => rfl
  | style =>
      rw [Selector.ofList, Text.flatMap_strings_filter, List.flatMap_map]
      simp only [Text.strings_collapse]
      rw [← List.map_flatMap, Text.flatMap_strings_splitTop rfl, hcollapsed]
      exact List.append_nil _

/-- The strings of a prelude are in the rule, each of them collapsed. A condition may be found
in the middle of a string, so the group that it is in must not be opened there. -/
theorem Rule.HeadedBy.strings {source : Nat} {prelude : Slice} {rule : Rule}
    (h : rule.HeadedBy source prelude)
    (hopens : rule.condition = none ∨ prelude.collapsed.OpensOutside) :
    rule.strings = prelude.text.strings.map Text.collapse := by
  have hsplits := Condition.split_splits prelude.collapsed (prelude.span source)
  rw [← h.condition] at hsplits
  have hstrings := hsplits.strings hopens
  have hcollapsed : prelude.collapsed.strings = prelude.text.strings.map Text.collapse :=
    Text.strings_collapse prelude.text
  have hselector : ∀ w ∈ (Condition.split prelude.collapsed (prelude.span source)).1.strings,
      w.collapse = w := by
    intro w hw
    have hmem := List.mem_append_left (Condition.strings rule.condition) hw
    rw [← hstrings, hcollapsed] at hmem
    obtain ⟨w', -, rfl⟩ := List.mem_map.mp hmem
    exact Text.collapse_collapse w'
  have hsame := (List.map_congr_left hselector).trans (List.map_id _)
  rw [Rule.strings, h.kind.strings hsame, ← hstrings, hcollapsed]

/-- There the string is cut in two. -/
example : Condition.split "a \" @if(\" b )".toList ⟨0, 0, 1⟩ =
    ("a \"".toList, some (.test ⟨"\" b".toList, ⟨0, 0, 1⟩⟩)) := by
  decide +kernel

/-! ## Arguments -/

namespace MixinCall

variable {source : Nat} {s rest whole : Slice} {arguments : List Raw}

theorem strings_of_readArguments (source : Nat) (inside : Slice) :
    (readArguments source inside).flatMap (·.text.strings) = inside.text.strings := by
  have hpieces := Slice.flatMap_strings_splitTop
    (not_isQuote_separator (p := 1 < (inside.splitTop ';').length)) inside
  unfold readArguments
  simp only
  split
  · rename_i hblank
    have hflat := congrArg (List.flatMap fun raw : Raw => raw.text.strings) hblank
    rw [List.flatMap_map] at hflat
    simp only [Slice.trimmed, Text.strings_trim] at hflat
    rw [← hpieces, hflat]
    rfl
  · rw [List.flatMap_map]
    simp only [Slice.trimmed, Text.strings_trim]
    exact hpieces

theorem strings_of_readArgumentList? (h : readArgumentList? source s = some (arguments, rest)) :
    arguments.flatMap (·.text.strings) ++ rest.text.strings = s.text.strings := by
  unfold readArgumentList? at h
  split at h
  · rename_i t ht
    simp only at h
    split at h
    · cases h
    · rename_i hne
      cases h
      obtain ⟨c, u, hclose⟩ :=
        List.exists_cons_of_ne_nil fun hnil => hne (List.length_eq_zero_iff.mpr hnil)
      have hend := Slice.stop_of_untilTop hclose
      have hc : c = ')' := beq_iff_eq.mp hend
      subst hc
      rw [strings_of_readArguments, Slice.strings_dropGap, Slice.strings_drop_one hclose rfl,
        ← Slice.strings_untilTop, Slice.strings_drop_one ht rfl]
  · cases h
    rfl

theorem strings_dropImportant (s : Slice) : (dropImportant s).text.strings = s.text.strings := by
  unfold dropImportant
  simp only
  split
  · rename_i rest hafter
    have htext := Text.eq_append_of_after? hafter
    rw [Slice.strings_dropGap]
    refine Slice.strings_drop ?_
    rw [htext, List.take_left]
    exact Text.forall_mem_of_all (by decide)
  · rfl

/-- All strings of a call are in its arguments. -/
theorem strings_of_read {c : MixinCall} (h : MixinCall.read source whole = .ok c)
    (hdot : whole.text.head? = some '.') :
    c.arguments.flatMap (·.text.strings) = whole.text.strings := by
  obtain ⟨t, ht⟩ := List.head?_eq_some_iff.mp hdot
  obtain ⟨name, arguments, rest, hname, -, hlist, hnil, rfl⟩ := parts_of_read h
  have hrest : rest.text.strings = [] := by
    rw [← strings_dropImportant, hnil]
    rfl
  have hlist := strings_of_readArgumentList? hlist
  rw [hrest, List.append_nil, Slice.strings_dropGap] at hlist
  rw [hlist]
  refine Slice.strings_drop fun b hb => ?_
  rw [ht, List.drop_succ_cons, List.drop_zero] at hname
  rw [ht, Nat.add_comm, List.take_succ_cons] at hb
  rcases List.mem_cons.mp hb with rfl | hb
  · rfl
  · rw [hname, ← List.prefix_iff_eq_take.mp (List.takeWhile_prefix isNameChar)] at hb
    exact not_isQuote_of_isNameChar (List.mem_takeWhile_imp hb)

end MixinCall

/-! ## What a document keeps -/

/-- What has been imported comes from the file: its text, or the document that it has been
read into. -/
def Import.IsFrom (options : Options) (file : Path) : Import → Prop
  | .sheet document => document.path = file
  | .css text => options.fileSystem.read file = .text text

/-- A variable of that name is defined among the statements, blocks left aside. -/
def Outline.Defines (name : Text) : Outline → Prop
  | closed | broken _ _ => False
  | statement (.definition n _ _) rest => n = name ∨ rest.Defines name
  | statement _ rest => rest.Defines name
  | block _ _ rest => rest.Defines name

/-- What has become of the strings of a statement in the block that it has been read into.
`rest` is what follows it there. -/
def Statement.Kept (options : Options) (path : Path) (source : Nat) (b : Block) (rest : Outline) :
    Statement → Prop
  | importing whole =>
    match ImportTarget.read? (Text.trim (whole.collapsed.drop "@import".length)) with
    | none => ∃ text, Rule.directive text (whole.span source) ∈ b.children ∧
        text.strings = whole.text.strings.map Text.collapse
    | some target => target.Names (whole.text.strings.map Text.collapse) ∧
        ∃ file, target.find? options path = some file ∧ ∃ i ∈ b.imports, i.IsFrom options file
  | directive whole => ∃ text, Rule.directive text (whole.span source) ∈ b.children ∧
      text.strings = whole.text.strings.map Text.collapse
  | definition name value _ => ¬rest.Defines name → ∃ raw, b.ownVariable? name = some raw ∧
      raw.span = value.span source ∧ raw.text.strings = value.text.strings
  | call whole => ∃ c, .call c ∈ b.declarations ∧ c.span = whole.span source ∧
      c.arguments.flatMap (·.text.strings) = whole.text.strings
  | property whole => ∃ p name value, .property p ∈ b.declarations ∧
      whole.cutAt? ':' = some (name, value) ∧ p.value.span = value.span source ∧
      p.value.text.strings = value.text.strings

/-- What has become of the strings of the first statement, or of the first prelude, in the
block that the outline has been read into. -/
def Outline.Kept (options : Options) (path : Path) (source : Nat) (b : Block) : Outline → Prop
  | closed | broken _ _ => True
  | statement s rest => s.Kept options path source b rest
  | block prelude _ _ => ∃ rule ∈ b.children, rule.HeadedBy source prelude ∧
      (rule.condition = none ∨ prelude.collapsed.OpensOutside →
        rule.strings = prelude.text.strings.map Text.collapse)

section Keeping

variable {options : Options} {path : Path} {source : Nat} {b b' : Block} {rest : Outline}

/-- What is read into the block later changes nothing, unless it is a variable of the same
name. -/
theorem Statement.Kept.grows {s : Statement} (h : s.Kept options path source b .closed)
    (hgrows : b.Grows b')
    (hvariables : ∀ name, ¬rest.Defines name → b'.ownVariable? name = b.ownVariable? name) :
    s.Kept options path source b' rest := by
  cases s with
  | importing whole =>
      unfold Statement.Kept at h ⊢
      simp only at h ⊢
      split at h
      · obtain ⟨text, hmem, hstrings⟩ := h
        exact ⟨text, hgrows.children hmem, hstrings⟩
      · obtain ⟨hnames, file, hfind, i, hmem, hfrom⟩ := h
        exact ⟨hnames, file, hfind, i, hgrows.imports hmem, hfrom⟩
  | directive whole =>
      obtain ⟨text, hmem, hstrings⟩ := h
      exact ⟨text, hgrows.children hmem, hstrings⟩
  | definition name value whole =>
      intro hlast
      rw [hvariables name hlast]
      exact h id
  | call whole =>
      obtain ⟨c, hmem, hcall⟩ := h
      exact ⟨c, hgrows.declarations hmem, hcall⟩
  | property whole =>
      obtain ⟨p, name, value, hmem, hproperty⟩ := h
      exact ⟨p, name, value, hgrows.declarations hmem, hproperty⟩

end Keeping

namespace Block

theorem lookup_define (name : Text) (value : Raw) (table : List (Text × Raw)) (n : Text) :
    (define name value table).lookup n = if n = name then some value else table.lookup n := by
  induction table with
  | nil =>
      rw [define, List.lookup_cons]
      split <;> simp_all
  | cons entry table ih =>
      rw [define]
      by_cases hentry : entry.1 = name
      · rw [if_pos hentry, List.lookup_cons, List.lookup_cons, hentry]
        by_cases hn : n = name
        · simp [hn]
        · simp [hn, beq_eq_false_iff_ne.mpr hn]
      · rw [if_neg hentry, List.lookup_cons, List.lookup_cons, ih]
        by_cases hn : n = name
        · have hne : (name == entry.1) = false := beq_eq_false_iff_ne.mpr (Ne.symm hentry)
          simp [hn, hne]
        · simp [hn]

theorem ownVariable?_addVariable (b : Block) (name : Text) (value : Raw) (n : Text) :
    (b.addVariable name value).ownVariable? n = if n = name then some value else b.ownVariable? n :=
  lookup_define name value b.definitions n

end Block

namespace Desk

variable {d : Desk} {st st' : ReadingState} {block block' : Block}

/-- Whatever file is read, the document has its path. -/
def ReadsPaths (d : Desk) : Prop :=
  ∀ key read, d.reader? key = some read → ∀ {path text st e st'},
    (read path text).run.run st = (.ok e, st') → e.path = path

theorem Takes.definitions_eq {s : Statement} (h : d.Takes block st s block' st')
    (hs : ∀ name value whole, s ≠ .definition name value whole) :
    block'.definitions = block.definitions := by
  cases h with
  | passing | importing | directive | call | property => rfl
  | definition => exact (hs _ _ _ rfl).elim

theorem ownVariable?_of_readInto {name : Text} :
    ∀ {outline : Outline} {parents : List Text} {block block' : Block} {st st' : ReadingState},
      (d.readInto parents block outline).run.run st = (.ok block', st') → ¬outline.Defines name →
        block'.ownVariable? name = block.ownVariable? name
  | .closed, _, _, _, _, _, h, _ => by
      cases h
      rfl
  | .broken _ _, _, _, _, _, _, h, _ => by cases h
  | .block _ _ rest, _, _, _, _, _, h, hnot => by
      obtain ⟨_, _, -, h⟩ := Reading.bind_ok h
      obtain ⟨_, _, -, h⟩ := Reading.bind_ok h
      have hrest := ownVariable?_of_readInto h (show ¬rest.Defines name from hnot)
      exact hrest
  | .statement s rest, _, _, _, _, _, h, hnot => by
      obtain ⟨_, _, hs, hrest⟩ := Reading.bind_ok h
      cases s with
      | definition n value whole =>
          obtain ⟨hne, hlast⟩ := not_or.mp hnot
          rw [ownVariable?_of_readInto hrest hlast]
          cases hs
          exact (Block.ownVariable?_addVariable _ _ _ _).trans (if_neg (Ne.symm hne))
      | importing | directive | call | property =>
          rw [ownVariable?_of_readInto hrest (show ¬rest.Defines name from hnot)]
          have hsame := (takes_of_addStatement hs).definitions_eq fun _ _ _ => Statement.noConfusion
          exact congrArg (List.lookup name) hsame

theorem Loads.isFrom (hreads : d.ReadsPaths) {file : Path} {span : Span} {i : Import}
    (h : d.Loads file span st i st') : i.IsFrom d.options file := by
  cases h with
  | css _ htext => exact htext
  | sheet hread _ _ hdocument => exact hreads _ _ hread hdocument

theorem Takes.kept (hreads : d.ReadsPaths) {s : Statement} (hs : s.WellBegun)
    (h : d.Takes block st s block' st') : s.Kept d.options d.path d.source block' .closed := by
  cases h with
  | passing hread =>
      simp only [Statement.Kept, hread]
      exact ⟨_, List.mem_append_right _ (List.mem_singleton_self _), Text.strings_collapse _⟩
  | @importing _ target file i _ hread hfind hloads =>
      obtain ⟨s, hbegins, rfl, hne⟩ := hs
      obtain ⟨hstrings, hclosed⟩ := Statement.strings_target hbegins hne
      simp only [Statement.Kept, hread]
      refine ⟨hstrings ▸ ImportTarget.names_of_read? hread hclosed, file, hfind, i, ?_,
        hloads.isFrom hreads⟩
      exact List.mem_append_right _ (List.mem_singleton_self _)
  | @definition name value =>
      intro _
      refine ⟨⟨value.trimmed, value.span d.source⟩, ?_, rfl, Text.strings_trim value.text⟩
      exact (Block.ownVariable?_addVariable _ _ _ _).trans (if_pos rfl)
  | @directive whole =>
      exact ⟨_, List.mem_append_right _ (List.mem_singleton_self _),
        Text.strings_collapse whole.text⟩
  | @call _ c hread =>
      exact ⟨c, List.mem_append_right _ (List.mem_singleton_self _), (MixinCall.of_read hread).1,
        MixinCall.strings_of_read hread hs⟩
  | property hread =>
      obtain ⟨name, value, hcut, -, rfl⟩ := Property.parts_of_read hread
      exact ⟨_, name, value, List.mem_append_right _ (List.mem_singleton_self _), hcut, rfl,
        Text.strings_trim value.text⟩

/-- What comes first is kept, whatever is read into the block after it. -/
theorem readInto_kept (hreads : d.ReadsPaths) {outline : Outline} {parents : List Text}
    (hbegun : outline.WellBegun)
    (h : (d.readInto parents block outline).run.run st = (.ok block', st')) :
    outline.Kept d.options d.path d.source block' := by
  cases outline with
  | closed | broken => trivial
  | statement s rest =>
      obtain ⟨_, _, hs, h⟩ := Reading.bind_ok h
      exact ((takes_of_addStatement hs).kept hreads hbegun.1).grows (readInto_grows h) fun _ hnot =>
        ownVariable?_of_readInto h hnot
  | block prelude body rest =>
      obtain ⟨rule, _, hheading, h⟩ := Reading.bind_ok h
      obtain ⟨contents, _, -, h⟩ := Reading.bind_ok h
      obtain ⟨hspan, hcondition, hkind⟩ := (heads_of_heading hheading).headedBy
      have hheaded : Rule.HeadedBy d.source prelude { rule with block := contents } :=
        ⟨hspan, hcondition, hkind⟩
      refine ⟨{ rule with block := contents }, ?_, hheaded, hheaded.strings⟩
      exact (readInto_grows h).children (List.mem_append_right _ (List.mem_singleton_self _))

end Desk

namespace Document

/-- What becomes of the strings of a source when it is read into the document. -/
structure KeepsStrings (options : Options) (path : Path) (source : Nat) (text : Text)
    (e : Document) : Prop where
  /-- A string is told from the rest of the source as it is written there. -/
  written : ∀ w ∈ (Glyph.visible text).strings, w <:+: text
  /-- Each string is in a statement or in a prelude. -/
  parts : (Outline.ofText text).strings = (Glyph.visible text).strings
  /-- And from there it comes into the document. -/
  kept : ∀ o : Outline, o.Part (.ofText text) →
    ∃ b, e.block.Holds b ∧ o.Kept options path source b
  /-- A string that is collapsed is still the same only if it has no white space but single
  spaces. -/
  unharmed : ∀ w ∈ (Glyph.visible text).strings,
    (w.collapse = w ↔ w.IsTidy ∧ ∀ c ∈ w, isBlank c = true → c = ' ')

variable {options : Options} {idle : List Path.Key} {path : Path} {text : Text} {e : Document}
  {st st' : ReadingState}

theorem path_of_read (h : (Document.read options idle path text).run.run st = (.ok e, st')) :
    e.path = path := by
  obtain ⟨_, _, -, rfl, -⟩ := desk_of_read h
  rfl

theorem keepsStrings_of_read
    (h : (Document.read options idle path text).run.run st = (.ok e, st')) :
    e.KeepsStrings options path st.sources.size text where
  written _ := Glyph.infix_of_mem_strings
  parts := Outline.strings_ofText (unbroken_of_read h)
  kept o hpart := by
    obtain ⟨d, block, ⟨hreader, rfl, rfl, hsource⟩, rfl, hread⟩ := desk_of_read h
    obtain ⟨_, _, _, b, _, hpart', hholds⟩ := Desk.readInto_part hpart hread
    have hreads : d.ReadsPaths := by
      intro key read hkey path text st e st' hrun
      obtain ⟨rest, -, rfl⟩ := hreader key read hkey
      exact path_of_read hrun
    have hbegun := hpart.wellBegun (Outline.wellBegun_ofText text)
    exact ⟨b, hholds, hsource ▸ Desk.readInto_kept hreads hbegun hpart'⟩
  unharmed _ _ := Text.collapse_eq_self_iff

/-- A string in a directive, an import, a default, a selector, a condition, a variable, a
property and an argument. -/
theorem keepsStrings_of_read_everywhere :
    let files : MemoryFiles := ⟨[(⟨"p.less"⟩, .text [])], []⟩
    let options : Options := { fileSystem := files.fileSystem }
    let text : Text := "@charset \"s\"; @import \"p\"; .m(@a: \"d, e\") \x7b \x7d " ++
      "a[b=\"f\"] @if (\"k\" = \"k\") \x7b @v: \"w\"; p: \"q\"; .m(\"r\"); \x7d"
    ∃ e st', (readEntry options ⟨"a.less"⟩ text).run.run ⟨#[], #[], #[]⟩ = (.ok e, st') ∧
      (Glyph.visible text).strings =
        (["\"s\"", "\"p\"", "\"d, e\"", "\"f\"", "\"k\"", "\"k\"", "\"w\"", "\"q\"",
          "\"r\""] : List Text) ∧
      e.KeepsStrings options ⟨"a.less"⟩ 0 text := by
  intro files options text
  have hok : ((readEntry options ⟨"a.less"⟩ text).run.run ⟨#[], #[], #[]⟩).1.isOk = true := by
    decide +kernel
  cases hread : (readEntry options ⟨"a.less"⟩ text).run.run ⟨#[], #[], #[]⟩ with
  | mk result st' =>
      rw [hread] at hok
      cases result with
      | error => cases hok
      | ok e => exact ⟨e, st', rfl, by decide +kernel, keepsStrings_of_read hread⟩

/-- A string in a directive is not what it was if it has two spaces in a row. -/
theorem not_mem_strings_of_directive :
    let text : Text := "@charset \"a  b\";"
    ∃ e st' rule, (readEntry {} ⟨"a.less"⟩ text).run.run ⟨#[], #[], #[]⟩ = (.ok e, st') ∧
      e.block.children = [rule] ∧ rule.kind = .directive "@charset \"a b\"" ∧
      "\"a  b\"".toList ∈ (Glyph.visible text).strings ∧ "\"a  b\"".toList ∉ rule.strings := by
  intro text
  have hkinds : ((readEntry {} ⟨"a.less"⟩ text).run.run ⟨#[], #[], #[]⟩).1.toOption.map
      (fun e => e.block.children.map fun rule => (rule.kind, rule.strings)) =
        some [(.directive "@charset \"a b\"", ["\"a b\"".toList])] := by
    decide +kernel
  cases hread : (readEntry {} ⟨"a.less"⟩ text).run.run ⟨#[], #[], #[]⟩ with
  | mk result st' =>
      rw [hread] at hkinds
      cases result with
      | error => cases hkinds
      | ok e =>
          obtain ⟨rule, hrule, hpair⟩ := List.map_eq_singleton_iff.mp (Option.some.inj hkinds)
          obtain ⟨hkind, hstrings⟩ := Prod.mk.inj hpair
          refine ⟨e, st', rule, rfl, hrule, hkind, by decide +kernel, ?_⟩
          rw [hstrings]
          decide

end Document

end Cascade
