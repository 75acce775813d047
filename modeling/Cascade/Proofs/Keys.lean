import Cascade.Proofs.Outlines
import Cascade.Proofs.Reading
import Cascade.Proofs.Scopes
import Cascade.StyleSheet

/-!
# The keys of a document that has been read

No two definitions of a document have the same key (`Document.keys_nodup_of_read`).
Within a file, definitions and blocks begin at different glyphs, and the parameters
of one mixin, which share a span, have different names. Every file that is read is a
source of its own, also one that is read twice.

Reading is followed by what it adds: the keys of a block after a statement are
among those before it and the added ones, each counted once (`List.Subperm`, since a
definition may replace one of the same name), and the added ones stand in places of
the file, or in sources, that nothing else adds to.
-/

namespace Cascade

/-! ## Adding to a block -/

namespace Block

theorem define_keys_subperm (name : Text) (value : Raw) :
    ∀ definitions : List (Text × Raw), ((define name value definitions).map definitionKey).Subperm
      ((name, value.span) :: definitions.map definitionKey)
  | [] => List.Subperm.refl _
  | (n, v) :: rest => by
      rw [define]
      split
      · rename_i heq
        subst heq
        exact ((List.sublist_cons_self _ _).cons_cons _).subperm
      · refine ((List.subperm_cons _).mpr (define_keys_subperm name value rest)).trans ?_
        exact (List.Perm.swap _ _ _).subperm

theorem keys_empty : Block.empty.keys = [] := rfl

theorem ruleKeys_append (rules : List Rule) (r : Rule) :
    ruleKeys (rules ++ [r]) = ruleKeys rules ++ r.keys := by
  induction rules with
  | nil => simp [ruleKeys]
  | cons _ _ ih => simp [ruleKeys, ih]

theorem importKeys_append (imports : List Import) (i : Import) :
    importKeys (imports ++ [i]) = importKeys imports ++ i.keys := by
  induction imports with
  | nil => simp [importKeys]
  | cons _ _ ih => simp [importKeys, ih]

theorem addVariable_keys_subperm (b : Block) (name : Text) (value : Raw) :
    (b.addVariable name value).keys.Subperm ((name, value.span) :: b.keys) := by
  rw [keys_eq, keys_eq]
  have := define_keys_subperm name value b.definitions
  exact (this.append (List.Subperm.refl _)).append (List.Subperm.refl _)

theorem addDeclaration_keys (b : Block) (d : Declaration) : (b.addDeclaration d).keys = b.keys := by
  cases b
  rfl

theorem addChild_keys_perm (b : Block) (r : Rule) :
    (b.addChild r).keys.Perm (r.keys ++ b.keys) := by
  rw [keys_eq, keys_eq]
  show (_ ++ ruleKeys (b.children ++ [r])).Perm _
  rw [ruleKeys_append, ← List.append_assoc]
  exact List.perm_append_comm

theorem addImport_keys_perm (b : Block) (i : Import) :
    (b.addImport i).keys.Perm (i.keys ++ b.keys) := by
  rw [keys_eq, keys_eq]
  show (b.definitions.map definitionKey ++ importKeys (b.imports ++ [i]) ++
    ruleKeys b.children).Perm _
  rw [importKeys_append, ← List.append_assoc, ← List.append_assoc]
  exact List.perm_append_comm.append_right _

end Block

/-! ## What a reading adds -/

/-- Keys that are added by reading the given places of a source, and files that become
the sources from `first` up to, not including, `last`. -/
structure Adds (source : Nat) (places : List Nat) (first last : Nat) (added : List DefinitionKey) :
    Prop where
  nodup : added.Nodup
  stands : ∀ key ∈ added,
    key.2.source = source ∧ key.2.start ∈ places ∨ first ≤ key.2.source ∧ key.2.source < last

namespace Adds

variable {source first middle last : Nat} {places places' : List Nat}
  {added added' : List DefinitionKey}

theorem nil : Adds source places first last [] := ⟨.nil, fun _ => List.not_mem_nil.elim⟩

theorem append (h : Adds source places first middle added)
    (h' : Adds source places' middle last added') (hplaces : (places ++ places').Nodup)
    (hsource : source < first) (hfirst : first ≤ middle) (hlast : middle ≤ last) :
    Adds source (places ++ places') first last (added ++ added') := by
  refine ⟨List.nodup_append.mpr ⟨h.nodup, h'.nodup, ?_⟩, ?_⟩
  · rintro key hkey _ hkey' rfl
    rcases h.stands key hkey with ⟨hs, hp⟩ | ⟨hs, hp⟩ <;>
      rcases h'.stands key hkey' with ⟨hs', hp'⟩ | ⟨hs', hp'⟩
    · exact List.disjoint_of_nodup_append hplaces hp hp'
    all_goals omega
  · intro key hkey
    rcases List.mem_append.mp hkey with hkey | hkey
    · rcases h.stands key hkey with ⟨hs, hp⟩ | ⟨hs, hp⟩
      · exact .inl ⟨hs, List.mem_append_left _ hp⟩
      · exact .inr ⟨hs, Nat.lt_of_lt_of_le hp hlast⟩
    · rcases h'.stands key hkey with ⟨hs, hp⟩ | ⟨hs, hp⟩
      · exact .inl ⟨hs, List.mem_append_right _ hp⟩
      · exact .inr ⟨Nat.le_trans hfirst hs, hp⟩

end Adds

/-! ## Parameters -/

namespace Signature

/-- Parameters of one mixin have different names, and their defaults the span of
the prelude. -/
structure Distinct (span : Span) (parameters : List Parameter) : Prop where
  names : (parameters.map Parameter.name).Nodup
  spans : ∀ p ∈ parameters, ∀ value ∈ p.fallback, value.span = span

theorem distinct_of_readParameters {mixin inside : Text} {span : Span}
    {parameters : List Parameter} (h : readParameters mixin span inside = .ok parameters) :
    Distinct span parameters := by
  refine readParameters_induction (motive := fun _ => Distinct span)
    ⟨.nil, fun _ => List.not_mem_nil.elim⟩ (fun hbefore hread => ?_) h
  obtain ⟨declaration, -, -, -, hnew, hfallback⟩ := of_readParameter hread
  refine ⟨?_, fun q hq value hvalue => ?_⟩
  · rw [List.map_append]
    exact hbefore.names.append (List.nodup_singleton _)
      fun name hmem hmem' => hnew (List.mem_singleton.mp hmem' ▸ hmem)
  · rcases List.mem_append.mp hq with hq | hq
    · exact hbefore.spans q hq value hvalue
    · rw [List.mem_singleton.mp hq, hfallback] at hvalue
      split at hvalue
      · cases hvalue
      · cases hvalue
        rfl

theorem distinct_of_read? {selector : Text} {span : Span} {s : Signature}
    (h : read? selector span = .ok (some s)) : Distinct span s.parameters := by
  obtain ⟨_, _, -, -, -, -, hparameters⟩ := of_read? h
  exact distinct_of_readParameters hparameters

namespace Distinct

variable {span : Span} {parameters : List Parameter}

theorem keys_nodup (h : Distinct span parameters) : (RuleKind.mixin parameters).keys.Nodup := by
  have hsublist (parameters : List Parameter) :
      ((parameters.filterMap Parameter.key?).map Prod.fst).Sublist
        (parameters.map Parameter.name) := by
    induction parameters with
    | nil => exact .slnil
    | cons p rest ih =>
        rcases p with ⟨name, _ | value⟩
        · exact ih.cons name
        · exact ih.cons_cons name
  exact (h.names.sublist (hsublist parameters)).of_map _

theorem key_span (h : Distinct span parameters) {key : DefinitionKey}
    (hkey : key ∈ (RuleKind.mixin parameters).keys) : key.2 = span := by
  obtain ⟨p, hp, hkey⟩ := List.mem_filterMap.mp hkey
  obtain ⟨value, hvalue, rfl⟩ := Option.map_eq_some_iff.mp hkey
  exact h.spans p hp value hvalue

end Distinct

end Signature

/-! ## Reading -/

/-- A reader of files: it adds sources, and the keys of the document are in those. -/
def Reading.AddsDocument (m : Reading Document) : Prop :=
  ∀ {st e st'}, m.run.run st = (.ok e, st') →
    st.sources.size ≤ st'.sources.size ∧
      ∀ source, Adds source [] st.sources.size st'.sources.size e.keys

namespace Desk

variable {d : Desk} {st st' : ReadingState}

/-- The other files are read by readers of files. -/
def Reads (d : Desk) : Prop :=
  ∀ key read, d.reader? key = some read → ∀ path text, (read path text).AddsDocument

theorem Heads.adds {parents : List Text} {prelude : Slice} {rule : Rule}
    (h : d.Heads parents prelude st rule st') (first last : Nat) :
    Adds d.source [prelude.start] first last rule.kind.keys := by
  cases h with
  | mixin _ hread =>
      have hdistinct := Signature.distinct_of_read? hread
      refine ⟨hdistinct.keys_nodup, fun key hkey => .inl ?_⟩
      rw [hdistinct.key_span hkey]
      exact ⟨rfl, List.mem_singleton.mpr rfl⟩
  | atRule | style => exact .nil

/-- What a step of reading makes of a block. -/
def Extends (source : Nat) (places : List Nat) (st st' : ReadingState) (block block' : Block) :
    Prop :=
  st.sources.size ≤ st'.sources.size ∧ ∃ added,
    block'.keys.Subperm (added ++ block.keys) ∧
      Adds source places st.sources.size st'.sources.size added

theorem Extends.trans {source : Nat} {places places' : List Nat} {st₁ : ReadingState}
    {block block₁ block' : Block} (h : Extends source places st st₁ block block₁)
    (h' : Extends source places' st₁ st' block₁ block') (hplaces : (places ++ places').Nodup)
    (hsource : source < st.sources.size) :
    Extends source (places ++ places') st st' block block' := by
  obtain ⟨hle, added, hkeys, hadds⟩ := h
  obtain ⟨hle', added', hkeys', hadds'⟩ := h'
  refine ⟨Nat.le_trans hle hle', added ++ added', ?_, hadds.append hadds' hplaces hsource hle hle'⟩
  refine hkeys'.trans (((List.subperm_append_left _).mpr hkeys).trans (List.Perm.subperm ?_))
  rw [← List.append_assoc]
  exact List.perm_append_comm.append_right _

theorem Loads.extends_block (hreads : d.Reads) {file : Path} {span : Span} {i : Import}
    (block : Block) (h : d.Loads file span st i st') :
    Extends d.source [] st st' block (block.addImport i) := by
  have hkeys := (block.addImport_keys_perm i).subperm
  cases h with
  | css => exact ⟨Nat.le_refl _, [], hkeys, .nil⟩
  | sheet hread _ _ hdocument =>
      obtain ⟨hle, hadds⟩ := hreads _ _ hread _ _ hdocument
      exact ⟨hle, _, hkeys, hadds _⟩

theorem Takes.extends_block (hreads : d.Reads) {s : Statement} {block block' : Block}
    (h : d.Takes block st s block' st') : Extends d.source s.starts st st' block block' := by
  cases h with
  | passing | directive =>
      exact ⟨Nat.le_refl _, [], (block.addChild_keys_perm _).subperm, .nil⟩
  | importing _ _ hloads => exact hloads.extends_block hreads block
  | @definition name value whole =>
      refine ⟨Nat.le_refl _, [(name, value.span d.source)], block.addVariable_keys_subperm _ _,
        List.nodup_singleton _, fun key hkey => .inl ?_⟩
      obtain rfl := List.mem_singleton.mp hkey
      exact ⟨rfl, List.mem_singleton.mpr rfl⟩
  | call | property =>
      refine ⟨Nat.le_refl _, [], ?_, .nil⟩
      rw [Block.addDeclaration_keys]
      exact List.Subperm.refl _

theorem readInto_extends (hreads : d.Reads) :
    ∀ {outline : Outline} {parents : List Text} {block block' : Block} {st st' : ReadingState},
      d.source < st.sources.size → outline.starts.Nodup →
      (d.readInto parents block outline).run.run st = (.ok block', st') →
      Extends d.source outline.starts st st' block block'
  | .closed, _, _, _, _, _, _, _, h => by
      cases h
      exact ⟨Nat.le_refl _, [], List.Subperm.refl _, .nil⟩
  | .broken _ _, _, _, _, _, _, _, _, h => by cases h
  | .statement s rest, parents, block, block', st, st', hsource, hstarts, h => by
      obtain ⟨block₁, st₁, hs, h⟩ := Reading.bind_ok h
      have hextends := (takes_of_addStatement hs).extends_block hreads
      exact hextends.trans
        (readInto_extends hreads (Nat.lt_of_lt_of_le hsource hextends.1) hstarts.of_append_right h)
        hstarts hsource
  | .block prelude body rest, parents, block, block', st, st', hsource, hstarts, h => by
      obtain ⟨rule, st₁, hheading, h⟩ := Reading.bind_ok h
      obtain ⟨contents, st₂, hbody, h⟩ := Reading.bind_ok h
      have hheads := heads_of_heading hheading
      have hsources := hheads.sources_eq
      have hprelude := (List.nodup_cons.mp hstarts).1
      have hinner := (List.nodup_cons.mp hstarts).2
      have hbody := readInto_extends hreads (hsources ▸ hsource) hinner.of_append_left hbody
      have hrule : Desk.Extends d.source (prelude.start :: body.starts) st st₂ block
          (block.addChild { rule with block := contents }) := by
        obtain ⟨hle, added, hkeys, hadds⟩ := hbody
        rw [hsources] at hle hadds
        refine ⟨hle, rule.kind.keys ++ added, ?_, (hheads.adds _ _).append hadds ?_ hsource
          (Nat.le_refl _) hle⟩
        · refine (block.addChild_keys_perm _).subperm.trans ((List.subperm_append_right _).mpr ?_)
          rw [Rule.keys_eq]
          refine (List.subperm_append_left _).mpr (hkeys.trans ?_)
          rw [Block.keys_empty, List.append_nil]
        · exact List.nodup_cons.mpr
            ⟨fun hmem => hprelude (List.mem_append_left _ hmem), hinner.of_append_left⟩
      refine hrule.trans (readInto_extends hreads ?_ hinner.of_append_right h) hstarts hsource
      exact Nat.lt_of_lt_of_le hsource hrule.1

end Desk

/-- The keys of a document that has been read belong to its sources, and no two are
the same. -/
theorem Document.read_addsDocument (options : Options) (idle : List Path.Key) (path : Path)
    (text : Text) : (Document.read options idle path text).AddsDocument := by
  intro st e st' h
  obtain ⟨d, block, hdesk, rfl, hblock⟩ := desk_of_read h
  have hreads : d.Reads := by
    intro key read hread path text
    obtain ⟨rest, hlt, rfl⟩ := hdesk.reader key read hread
    exact read_addsDocument options rest path text
  have hnumber := hdesk.source
  have hsource : d.source < (st.sources.push ⟨path.text, text⟩).size := by simp [hnumber]
  obtain ⟨hle, added, hkeys, hadds⟩ :=
    Desk.readInto_extends hreads hsource (Outline.starts_ofText_nodup text) hblock
  simp only [Array.size_push] at hle hadds
  rw [Block.keys_empty, List.append_nil] at hkeys
  refine ⟨by omega, fun source => ⟨?_, fun key hkey => .inr ?_⟩⟩
  · rw [keys_eq]
    obtain ⟨keys, hperm, hsublist⟩ := hkeys
    exact hperm.nodup_iff.mp (hadds.nodup.sublist hsublist)
  · rw [keys_eq] at hkey
    rcases hadds.stands key (hkeys.subset hkey) with ⟨hs, -⟩ | ⟨hs, hs'⟩ <;> omega
termination_by idle.length

/-- No two definitions of a document that has been read have the same key. -/
theorem Document.keys_nodup_of_read {options : Options} {path : Path} {text : Text} {d : Document}
    (h : (StyleSheet.readState options path text).1 = .ok d) : d.keys.Nodup := by
  have hrun : (Document.readEntry options path text).run.run ⟨#[], #[], #[]⟩ =
      (.ok d, (StyleSheet.readState options path text).2) := by
    rw [← h]
    rfl
  exact ((read_addsDocument _ _ _ _ hrun).2 0).nodup

end Cascade
