import Cascade.Proofs.Outcomes
import Cascade.Sheet.Reading

/-!
# Readings that succeed

What is known of a document that has been read is known of each step of its reading:
a reading that succeeds is taken apart by `Reading.bind_ok`. What a step can come to is
said once for each kind of step: for a parameter and a signature, for a file that is
imported (`Desk.Loads`), for a statement (`Desk.Takes`), for a prelude (`Desk.Heads`) and
for a document (`Document.desk_of_read`). What reading keeps is shown by cases on these.
In particular the outline of what is read does not break anywhere
(`Desk.unbroken_of_readInto`), as a break is a fault.
-/

namespace Cascade

namespace Reading

variable {α β : Type} {m : Reading α} {f : α → Reading β} {st st' : ReadingState}

theorem bind_ok {b : β} (h : (m >>= f).run.run st = (.ok b, st')) :
    ∃ a st₁, m.run.run st = (.ok a, st₁) ∧ (f a).run.run st₁ = (.ok b, st') := by
  change (StateT.run (m.run >>= ExceptT.bindCont f) st : Id _) = _ at h
  rw [StateT.run_bind] at h
  change (ExceptT.bindCont f (m.run.run st).1).run (m.run.run st).2 = _ at h
  rcases hm : m.run.run st with ⟨result, st₁⟩
  rw [hm] at h
  cases result with
  | error => cases h
  | ok a => exact ⟨a, st₁, rfl, h⟩

theorem run_bind_ok {a : α} (h : m.run.run st = (.ok a, st')) :
    (m >>= f).run.run st = (f a).run.run st' :=
  run_bind_of_ok h

theorem run_bind_error {fault : Fault} (h : m.run.run st = (.error fault, st')) :
    (m >>= f).run.run st = (.error fault, st') :=
  run_bind_of_error h

theorem lift_ok {e : Except Fault α} {a : α}
    (h : (liftM e : Reading α).run.run st = (.ok a, st')) : e = .ok a ∧ st = st' := by
  cases e with
  | error => cases h
  | ok =>
      cases h
      exact ⟨rfl, rfl⟩

end Reading

/-- The state once something has been noted. -/
def ReadingState.noted (st : ReadingState) (span : Span) (n : Note) : ReadingState :=
  { st with notes := st.notes.push (span, n) }

/-! ## Signatures -/

namespace Signature

variable {mixin selector : Text} {span : Span}

/-- The pieces between the parentheses of a signature that are read, one for each parameter. -/
def pieces (inside : Text) : List Text :=
  let separator := if Text.hasTop ';' inside then ';' else ','
  ((Text.splitTop separator .top inside).map Text.trim).filter (!·.isEmpty)

theorem of_readParameter {before : List Parameter} {piece : Text} {p : Parameter}
    (h : readParameter mixin span before piece = .ok p) :
    ∃ declaration, piece = '@' :: declaration ∧
      p.name = Text.trim (declaration.takeWhile (· ≠ ':')) ∧
      (p.name ≠ [] ∧ ∀ c ∈ p.name, isNameChar c = true) ∧
      p.name ∉ before.map Parameter.name ∧
      p.fallback = match declaration.dropWhile (· ≠ ':') with
        | [] => none
        | _ :: text => some ⟨Text.trim text, span⟩ := by
  unfold readParameter at h
  split at h
  · cases h
  · rename_i declaration hdeclaration
    simp only at h
    split at h
    · cases h
    · rename_i hname
      split at h
      · cases h
      · rename_i hbefore
        cases h
        refine ⟨declaration, Text.eq_append_of_after? hdeclaration, rfl, ?_, fun hmem => ?_, rfl⟩
        · simpa [not_or] using hname
        · obtain ⟨q, hq, hsame⟩ := List.mem_map.mp hmem
          exact hbefore (List.any_eq_true.mpr ⟨q, hq, beq_iff_eq.mpr hsame⟩)

/-- Parameters are read one behind the other. What holds of none and is kept by each holds of
all of them, with the pieces that they are read from. -/
theorem readParameters_induction {inside : Text} {parameters : List Parameter}
    {motive : List Text → List Parameter → Prop} (none : motive [] [])
    (next : ∀ {read before piece p}, motive read before →
      readParameter mixin span before piece = .ok p → motive (read ++ [piece]) (before ++ [p]))
    (h : readParameters mixin span inside = .ok parameters) :
    motive (pieces inside) parameters := by
  suffices hall : ∀ (rest read : List Text) (before : List Parameter), motive read before →
      rest.foldlM (fun before piece =>
        (readParameter mixin span before piece).map fun p => before ++ [p]) before =
          .ok parameters → motive (read ++ rest) parameters from hall _ [] [] none h
  intro rest
  induction rest with
  | nil =>
      intro read before hbefore h
      cases h
      rwa [List.append_nil]
  | cons piece rest ih =>
      intro read before hbefore h
      rw [List.foldlM_cons] at h
      cases hp : readParameter mixin span before piece with
      | error => rw [hp] at h; cases h
      | ok p =>
          rw [hp] at h
          have hrest := ih _ _ (next hbefore hp) h
          rwa [List.append_assoc] at hrest

/-- A selector is no signature, or it is a name and parentheses and its parameters are read. -/
theorem read?_cases (selector : Text) (span : Span) :
    read? selector span = .ok none ∨ ∃ rest inside,
      selector = '.' :: rest ∧ (rest.takeWhile isNameChar).isEmpty = false ∧
      Text.lastGroup? (Text.trimStart (rest.drop (rest.takeWhile isNameChar).length)) =
        some ([], inside) ∧
      read? selector span = (readParameters ('.' :: rest.takeWhile isNameChar) span inside).map
        fun parameters => some ⟨'.' :: rest.takeWhile isNameChar, parameters⟩ := by
  unfold read?
  split
  · exact .inl rfl
  · rename_i rest hrest
    simp only
    split
    · exact .inl rfl
    · rename_i hname
      split
      · rename_i inside hgroup
        exact .inr ⟨rest, inside, Text.eq_append_of_after? hrest, Bool.eq_false_iff.mpr hname,
          hgroup, rfl⟩
      · exact .inl rfl

theorem of_read? {s : Signature} (h : read? selector span = .ok (some s)) :
    ∃ rest inside, selector = '.' :: rest ∧ s.name = '.' :: rest.takeWhile isNameChar ∧
      (rest.takeWhile isNameChar).isEmpty = false ∧
      Text.lastGroup? (Text.trimStart (rest.drop (rest.takeWhile isNameChar).length)) =
        some ([], inside) ∧
      readParameters s.name span inside = .ok s.parameters := by
  obtain hnone | ⟨rest, inside, hselector, hname, hgroup, hread⟩ := read?_cases selector span
  · cases hnone.symm.trans h
  · rw [hread] at h
    cases hparameters : readParameters ('.' :: rest.takeWhile isNameChar) span inside with
    | error => rw [hparameters] at h; cases h
    | ok parameters =>
        rw [hparameters] at h
        cases h
        exact ⟨rest, inside, hselector, rfl, hname, hgroup, hparameters⟩

end Signature

/-! ## Statements and preludes -/

theorem Property.parts_of_read {source : Nat} {whole : Slice} {p : Property}
    (h : read source whole = .ok p) :
    ∃ name value, whole.cutAt? ':' = some (name, value) ∧ name.collapsed ≠ [] ∧
      p = ⟨name.collapsed, ⟨value.trimmed, value.span source⟩⟩ := by
  unfold read at h
  split at h
  · cases h
  · rename_i name value hcut
    split at h
    · cases h
    · rename_i hname
      cases h
      exact ⟨name, value, hcut, fun hnil => hname (List.isEmpty_iff.mpr hnil), rfl⟩

theorem MixinCall.parts_of_read {source : Nat} {whole : Slice} {c : MixinCall}
    (h : read source whole = .ok c) :
    ∃ name arguments rest, name = (whole.text.drop 1).takeWhile isNameChar ∧ name ≠ [] ∧
      readArgumentList? source (whole.drop (1 + name.length)).dropGap = some (arguments, rest) ∧
      (dropImportant rest).text = [] ∧ c = ⟨'.' :: name, arguments, whole.span source⟩ := by
  unfold read at h
  simp only at h
  split at h
  · cases h
  · rename_i hname
    split at h
    · cases h
    · rename_i arguments rest hlist
      split at h
      · rename_i hnil
        cases h
        exact ⟨_, arguments, rest, rfl, fun hnil => hname (List.isEmpty_iff.mpr hnil), hlist,
          List.length_eq_zero_iff.mp hnil, rfl⟩
      · cases h

namespace Desk

variable {d : Desk} {st st' : ReadingState}

/-- What a file is imported as, for a statement with the given span. -/
inductive Loads (d : Desk) (file : Path) (span : Span) (st : ReadingState) :
    Import → ReadingState → Prop
  | css {read : Path → Text → Reading Document} {text : Text} :
      d.reader? (d.options.fileSystem.key file) = some read →
      d.options.fileSystem.read file = .text text → file.extension? = some "css".toList →
      Loads d file span st (.css text) (st.noted span (.importing file.text))
  | sheet {read : Path → Text → Reading Document} {text : Text} {e : Document}
      {st' : ReadingState} :
      d.reader? (d.options.fileSystem.key file) = some read →
      d.options.fileSystem.read file = .text text → file.extension? ≠ some "css".toList →
      (read file text).run.run (st.noted span (.importing file.text)) = (.ok e, st') →
      Loads d file span st (.sheet e) st'

theorem loads_of_load {file : Path} {span : Span} {i : Import}
    (h : (d.load file span).run.run st = (.ok i, st')) : d.Loads file span st i st' := by
  unfold load at h
  split at h
  · cases h
  · rename_i read hread
    split at h
    · cases h
    · cases h
    · rename_i text htext
      obtain ⟨_, _, hnote, h⟩ := Reading.bind_ok h
      cases hnote
      split at h
      · rename_i hextension
        cases h
        exact .css hread htext hextension
      · rename_i hextension
        obtain ⟨e, _, he, h⟩ := Reading.bind_ok h
        cases h
        exact .sheet hread htext hextension he

/-- What a statement makes of the block that it stands in. -/
inductive Takes (d : Desk) (b : Block) (st : ReadingState) :
    Statement → Block → ReadingState → Prop
  | passing {whole : Slice} :
      ImportTarget.read? (Text.trim (whole.collapsed.drop "@import".length)) = none →
      Takes d b st (.importing whole)
        (b.addChild (.directive whole.collapsed (whole.span d.source)))
        (st.noted (whole.span d.source) (.passing whole.collapsed))
  | importing {whole : Slice} {target : ImportTarget} {file : Path} {i : Import}
      {st' : ReadingState} :
      ImportTarget.read? (Text.trim (whole.collapsed.drop "@import".length)) = some target →
      target.find? d.options d.path = some file →
      d.Loads file (whole.span d.source)
        { st with tried := st.tried ++ target.candidates d.options d.path } i st' →
      Takes d b st (.importing whole) (b.addImport i) st'
  | definition {name : Text} {value whole : Slice} :
      Takes d b st (.definition name value whole)
        (b.addVariable name ⟨value.trimmed, value.span d.source⟩)
        (st.noted (whole.span d.source) (.definition name value.trimmed))
  | directive {whole : Slice} :
      Takes d b st (.directive whole)
        (b.addChild (.directive whole.collapsed (whole.span d.source)))
        (st.noted (whole.span d.source) (.directive whole.collapsed))
  | call {whole : Slice} {c : MixinCall} : MixinCall.read d.source whole = .ok c →
      Takes d b st (.call whole) (b.addDeclaration (.call c))
        (st.noted c.span (.call c.name c.arguments.length))
  | property {whole : Slice} {p : Property} : Property.read d.source whole = .ok p →
      Takes d b st (.property whole) (b.addDeclaration (.property p)) st

theorem takes_of_addStatement {b b' : Block} {s : Statement}
    (h : (d.addStatement b s).run.run st = (.ok b', st')) : d.Takes b st s b' st' := by
  cases s with
  | importing whole =>
      rw [addStatement, addImport] at h
      split at h
      · rename_i htarget
        cases h
        exact .passing htarget
      · rename_i target htarget
        obtain ⟨_, _, htried, h⟩ := Reading.bind_ok h
        cases htried
        split at h
        · cases h
        · rename_i file hfind
          obtain ⟨i, _, hload, h⟩ := Reading.bind_ok h
          cases h
          exact .importing htarget hfind (loads_of_load hload)
  | definition =>
      cases h
      exact .definition
  | directive =>
      cases h
      exact .directive
  | call =>
      obtain ⟨c, _, hcall, h⟩ := Reading.bind_ok h
      obtain ⟨hread, rfl⟩ := Reading.lift_ok hcall
      cases h
      exact .call hread
  | property =>
      obtain ⟨p, _, hproperty, h⟩ := Reading.bind_ok h
      obtain ⟨hread, rfl⟩ := Reading.lift_ok hproperty
      cases h
      exact .property hread

/-- What a prelude makes of a rule inside rules with the given selectors. -/
inductive Heads (d : Desk) (parents : List Text) (prelude : Slice) (st : ReadingState) :
    Rule → ReadingState → Prop
  | mixin {selector : Text} {condition : Option Condition} {signature : Signature} :
      Condition.split prelude.collapsed (prelude.span d.source) = (selector, condition) →
      Signature.read? selector (prelude.span d.source) = .ok (some signature) →
      Heads d parents prelude st
        ⟨[signature.name], [signature.name], .mixin signature.parameters, condition, .empty,
          prelude.span d.source⟩
        (st.noted (prelude.span d.source) (.mixin signature.name signature.parameters.length))
  | atRule {selector : Text} {condition : Option Condition} :
      Condition.split prelude.collapsed (prelude.span d.source) = (selector, condition) →
      Signature.read? selector (prelude.span d.source) = .ok none →
      selector.head? = some '@' →
      Heads d parents prelude st
        ⟨parents, [], .atRule selector, condition, .empty, prelude.span d.source⟩
        (st.noted (prelude.span d.source) (.atRule selector))
  | style {selector : Text} {condition : Option Condition} :
      Condition.split prelude.collapsed (prelude.span d.source) = (selector, condition) →
      Signature.read? selector (prelude.span d.source) = .ok none →
      selector.head? ≠ some '@' →
      Heads d parents prelude st
        ⟨Selector.compose parents (Selector.ofList selector), Selector.ofList selector, .style,
          condition, .empty, prelude.span d.source⟩
        (st.noted (prelude.span d.source)
          (.rule (Selector.compose parents (Selector.ofList selector))))

theorem heads_of_heading {parents : List Text} {prelude : Slice} {rule : Rule}
    (h : (d.heading parents prelude).run.run st = (.ok rule, st')) :
    d.Heads parents prelude st rule st' := by
  unfold heading at h
  simp only at h
  rcases hsplit : Condition.split prelude.collapsed (prelude.span d.source) with
    ⟨selector, condition⟩
  rw [hsplit] at h
  obtain ⟨signature?, _, hsignature, h⟩ := Reading.bind_ok h
  obtain ⟨hread, rfl⟩ := Reading.lift_ok hsignature
  cases signature? with
  | some signature =>
      cases h
      exact .mixin hsplit hread
  | none =>
      simp only at h
      split at h
      · rename_i hat
        cases h
        exact .atRule hsplit hread hat
      · rename_i hat
        cases h
        exact .style hsplit hread hat

theorem Heads.sources_eq {parents : List Text} {prelude : Slice} {rule : Rule}
    (h : d.Heads parents prelude st rule st') : st'.sources = st.sources := by
  cases h <;> rfl

end Desk

/-! ## Documents -/

/-- The desk that a file is read at. It is the source that comes next, and what it imports is
read in the same way, with fewer files left that may be. -/
structure Desk.IsFor (options : Options) (idle : List Path.Key) (path : Path) (source : Nat)
    (d : Desk) : Prop where
  reader : ∀ key read, d.reader? key = some read →
    ∃ rest : List Path.Key, rest.length < idle.length ∧ read = Document.read options rest
  options : d.options = options
  path : d.path = path
  source : d.source = source

/-- A document is read from the outline of its text. -/
theorem Document.desk_of_read {options : Options} {idle : List Path.Key} {path : Path}
    {text : Text} {e : Document} {st st' : ReadingState}
    (h : (Document.read options idle path text).run.run st = (.ok e, st')) :
    ∃ (d : Desk) (block : Block), d.IsFor options idle path st.sources.size ∧
      e = ⟨path, block⟩ ∧ (d.readInto [] .empty (.ofText text)).run.run
        { st with sources := st.sources.push ⟨path.text, text⟩ } = (.ok block, st') := by
  rw [Document.read] at h
  obtain ⟨_, _, hsource, h⟩ := Reading.bind_ok h
  cases hsource
  obtain ⟨block, _, hblock, h⟩ := Reading.bind_ok h
  cases h
  refine ⟨_, block, ⟨fun key read hread => ?_, rfl, rfl, rfl⟩, rfl, hblock⟩
  simp only at hread
  split at hread
  · rename_i rest hlt _
    cases hread
    exact ⟨rest, hlt, rfl⟩
  · cases hread

/-- The structure of the source does not break. -/
def Outline.Unbroken : Outline → Prop
  | closed => True
  | broken _ _ => False
  | statement _ rest => rest.Unbroken
  | block _ body rest => body.Unbroken ∧ rest.Unbroken

theorem Desk.unbroken_of_readInto (d : Desk) :
    ∀ (parents : List Text) (block : Block) {outline : Outline} {block' : Block}
      {st st' : ReadingState},
      (d.readInto parents block outline).run.run st = (.ok block', st') → outline.Unbroken
  | _, _, .closed, _, _, _, _ => trivial
  | _, _, .broken _ _, _, _, _, h => by cases h
  | parents, _, .statement _ rest, _, _, _, h => by
      obtain ⟨_, _, -, h⟩ := Reading.bind_ok h
      show rest.Unbroken
      exact d.unbroken_of_readInto parents _ h
  | parents, _, .block _ _ _, _, _, _, h => by
      obtain ⟨rule, _, -, h⟩ := Reading.bind_ok h
      obtain ⟨_, _, hbody, h⟩ := Reading.bind_ok h
      exact ⟨d.unbroken_of_readInto rule.selectors .empty hbody,
        d.unbroken_of_readInto parents _ h⟩

theorem Document.unbroken_of_read {options : Options} {idle : List Path.Key} {path : Path}
    {text : Text} {d : Document} {st st' : ReadingState}
    (h : (Document.read options idle path text).run.run st = (.ok d, st')) :
    (Outline.ofText text).Unbroken := by
  obtain ⟨desk, _, -, -, hread⟩ := desk_of_read h
  exact desk.unbroken_of_readInto _ _ hread

end Cascade
