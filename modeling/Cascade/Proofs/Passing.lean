import Cascade.Proofs.AtRules
import Cascade.Proofs.Resolution
import Cascade.Proofs.Visible

/-!
# Passing arguments

A call with several arguments is read wherever the loop over statements gets to it inside a
block. Its arguments are found again as they were written, in order, blank ones included,
whether semicolons or commas stand between them (`Cursor.ReadsCall`). What makes it so is that
nothing in an argument counts outside the parentheses of the call: not for the comments of the
source, not for the end of the statement, and not for the end of the list.

A mixin then binds its parameters one after the other, each by its number
(`MixinCall.BindsInOrder`).
-/

namespace Cascade

/-! ## Arguments as they are written -/

/-- The arguments with separators between them, as they can stand in the parentheses of a call:
there are several, and none is cut by a separator. -/
structure Text.IsArguments (separator : Char) (arguments : List Text) (inside : Text) : Prop where
  lists : Lists separator arguments inside
  several : 2 ≤ arguments.length
  separates : separator = ';' ∨ separator = ','
  parts : ∀ a ∈ arguments, a.IsPart ';' ∧ a.IsWhole separator
  literal : ∀ a ∈ arguments, a.IsLiteral

/-- A call of the mixin, up to the semicolon at its end. -/
def MixinCall.written (name inside : Text) : Text := '.' :: (name ++ '(' :: (inside ++ [')']))

namespace Text

/-- A name with a dot in front of it. -/
theorem IsIdentifier.inert {name : Text} (h : name.IsIdentifier) : ∀ c ∈ '.' :: name, IsInert c :=
  List.forall_mem_cons.mpr ⟨by decide, fun c hc => isInert_of_isNameChar (h.2 c hc)⟩

namespace IsArguments

variable {separator : Char} {arguments : List Text} {inside name : Text}

theorem separator_plain (h : IsArguments separator arguments inside) :
    IsInert separator ∧ isGap separator = false ∧ IsShown separator ∧ separator ≠ '*' := by
  rcases h.separates with rfl | rfl <;> decide

theorem enclosed (h : IsArguments separator arguments inside) : inside.IsEnclosed :=
  h.lists.isEnclosed h.separator_plain.1 fun a ha => (h.parts a ha).1.enclosed

/-- The arguments are cut apart again, without the white space between them. -/
theorem splitTop (h : IsArguments separator arguments inside) :
    (Text.splitTop separator .top inside).map trim = arguments := by
  have htrim : arguments.map trim = arguments.map id :=
    List.map_congr_left fun a ha => (h.parts a ha).1.trimmed
  rw [h.lists.splitTop h.separator_plain.2.1 fun a ha => (h.parts a ha).2, htrim, List.map_id]

/-- There is a semicolon outside strings and parentheses only if it is the separator. -/
theorem separator_eq (h : IsArguments separator arguments inside) :
    (if 1 < (Text.splitTop ';' .top inside).length then ';' else ',') = separator := by
  have hparts : ∀ a ∈ arguments, a.IsWhole ';' := fun a ha => (h.parts a ha).1.toIsWhole
  rcases h.separates with rfl | rfl
  · exact if_pos (h.lists.length_splitTop rfl hparts ▸ h.several)
  · have hwhole : inside.IsWhole ';' := h.lists.isWhole (by decide) rfl hparts
    rw [splitTop_eq_singleton hwhole.uncut]
    rfl

/-- A source shows the call as it is written, and after it what it would show without it. -/
theorem visible_written (h : IsArguments separator arguments inside) (hname : name.IsIdentifier)
    (after : Text) : Glyph.visible (MixinCall.written name inside ++ ';' :: after) =
      MixinCall.written name inside ++ ';' :: Glyph.visible after := by
  obtain ⟨hinert, -, hshown, hstar⟩ := h.separator_plain
  have hhead : ∀ c ∈ '.' :: (name ++ ['(']), IsShown c := by
    refine List.forall_mem_cons.mpr ⟨by decide, List.forall_mem_append.mpr ⟨fun c hc => ?_, ?_⟩⟩
    · exact isShown_of_isNameChar (hname.2 c hc)
    · exact List.forall_mem_singleton.mpr (by decide)
  have hrun : Nesting.top.run ('.' :: (name ++ ['('])) = ⟨1, .outside⟩ := by
    rw [← List.cons_append, Nesting.run_append, (IsEnclosed.of_isInert hname.inert).run_top]
    rfl
  -- What stands in the parentheses is scanned at depth one, what is around it at top level.
  have hsplit (t : Text) : MixinCall.written name inside ++ ';' :: t =
      '.' :: (name ++ ['(']) ++ (inside ++ ([')', ';'] ++ t)) := by
    simp [MixinCall.written]
  have hbegins := Glyph.visibleFrom_append_of_isShown (s := .top) hhead
    (inside ++ ([')', ';'] ++ after))
  have hinside : Glyph.visibleFrom ⟨1, .outside⟩ (inside ++ ([')', ';'] ++ after)) =
      inside ++ Glyph.visibleFrom ⟨1, .outside⟩ ([')', ';'] ++ after) :=
    h.lists.visibleFrom hinert hshown hstar
      (fun a ha => ⟨(h.parts a ha).1.enclosed, h.literal a ha⟩) (by simp) 0
  have hends : Glyph.visibleFrom ⟨1, .outside⟩ ([')', ';'] ++ after) =
      [')', ';'] ++ Glyph.visible after :=
    Glyph.visibleFrom_append_of_isShown (forall_mem_of_all (by decide)) after
  rw [hsplit, ← Glyph.visibleFrom_top, hbegins, hrun, hinside, hends, hsplit]

end IsArguments

end Text

/-! ## Reading a call -/

namespace MixinCall

variable {separator : Char} {arguments : List Text} {inside name : Text} {s : Slice}

/-- The call has the name and the arguments, wherever they were written. -/
structure Says (call : MixinCall) (name : Text) (arguments : List Text) : Prop where
  name : call.name = '.' :: name
  arguments : call.arguments.map Raw.text = arguments

/-- There are several, so a blank one is not taken for none. -/
theorem map_text_readArguments (source : Nat)
    (h : Text.IsArguments separator arguments s.text) :
    (readArguments source s).map Raw.text = arguments := by
  have hpieces : ((s.splitTop separator).map fun piece =>
      Raw.mk piece.trimmed (piece.span source)).map Raw.text = arguments := by
    rw [← h.splitTop, ← Slice.map_text_splitTop, List.map_map, List.map_map]
    rfl
  have hlength := congrArg List.length (Slice.map_text_splitTop ';' s)
  rw [List.length_map] at hlength
  unfold readArguments
  simp only [hlength, h.separator_eq]
  split
  · rename_i hone
    have hseveral := h.several
    rw [hone] at hpieces
    rw [← hpieces] at hseveral
    exact (Nat.not_succ_le_self 1 hseveral).elim
  · exact hpieces

theorem readArgumentList?_parentheses (source : Nat) (hs : s.text = '(' :: (inside ++ [')']))
    (henclosed : inside.IsEnclosed) : ∃ s' rest : Slice, s'.text = inside ∧ rest.text = [] ∧
      readArgumentList? source s = some (readArguments source s', rest) := by
  have hdrop : (s.drop 1).text = inside ++ [')'] := congrArg (List.drop 1) hs
  have hopen : ∀ c ∈ Text.outer .top inside, (c == ')') = false :=
    fun c hc => beq_eq_false_iff_ne.mpr (henclosed.not_close c hc)
  obtain ⟨hinside, hrest⟩ : ((s.drop 1).untilTop (· == ')')).1.text = inside ∧
      ((s.drop 1).untilTop (· == ')')).2.text = [')'] :=
    Slice.untilTop_of_outer hdrop hopen henclosed.run_top rfl
  refine ⟨_, (((s.drop 1).untilTop (· == ')')).2.drop 1).dropGap, hinside, ?_, ?_⟩
  · rw [Slice.dropGap_text, show (Slice.drop 1 _).text = [] from congrArg (List.drop 1) hrest]
    rfl
  · have hlength : ((s.drop 1).untilTop (· == ')')).2.length ≠ 0 := by
      rw [Slice.length, hrest]
      exact Nat.succ_ne_zero _
    rw [readArgumentList?, hs]
    exact if_neg hlength

theorem read_written (source : Nat) (hs : s.text = written name inside)
    (hname : name.IsIdentifier) (h : Text.IsArguments separator arguments inside) :
    ∃ call, read source s = .ok call ∧ call.Says name arguments ∧ call.span = s.span source := by
  have htake : (s.text.drop 1).takeWhile isNameChar = name := by
    rw [hs]
    exact Plain.takeWhile_name hname.2 fun c hc => Option.some.inj hc ▸ rfl
  have hlist : (s.drop (1 + name.length)).dropGap.text = '(' :: (inside ++ [')']) := by
    have hdrop : (s.drop (1 + name.length)).text = '(' :: (inside ++ [')']) := by
      show s.text.drop (1 + name.length) = _
      rw [hs, Nat.add_comm]
      exact List.drop_left
    rw [Slice.dropGap_text, hdrop]
    rfl
  obtain ⟨s', rest, hinside, hrest, hread⟩ :=
    readArgumentList?_parentheses source hlist h.enclosed
  have hend : (dropImportant rest).length = 0 := by
    unfold dropImportant
    rw [hrest]
    exact congrArg List.length hrest
  refine ⟨⟨'.' :: name, readArguments source s', s.span source⟩, ?_,
    ⟨rfl, map_text_readArguments source (hinside ▸ h)⟩, rfl⟩
  simp only [read, htake, List.isEmpty_eq_false_iff.mpr hname.1, hread, hend]
  rfl

end MixinCall

/-- The arguments stand in parentheses, so the first end of the statement is behind them. -/
theorem Statement.cut_call {name inside rest : Text} {s : Slice}
    (hs : s.text = MixinCall.written name inside ++ ';' :: rest) (hname : name.IsIdentifier)
    (henclosed : inside.IsEnclosed) : ∃ after,
      cut true s = .statement (.call (s.untilTop ends).1) after ∧
        (s.untilTop ends).1.text = MixinCall.written name inside ∧ after.text = rest := by
  obtain ⟨hrun, houter⟩ := henclosed.parentheses []
  have hdot : ∀ c ∈ '.' :: name, ends c = false := by
    refine List.forall_mem_cons.mpr ⟨rfl, fun c hc => ?_⟩
    exact (Plain.IsMild.of_isNameChar (hname.2 c hc)).ends
  have hhead : Nesting.top.run ('.' :: name) = .top :=
    (Text.IsEnclosed.of_isInert hname.inert).run_top
  have hinside : ∀ c ∈ Text.outer .top (MixinCall.written name inside), ends c = false := by
    intro c hc
    rw [MixinCall.written, ← List.cons_append, Text.outer_append, hhead, houter] at hc
    rcases List.mem_append.mp hc with hc | hc
    · exact hdot c (Text.outer_subset hc)
    · exact List.mem_singleton.mp hc ▸ rfl
  have hback : Nesting.top.run (MixinCall.written name inside) = .top := by
    rw [MixinCall.written, ← List.cons_append, Nesting.run_append, hhead]
    exact hrun
  obtain ⟨hwhole, hrest⟩ := Slice.untilTop_of_outer hs hinside hback rfl
  refine ⟨afterEnd (s.untilTop ends).2, ?_, hwhole, ?_⟩
  · have hplain : cut true s = cutPlain true s := by
      rw [cut, hs]
      rfl
    rw [hplain]
    simp [cutPlain, hwhole, hrest, MixinCall.written]
  · rw [afterEnd, hrest]
    exact congrArg (List.drop 1) hrest

namespace Cursor

/-- The call before the cursor is read, with these arguments: the loop stays in its block and
goes on behind the call, the call never fails, and each document that is read from the source
has it. -/
structure ReadsCall (text : Text) (c : Cursor) (name : Text) (arguments : List Text)
    (after : Text) : Prop where
  goes : ∃ rest, c.turn = .on ⟨c.blocks, rest⟩ ∧ rest.text = Glyph.visible after
  reads : ∀ source, ∃ call, MixinCall.read source c.prelude = .ok call ∧
    call.Says name arguments
  held : ∀ {options : Options} {idle : List Path.Key} {path : Path} {e : Document}
    {st st' : ReadingState}, (Document.read options idle path text).run.run st = (.ok e, st') →
    ∃ b call, e.block.Holds b ∧ .call call ∈ b.declarations ∧ call.Says name arguments ∧
      call.span = c.prelude.span st.sources.size

variable {text name inside after : Text} {separator : Char} {arguments : List Text} {n : Nat}
  {c : Cursor}

theorem readsCall_of_faces (hname : name.IsIdentifier)
    (harguments : Text.IsArguments separator arguments inside)
    (hturns : Turns n ⟨[], .ofText text⟩ c) (hblock : c.blocks ≠ [])
    (hinput : c.input.Faces (Glyph.visible (MixinCall.written name inside ++ ';' :: after))) :
    c.ReadsCall text name arguments after := by
  rw [harguments.visible_written hname] at hinput
  have hs := hinput.cons rfl
  obtain ⟨rest, hcut, hprelude, hrest⟩ := Statement.cut_call hs hname harguments.enclosed
  have hnested : c.blocks.head?.isSome = true := by
    rwa [Option.isSome_iff_ne_none, ne_eq, List.head?_eq_none_iff]
  rw [← hnested] at hcut
  have hread (source : Nat) := MixinCall.read_written source hprelude hname harguments
  refine ⟨⟨rest, ?_, hrest⟩, fun source => ?_, fun hdocument => ?_⟩
  · rw [turn_of_cut hs rfl, hcut]
  · obtain ⟨call, hcall, hsays, -⟩ := hread source
    exact ⟨call, hcall, hsays⟩
  · obtain ⟨_, hpart⟩ := part_of_statement hturns.guided hs rfl hcut
    obtain ⟨d, _, hdesk, rfl, hinto⟩ := Document.desk_of_read hdocument
    obtain ⟨b, call, hholds, hmem, hcall⟩ := Desk.call_of_part hpart hinto
    obtain ⟨call', hcall', hsays, hspan⟩ := hread d.source
    obtain rfl : call = call' := Except.ok.inj (hcall.symm.trans hcall')
    exact ⟨b, call, hholds, hmem, hsays, hspan.trans (hdesk.source ▸ rfl)⟩

end Cursor

/-! ## Binding the parameters -/

namespace MixinCall

variable {c : MixinCall} {idle : List DefinitionKey} {caller : Scope} {rule : Rule}
  {parameters : List Parameter} {mixin : Text} {p : Parameter} {i : Nat}

/-- There is an argument with the number, and it is not blank. -/
def Gives (c : MixinCall) (i : Nat) (a : Raw) : Prop := c.arguments[i]? = some a ∧ a.text ≠ []

/-- A parameter gets the argument with its number, evaluated where the call is, or else its
default as it is written. -/
inductive Takes (c : MixinCall) (idle : List DefinitionKey) (caller : Scope) (p : Parameter)
    (i : Nat) : Text × Binding → Prop
  | argument {a : Raw} {t : Text} : c.Gives i a → caller.evaluate idle a = .ok t →
      Takes c idle caller p i (p.name, .argument t)
  | fallback {value : Raw} : (∀ a, ¬ c.Gives i a) → p.fallback = some value →
      Takes c idle caller p i (p.name, .fallback value)

/-- There is neither an argument for the parameter nor a default. -/
def Lacks (c : MixinCall) (p : Parameter) (i : Nat) : Prop :=
  (∀ a, ¬ c.Gives i a) ∧ p.fallback = none

/-- The parameter does not lack anything, and if there is an argument for it, that can be
evaluated. -/
def Supplies (c : MixinCall) (idle : List DefinitionKey) (caller : Scope) (p : Parameter)
    (i : Nat) : Prop :=
  ¬ c.Lacks p i ∧ ∀ a, c.Gives i a → ∃ t, caller.evaluate idle a = .ok t

/-- How the parameters of a mixin are bound: each takes what is there for it; arguments for
which there is no parameter make no difference; and what is missing is missing for the first
parameter that lacks something, if all before it could be bound. -/
structure BindsInOrder (c : MixinCall) (idle : List DefinitionKey) (caller : Scope) (rule : Rule)
    (parameters : List Parameter) : Prop where
  bound : ∀ bs, c.bindings idle rule caller = .ok bs ↔
    List.Forall₂ (fun (p, i) b => c.Takes idle caller p i b) parameters.zipIdx bs
  further : ∀ more, parameters.length ≤ c.arguments.length →
    { c with arguments := c.arguments ++ more }.bindings idle rule caller =
      c.bindings idle rule caller
  missing : ∀ fault, c.bindings idle rule caller = .error fault ∧
      fault.cause.category = .missingParameter ↔
    ∃ before p i after, parameters.zipIdx = before ++ (p, i) :: after ∧
      (∀ earlier ∈ before, c.Supplies idle caller earlier.1 earlier.2) ∧ c.Lacks p i ∧
      fault = ⟨.missingArgument p.name rule.name, c.span⟩

theorem argument?_eq_some_iff {a : Raw} : c.argument? i = some a ↔ c.Gives i a := by
  unfold argument? Gives
  cases c.arguments[i]? with
  | none => simp
  | some a' =>
      simp only [Option.ite_none_left_eq_some, List.isEmpty_iff, Option.some.injEq]
      constructor
      · rintro ⟨hne, rfl⟩
        exact ⟨rfl, hne⟩
      · rintro ⟨rfl, hne⟩
        exact ⟨hne, rfl⟩

theorem argument?_eq_none_iff : c.argument? i = none ↔ ∀ a, ¬ c.Gives i a := by
  simp only [Option.eq_none_iff_forall_ne_some, ne_eq, argument?_eq_some_iff]

theorem bind_eq_ok_iff {b : Text × Binding} :
    c.bind idle mixin caller p i = .ok b ↔ c.Takes idle caller p i b := by
  unfold bind
  constructor
  · intro h
    split at h
    · rename_i hargument
      obtain ⟨t, ht, rfl⟩ := map_eq_ok h
      exact .argument (argument?_eq_some_iff.mp hargument) ht
    · rename_i value hargument hfallback
      cases h
      exact .fallback (argument?_eq_none_iff.mp hargument) hfallback
    · cases h
  · rintro (⟨hgives, ht⟩ | ⟨hnone, hfallback⟩)
    · rw [argument?_eq_some_iff.mpr hgives]
      simp only [ht]
      rfl
    · rw [argument?_eq_none_iff.mpr hnone, hfallback]

theorem exists_takes_iff : (∃ b, c.Takes idle caller p i b) ↔ c.Supplies idle caller p i := by
  constructor
  · rintro ⟨_, ⟨hgives, ht⟩ | ⟨hnone, hfallback⟩⟩
    · refine ⟨fun hlacks => hlacks.1 _ hgives, fun a ha => ?_⟩
      obtain rfl := Option.some.inj (hgives.1.symm.trans ha.1)
      exact ⟨_, ht⟩
    · refine ⟨fun hlacks => ?_, fun a ha => (hnone a ha).elim⟩
      cases hlacks.2.symm.trans hfallback
  · rintro ⟨hlacks, hevaluates⟩
    by_cases hgives : ∃ a, c.Gives i a
    · obtain ⟨a, ha⟩ := hgives
      obtain ⟨t, ht⟩ := hevaluates a ha
      exact ⟨_, .argument ha ht⟩
    · have hnone := not_exists.mp hgives
      obtain ⟨value, hfallback⟩ := Option.ne_none_iff_exists'.mp fun h => hlacks ⟨hnone, h⟩
      exact ⟨_, .fallback hnone hfallback⟩

/-- An argument never fails for what is missing. -/
theorem category_of_evaluate_error {a : Raw} {fault : Fault}
    (h : caller.evaluate idle a = .error fault) : fault.cause.category ≠ .missingParameter := by
  by_cases hcomputing : fault.cause.IsComputing
  · rcases hcomputing with hcategory | hcategory | hcategory <;> rw [hcategory] <;> exact nofun
  · obtain ⟨name, hcycle⟩ := Scope.variableCycle_of_evaluate_error h hcomputing
    rw [hcycle]
    exact nofun

theorem bind_eq_missing_iff {fault : Fault} : c.bind idle mixin caller p i = .error fault ∧
      fault.cause.category = .missingParameter ↔
    c.Lacks p i ∧ fault = ⟨.missingArgument p.name mixin, c.span⟩ := by
  constructor
  · rintro ⟨h, hcategory⟩
    unfold bind at h
    split at h
    · rename_i a _
      rcases hvalue : caller.evaluate idle a with f | t
      · rw [hvalue] at h
        cases h
        exact (category_of_evaluate_error hvalue hcategory).elim
      · rw [hvalue] at h
        cases h
    · cases h
    · rename_i hargument hfallback
      cases h
      exact ⟨⟨argument?_eq_none_iff.mp hargument, hfallback⟩, rfl⟩
  · rintro ⟨⟨hnone, hfallback⟩, rfl⟩
    refine ⟨?_, rfl⟩
    rw [bind, argument?_eq_none_iff.mpr hnone, hfallback]

theorem binds_in_order (c : MixinCall) (idle : List DefinitionKey) (caller : Scope)
    (hkind : rule.kind = .mixin parameters) : c.BindsInOrder idle caller rule parameters := by
  have hbindings (c : MixinCall) : c.bindings idle rule caller =
      parameters.zipIdx.mapM fun entry => c.bind idle rule.name caller entry.1 entry.2 := by
    rw [bindings, hkind]
  refine ⟨fun bs => ?_, fun more hlength => ?_, fun fault => ?_⟩
  · rw [hbindings, mapM_eq_ok_iff]
    simp only [bind_eq_ok_iff]
  · rw [hbindings, hbindings]
    refine mapM_congr fun entry hentry => ?_
    have hlt := (List.mem_zipIdx' hentry).1
    unfold bind argument?
    rw [List.getElem?_append_left (Nat.lt_of_lt_of_le hlt hlength)]
  · rw [hbindings, mapM_eq_error_iff]
    simp only [bind_eq_ok_iff, exists_takes_iff]
    constructor
    · rintro ⟨⟨before, ⟨p, i⟩, after, heq, hbefore, herror⟩, hcategory⟩
      obtain ⟨hlacks, rfl⟩ := bind_eq_missing_iff.mp ⟨herror, hcategory⟩
      exact ⟨before, p, i, after, heq, hbefore, hlacks, rfl⟩
    · rintro ⟨before, p, i, after, heq, hbefore, hlacks, hfault⟩
      obtain ⟨herror, hcategory⟩ := bind_eq_missing_iff.mpr ⟨hlacks, hfault⟩
      exact ⟨⟨before, (p, i), after, heq, hbefore, herror⟩, hcategory⟩

end MixinCall

namespace Cursor

variable {text name inside after : Text} {separator : Char} {arguments : List Text} {n : Nat}
  {c : Cursor}

/-- Wherever the loop over a source gets to in a block, a call with several arguments is read as
it is written; and whatever mixin a call is of, its arguments reach the parameters in order. -/
theorem call_passes_arguments (hname : name.IsIdentifier)
    (harguments : Text.IsArguments separator arguments inside)
    (hturns : Turns n ⟨[], .ofText text⟩ c) (hblock : c.blocks ≠ [])
    (hinput : c.input.Faces (Glyph.visible (MixinCall.written name inside ++ ';' :: after))) :
    c.ReadsCall text name arguments after ∧
      ∀ (call : MixinCall) (idle : List DefinitionKey) (caller : Scope) (rule : Rule)
        (parameters : List Parameter), rule.kind = .mixin parameters →
        call.BindsInOrder idle caller rule parameters :=
  ⟨readsCall_of_faces hname harguments hturns hblock hinput,
    fun call idle caller _ _ hkind => call.binds_in_order idle caller hkind⟩

/-- A blank argument, one with what looks like a comment, and one with delimiters inside; and a
mixin with a single parameter that has a default. -/
theorem call_passes_arguments_delimiters :
    let text : Text := "a \x7b .m(; \"/*;\" url(//x); f(1; 2), ')'); w: 1 \x7d"
    let c : Cursor := ⟨[⟨0, "a "⟩], ⟨3, " .m(; \"/*;\" url(//x); f(1; 2), ')'); w: 1 \x7d"⟩⟩
    let arguments : List Text := [[], "\"/*;\" url(//x)", "f(1; 2), ')'"]
    let value : Raw := ⟨"1px", ⟨0, 0, 1⟩⟩
    let rule : Rule :=
      ⟨[".m"], [".m"], .mixin [⟨"p", some value⟩], none, .empty, ⟨0, 0, 1⟩⟩
    Turns 1 ⟨[], .ofText text⟩ c ∧ c.ReadsCall text "m" arguments " w: 1 \x7d" ∧
      ∀ call : MixinCall, call.Says "m" arguments →
        call.bindings [] rule [] = .ok [("p", .fallback value)] := by
  intro text c arguments value rule
  have hspace : ∀ c ∈ [' '], isGap c = true := fun _ hc => List.mem_singleton.mp hc ▸ rfl
  have hturns : Turns 1 ⟨[], .ofText text⟩ c := .turn (by decide +kernel) (.here c)
  have harguments : Text.IsArguments ';' arguments "; \"/*;\" url(//x); f(1; 2), ')'" :=
    ⟨.cons [' '] hspace (.cons [' '] hspace (.one _)), by decide, .inl rfl, by decide +kernel,
      by decide +kernel⟩
  have hinput : c.input.Faces (Glyph.visible
      (MixinCall.written "m" "; \"/*;\" url(//x); f(1; 2), ')'" ++ ';' :: " w: 1 \x7d")) := by
    unfold Slice.Faces
    decide +kernel
  obtain ⟨hreads, hbinds⟩ :=
    call_passes_arguments (by decide) harguments hturns nofun hinput
  refine ⟨hturns, hreads, fun call hsays => ?_⟩
  refine ((hbinds call [] [] rule _ rfl).bound _).mpr (.cons (.fallback ?_ rfl) .nil)
  rintro a ⟨hfirst, hne⟩
  have htext := congrArg (·[0]?) hsays.arguments
  simp [hfirst, arguments] at htext
  exact hne htext

end Cursor

end Cascade
