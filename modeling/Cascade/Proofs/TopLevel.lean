import Cascade.Proofs.Comments
import Cascade.Proofs.Slices
import Cascade.Proofs.Turns
import Cascade.Proofs.Visible

/-!
# Statements begin at top level

Strings and parentheses are looked for twice. The scan for glyphs goes through the whole text
once and needs to know whether a slash can begin a comment; the search for the end of a
statement begins afresh with each statement. A parenthesis or a mark that is left open would
put the two out of step for good.

It never does: a statement ends at top level or with the source, so the scan is at top level
wherever the loop over statements begins a turn (`Slice.AtTop.turn`). From there to the end of
the statement the search and the scan are in the same nesting at each glyph, and what is read
is what would be read of a text that begins with the statement (`Cursor.Turns.inStep`).
-/

namespace Cascade

/-! ## Searching -/

namespace Text

variable {stop : Char → Bool} {s : Nesting} {t : Text}

/-- The nestings in which a search comes to the characters it looks at, the end it finds
included. -/
def nestingsUntil (stop : Char → Bool) : Nesting → Text → List Nesting
  | _, [] => []
  | s, c :: rest => if s.isTop && stop c then [s] else s :: nestingsUntil stop (s.step c) rest

theorem nestingsUntil_eq (stop : Char → Bool) (s : Nesting) (t : Text) :
    nestingsUntil stop s t =
      s.states ((untilTop stop s t).1 ++ (untilTop stop s t).2.take 1) := by
  induction t generalizing s with
  | nil => rfl
  | cons c t ih =>
      rw [nestingsUntil, untilTop]
      split
      · rfl
      · rw [ih, List.cons_append, Nesting.states]

theorem nestingsUntil_prefix (stop : Char → Bool) (s : Nesting) (t : Text) :
    nestingsUntil stop s t <+: s.states t := by
  rw [nestingsUntil_eq]
  conv_rhs => rw [← untilTop_append stop s t,
    ← List.take_append_drop 1 (untilTop stop s t).2, ← List.append_assoc, Nesting.states_append]
  exact List.prefix_append ..

end Text

theorem Nesting.drop_states (n : Nat) (s : Nesting) (t : Text) :
    (s.states t).drop n = (s.run (t.take n)).states (t.drop n) := by
  induction n generalizing s t with
  | zero => rfl
  | succ n ih =>
      cases t with
      | nil => rfl
      | cons c t => exact ih (s.step c) t

/-! ## Reading on -/

/-- What is read from a glyph on is what a scan reads that begins there. -/
theorem Divides.traced_drop {s s' : Nesting} {xs : List Stretch} {t : Text} (h : Divides s xs t)
    {i k : Nat} {g : Glyph} (hk : (Glyph.traced .code s i t)[k]? = some (g, s')) :
    i ≤ g.place ∧ (Glyph.traced .code s i t).drop k =
      Glyph.traced .code s' g.place (t.drop (g.place - i)) := by
  induction h generalizing i k with
  | nil => cases hk
  | @cons s x xs rest hx _ ih =>
      -- A glyph of what follows stands behind the stretch.
      have later {k : Nat}
          (hk : (Glyph.traced .code (s.run (x.shown s)) (i + x.text.length) rest)[k]? =
            some (g, s')) :
          i ≤ g.place ∧
            (Glyph.traced .code (s.run (x.shown s)) (i + x.text.length) rest).drop k =
              Glyph.traced .code s' g.place ((x.text ++ rest).drop (g.place - i)) := by
        obtain ⟨hle, hdrop⟩ := ih hk
        refine ⟨by omega, ?_⟩
        rw [hdrop, List.drop_append,
          List.drop_eq_nil_of_le (show x.text.length ≤ g.place - i by omega), List.nil_append,
          Nat.sub_sub]
      rcases x.glyphs_cases s i with hnone | ⟨c, hone⟩
      · rw [Glyph.traced_stretch hx, hnone] at hk ⊢
        exact later hk
      · cases k with
        | zero =>
            rw [Glyph.traced_stretch hx, hone] at hk
            cases hk
            exact ⟨Nat.le_refl i, by rw [Nat.sub_self]; rfl⟩
        | succ k =>
            rw [Glyph.traced_stretch hx, hone] at hk ⊢
            exact later hk

namespace Glyph

variable {t : Text} {i : Nat}

theorem traced_getElem? (h : i < (visible t).length) : ∃ g, (ofText t)[i]? = some g ∧
    (traced .code .top 0 t)[i]? = some (g, Nesting.top.run ((visible t).take i)) := by
  have hlt : i < (traced .code .top 0 t).length := by
    rwa [← map_char_traced, List.length_map] at h
  have hnesting := nestings_getElem? h
  rw [nestings, List.getElem?_map, List.getElem?_eq_getElem hlt] at hnesting
  refine ⟨(traced .code .top 0 t)[i].1, ?_, ?_⟩
  · rw [ofText, ← map_fst_traced, List.getElem?_map, List.getElem?_eq_getElem hlt]
    rfl
  · rw [List.getElem?_eq_getElem hlt, ← Option.some.inj hnesting]

/-- The glyphs from any on are those of a scan that begins there, in the nesting there. -/
theorem exists_drop_ofText (h : i < (visible t).length) : ∃ g, (ofText t)[i]? = some g ∧
    (ofText t).drop i =
      scan .code (Nesting.top.run ((visible t).take i)) g.place (t.drop g.place) := by
  obtain ⟨xs, hxs⟩ := Divides.exists_of .top t
  obtain ⟨g, hg, htraced⟩ := traced_getElem? h
  refine ⟨g, hg, ?_⟩
  rw [ofText, ← map_fst_traced, ← List.map_drop, (hxs.traced_drop htraced).2, Nat.sub_zero,
    map_fst_traced]

end Glyph

/-! ## Slices at top level -/

namespace Slice

/-- The rest of the glyphs of a text, from one on that is at top level. -/
structure AtTop (t : Text) (q : Slice) : Prop where
  text : q.text = (Glyph.visible t).drop q.start
  top : q.text ≠ [] → Nesting.top.run ((Glyph.visible t).take q.start) = .top

namespace AtTop

variable {t : Text} {q : Slice}

theorem ofText (t : Text) : (ofText t).AtTop t := ⟨rfl, fun _ => rfl⟩

/-- What is left is at top level if what is dropped leads back to it. -/
theorem drop (h : q.AtTop t) {n : Nat}
    (hrun : (q.drop n).text ≠ [] → Nesting.top.run (q.text.take n) = .top) :
    (q.drop n).AtTop t where
  text := by
    show q.text.drop n = (Glyph.visible t).drop (q.start + n)
    rw [h.text, List.drop_drop]
  top hne := by
    have hq : q.text ≠ [] := fun hnil => hne (by rw [Slice.drop, hnil, List.drop_nil])
    show Nesting.top.run ((Glyph.visible t).take (q.start + n)) = .top
    rw [List.take_add, Nesting.run_append, h.top hq, ← h.text, hrun hne]

theorem drop_of_isInert (h : q.AtTop t) {n : Nat} (hinert : ∀ c ∈ q.text.take n, IsInert c) :
    (q.drop n).AtTop t :=
  h.drop fun _ => (Text.IsEnclosed.of_isInert hinert).run_top

theorem dropGap (h : q.AtTop t) : q.dropGap.AtTop t := by
  refine h.drop_of_isInert fun c hc => isInert_of_isBlank (isBlank_of_isGap ?_)
  rw [← List.prefix_iff_eq_take.mp (List.takeWhile_prefix isGap)] at hc
  exact List.mem_takeWhile_imp hc

theorem drop_one (h : q.AtTop t) {c : Char} {u : Text} (hq : q.text = c :: u) (hc : IsInert c) :
    (q.drop 1).AtTop t :=
  h.drop_of_isInert fun d hd => by
    rw [hq] at hd
    exact List.mem_singleton.mp hd ▸ hc

theorem untilTop (h : q.AtTop t) (stop : Char → Bool) : (q.untilTop stop).2.AtTop t := by
  refine h.drop fun hne => ?_
  have hrest : (Text.untilTop stop .top q.text).2 ≠ [] := by
    rwa [← untilTop_snd_text]
  have hpassed : (q.untilTop stop).1.text = (Text.untilTop stop .top q.text).1 :=
    q.untilTop_fst_text stop
  exact (congrArg _ hpassed).trans (Text.nesting_untilTop hrest)

end AtTop

end Slice

/-! ## The end of a statement -/

namespace Statement

/-- Where the search for the end of the statement at the beginning of a slice sets out, and
what it stops at. -/
def search (s : Slice) : Slice × (Char → Bool) :=
  if beginsImport s.text then (s, endsDefinition)
  else
    match beginsDefinition? s.text with
    | some (_, colon) => (s.drop (colon + 1), endsDefinition)
    | none => (s, ends)

/-- What the search leaves, which begins with the end unless there is none. -/
def found (s : Slice) : Slice := ((search s).1.untilTop (search s).2).2

variable {nested : Bool} {s rest prelude : Slice} {st : Statement} {t : Text}

theorem isInert_of_beginsDefinition? {name : Text} {colon : Nat}
    (h : beginsDefinition? t = some (name, colon)) : ∀ c ∈ t.take (colon + 1), IsInert c := by
  obtain ⟨gap, rest, rfl, rfl, hname, hgap⟩ := of_beginsDefinition? h
  intro c hc
  rw [List.take_left' (by simp; omega)] at hc
  simp only [List.mem_cons, List.mem_append, List.not_mem_nil, or_false] at hc
  rcases hc with rfl | hc | hc | rfl
  · decide
  · exact isInert_of_isNameChar (hname c hc)
  · exact isInert_of_isBlank (isBlank_of_isGap (hgap c hc))
  · decide

theorem search_importing (himport : beginsImport s.text = true) :
    search s = (s, endsDefinition) := if_pos himport

theorem search_definition {name : Text} {colon : Nat} (himport : ¬ beginsImport s.text = true)
    (hdefinition : beginsDefinition? s.text = some (name, colon)) :
    search s = (s.drop (colon + 1), endsDefinition) := by
  rw [search, if_neg himport, hdefinition]

theorem search_plain (himport : ¬ beginsImport s.text = true)
    (hdefinition : beginsDefinition? s.text = none) : search s = (s, ends) := by
  rw [search, if_neg himport, hdefinition]

theorem search_atTop (h : s.AtTop t) : (search s).1.AtTop t := by
  unfold search
  split
  · exact h
  · split
    · rename_i hbegins
      exact h.drop_of_isInert (isInert_of_beginsDefinition? hbegins)
    · exact h

theorem found_atTop (h : s.AtTop t) : (found s).AtTop t := (search_atTop h).untilTop _

/-- A statement goes up to where the search ends, or past the end if that is a `;`. -/
theorem rest_of_cut_statement (h : cut nested s = .statement st rest) :
    rest = found s ∨ rest = (found s).drop 1 ∧ ∃ u, (found s).text = ';' :: u := by
  have of_ended {after : Slice} (h : Ended nested after rest) :
      rest = after ∨ rest = after.drop 1 ∧ ∃ u, after.text = ';' :: u := by
    cases h with
    | semicolon hend => exact .inr ⟨rfl, _, hend⟩
    | brace => exact .inl rfl
  cases cutsTo_of_cut h with
  | importing himport hended =>
      rw [found, search_importing himport]
      exact of_ended hended
  | definition himport hdefinition hended =>
      rw [found, search_definition (Bool.eq_false_iff.mp himport) hdefinition]
      exact of_ended hended
  | plain himport hdefinition =>
      rw [found, search_plain (Bool.eq_false_iff.mp himport) hdefinition]
      unfold afterEnd
      split
      · rename_i hend
        exact .inr ⟨rfl, _, hend⟩
      · exact .inl rfl

/-- A prelude goes past the brace that the search ends at. -/
theorem rest_of_cut_opening (h : cut nested s = .opening prelude rest) :
    rest = (found s).drop 1 ∧ ∃ u, (found s).text = '{' :: u := by
  obtain ⟨himport, hdefinition, -, rfl, hbrace⟩ := of_cut_opening h
  rw [found, search_plain (Bool.eq_false_iff.mp himport) hdefinition]
  exact ⟨rfl, hbrace⟩

/-- Where the next glyph ends a statement, the search ends at once. -/
theorem found_of_endsDefinition {c : Char} (hs : s.text = c :: t)
    (hc : endsDefinition c = true) : found s = s := by
  have hsearch : search s = (s, ends) := by
    rw [search, hs]
    simp only [endsDefinition, Bool.or_eq_true, beq_iff_eq] at hc
    rcases hc with rfl | rfl <;> rfl
  rw [found, hsearch]
  exact Slice.untilTop_eq_self hs (by simp [ends, hc])

end Statement

/-! ## Turns of the loop -/

namespace Cursor

variable {c c' : Cursor} {t : Text}

/-- The next turn begins where the search ends, or past the end. -/
theorem next_input (h : c.turn = .on c') :
    c'.input = Statement.found c.input.dropGap ∨
      c'.input = (Statement.found c.input.dropGap).drop 1 ∧
        ∃ d u, (Statement.found c.input.dropGap).text = d :: u ∧ IsInert d := by
  unfold turn at h
  simp only at h
  split at h
  · split at h <;> cases h
  · rename_i hs
    cases h
    rw [Statement.found_of_endsDefinition hs rfl]
    exact .inr ⟨rfl, _, _, hs, by decide⟩
  · rename_i hs
    split at h <;> cases h
    rw [Statement.found_of_endsDefinition hs rfl]
    exact .inr ⟨rfl, _, _, hs, by decide⟩
  · split at h <;> cases h
    · rename_i hcut
      exact (Statement.rest_of_cut_statement hcut).imp_right fun ⟨hrest, u, hu⟩ =>
        ⟨hrest, _, u, hu, by decide⟩
    · rename_i hcut
      obtain ⟨hrest, u, hu⟩ := Statement.rest_of_cut_opening hcut
      exact .inr ⟨hrest, _, u, hu, by decide⟩

end Cursor

/-- A turn that begins at top level leads to one that does. -/
theorem Slice.AtTop.turn {c c' : Cursor} {t : Text} (h : c.input.AtTop t)
    (hturn : c.turn = .on c') : c'.input.AtTop t := by
  have hfound := Statement.found_atTop h.dropGap
  obtain hnext | ⟨hnext, d, u, hd, hinert⟩ := Cursor.next_input hturn
  · rwa [hnext]
  · rw [hnext]
    exact hfound.drop_one hd hinert

namespace Cursor

variable {n : Nat} {c : Cursor} {t : Text}

theorem Turns.atTop {c' : Cursor} (h : Turns n c c') (hc : c.input.AtTop t) :
    c'.input.AtTop t := by
  induction h with
  | here => exact hc
  | turn hturn _ ih => exact ih (hc.turn hturn)

/-- What the scan for glyphs and the search for ends make of the statement that a turn begins
with. -/
structure InStep (t : Text) (c : Cursor) : Prop where
  /-- The first glyph is outside strings and parentheses. -/
  top : (Glyph.nestings t)[c.input.dropGap.start]? = some .top
  /-- From there on the scan is in the nestings of a scan that begins there. -/
  onward : (Glyph.nestings t).drop c.input.dropGap.start = Nesting.top.states c.input.dropGap.text
  /-- So is the search, at each glyph that it looks at, the end included. -/
  search : Text.nestingsUntil (Statement.search c.input.dropGap).2 .top
      (Statement.search c.input.dropGap).1.text <+:
    (Glyph.nestings t).drop (Statement.search c.input.dropGap).1.start
  /-- What comes next is looked at from the end on, or from behind it. -/
  next : ∀ c', c.turn = .on c' → c'.input = Statement.found c.input.dropGap ∨
    c'.input = (Statement.found c.input.dropGap).drop 1
  /-- The glyphs are those of a scan that begins there, whatever there is in front. -/
  afresh : ∃ g, (Glyph.ofText t)[c.input.dropGap.start]? = some g ∧
    (Glyph.ofText t).drop c.input.dropGap.start =
      Glyph.scan .code .top g.place (t.drop g.place) ∧
    c.input.dropGap.text = Glyph.visible (t.drop g.place)

/-- The scan is at top level wherever a turn of the loop begins. -/
theorem Turns.inStep (h : Turns n ⟨[], .ofText t⟩ c) (hne : c.input.dropGap.text ≠ []) :
    c.InStep t := by
  have htop := (h.atTop (.ofText t)).dropGap
  have onward {q : Slice} (hq : q.AtTop t) (hne : q.text ≠ []) :
      (Glyph.nestings t).drop q.start = Nesting.top.states q.text := by
    rw [Glyph.nestings_eq, Nesting.drop_states, hq.top hne, ← hq.text]
  have hlt : c.input.dropGap.start < (Glyph.visible t).length := by
    refine Nat.lt_of_not_le fun hle => hne ?_
    rw [htop.text, List.drop_eq_nil_of_le hle]
  obtain ⟨g, hg, hdrop⟩ := Glyph.exists_drop_ofText hlt
  rw [htop.top hne] at hdrop
  refine ⟨?_, onward htop hne, ?_, fun c' hc' => (next_input hc').imp_right And.left,
    g, hg, hdrop, ?_⟩
  · rw [Glyph.nestings_getElem? hlt, htop.top hne]
  · have hsearch := Statement.search_atTop htop
    by_cases hnil : (Statement.search c.input.dropGap).1.text = []
    · rw [hnil]
      exact List.nil_prefix
    · rw [onward hsearch hnil]
      exact Text.nestingsUntil_prefix ..
  · calc c.input.dropGap.text
      _ = ((Glyph.ofText t).drop c.input.dropGap.start).map Glyph.char := by
        rw [htop.text, Glyph.visible, List.map_drop]
      _ = Glyph.visible (t.drop g.place) := by
        rw [hdrop, Glyph.map_char_scan .code .top _ 0, ← Glyph.visibleFrom_top, Glyph.visibleFrom]

/-- In a block, behind a value with slashes inside parentheses and a comment that opens a
parenthesis. The definition at hand closes one more than it opens, and has one in a string. -/
theorem Turns.inStep_definition :
    let text : Text := "a \x7b b: url(x//y); // c (\n @d: (e)) ')'; f: g; \x7d"
    let c : Cursor := ⟨[⟨0, "a "⟩], ⟨17, " \n @d: (e)) ')'; f: g; \x7d"⟩⟩
    Turns 2 ⟨[], .ofText text⟩ c ∧ c.input.dropGap.text ≠ [] ∧ c.InStep text := by
  intro text c
  have hopening : (Cursor.mk [] (.ofText text)).turn = .on ⟨[⟨0, "a "⟩],
      ⟨3, " b: url(x//y); \n @d: (e)) ')'; f: g; \x7d"⟩⟩ := by decide +kernel
  have hturns : Turns 2 ⟨[], .ofText text⟩ c := .turn hopening (.turn (by decide +kernel) (.here c))
  have hne : c.input.dropGap.text ≠ [] := by decide +kernel
  exact ⟨hturns, hne, hturns.inStep hne⟩

end Cursor

end Cascade
