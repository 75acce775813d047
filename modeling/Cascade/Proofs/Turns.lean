import Cascade.Proofs.Outlines

/-!
# The loop over statements

A source is read by a loop that deals with one statement, one opening brace or one
closing brace in each turn. It keeps its place, and the blocks it is in. The outline of
a source says nothing of turns, since it has the blocks as parts; but it is what the
loop comes to: the loop ends where the outline ends, or it meets what the outline
breaks at (`Cursor.loop_ofText`).

Every turn that is not the last leaves fewer glyphs than it found
(`Cursor.length_lt_of_turn`), so there are at most as many of them as glyphs.
-/

namespace Cascade

/-- Where the loop stands: the preludes of the blocks it is in, the innermost first, and
what is still to be read. -/
structure Cursor where
  blocks : List Slice
  input : Slice
deriving DecidableEq

/-- What a turn of the loop comes to. -/
inductive Turn where
  | on (next : Cursor)
  | ended
  | broken (cause : Cause) (blamed : Slice)
deriving DecidableEq

namespace Cursor

/-- One turn of the loop. -/
def turn (c : Cursor) : Turn :=
  let s := c.input.dropGap
  match s.text with
  | [] =>
    match c.blocks with
    | [] => .ended
    | prelude :: _ => .broken .unclosedBlock prelude
  | ';' :: _ => .on ⟨c.blocks, s.drop 1⟩
  | '}' :: _ =>
    match c.blocks with
    | [] => .broken .unmatchedBrace (s.take 1)
    | _ :: outer => .on ⟨outer, s.drop 1⟩
  | _ :: _ =>
    match Statement.cut c.blocks.head?.isSome s with
    | .broken cause blamed => .broken cause blamed
    | .statement _ rest => .on ⟨c.blocks, rest⟩
    | .opening prelude rest => .on ⟨prelude :: c.blocks, rest⟩

variable {c c' : Cursor} {ch : Char} {t : Text}

/-- A turn that begins at neither `;` nor `}` cuts a statement or a prelude off. -/
theorem turn_of_cut (hs : c.input.dropGap.text = ch :: t)
    (hch : Statement.endsDefinition ch = false) :
    c.turn = match Statement.cut c.blocks.head?.isSome c.input.dropGap with
      | .broken cause blamed => .broken cause blamed
      | .statement _ rest => .on ⟨c.blocks, rest⟩
      | .opening prelude rest => .on ⟨prelude :: c.blocks, rest⟩ := by
  unfold turn
  simp only
  split
  · rename_i hnil
    rw [hnil] at hs
    cases hs
  · rename_i hsemicolon
    rw [hsemicolon] at hs
    cases hs
    cases hch
  · rename_i hbrace
    rw [hbrace] at hs
    cases hs
    cases hch
  · rfl

/-- A turn after which the loop goes on has consumed a glyph at least. -/
theorem length_lt_of_turn (h : c.turn = .on c') : c'.input.length < c.input.length := by
  have hgap := c.input.length_dropGap
  unfold turn at h
  simp only at h
  split at h
  · split at h <;> cases h
  · rename_i hs
    cases h
    exact Nat.lt_of_lt_of_le (Slice.length_drop_one_lt hs) hgap
  · rename_i hs
    split at h <;> cases h
    exact Nat.lt_of_lt_of_le (Slice.length_drop_one_lt hs) hgap
  · rename_i ch t hsemicolon hbrace hs
    have hch : Statement.endsDefinition ch = false := by
      simp only [Statement.endsDefinition, Bool.or_eq_false_iff, beq_eq_false_iff_ne]
      exact ⟨hsemicolon, hbrace⟩
    have hshort : (Statement.cut c.blocks.head?.isSome c.input.dropGap).Shortens c.input.dropGap :=
      Statement.cut_shortens hs hch
    split at h <;> cases h
    · rename_i hcut
      exact Statement.length_lt_of_cut_statement hgap hshort hcut
    · rename_i hcut
      exact Statement.length_lt_of_cut_opening hgap hshort hcut

/-- The loop gets from one place to the other in `n` turns. -/
inductive Turns : (n : Nat) → (c c' : Cursor) → Prop
  | here (c : Cursor) : Turns 0 c c
  | turn {n : Nat} {c c' c'' : Cursor} : c.turn = .on c' → Turns n c' c'' → Turns (n + 1) c c''

theorem Turns.append {m n : Nat} {c'' : Cursor} (h : Turns m c c') (h' : Turns n c' c'') :
    Turns (m + n) c c'' := by
  induction h with
  | here => rwa [Nat.zero_add]
  | turn hturn _ ih =>
      rw [Nat.add_right_comm]
      exact .turn hturn (ih h')

/-- As many turns leave at least as many glyphs less. -/
theorem Turns.length_le {n : Nat} (h : Turns n c c') : n + c'.input.length ≤ c.input.length := by
  induction h with
  | here => exact Nat.le_of_eq (Nat.zero_add _)
  | turn hturn _ ih =>
      have := length_lt_of_turn hturn
      omega

/-- The last turn of the loop, or of a part of it that begins here. -/
def ComesTo (c : Cursor) (t : Turn) : Prop := ∃ n last, Turns n c last ∧ last.turn = t

namespace ComesTo

variable {t : Turn}

theorem now (h : c.turn = t) : c.ComesTo t := ⟨0, c, .here c, h⟩

theorem later (h : c.turn = .on c') (h' : c'.ComesTo t) : c.ComesTo t := by
  obtain ⟨n, last, hturns, hlast⟩ := h'
  exact ⟨n + 1, last, .turn h hturns, hlast⟩

theorem trans (h : c.ComesTo (.on c')) (h' : c'.ComesTo t) : c.ComesTo t := by
  obtain ⟨n, last, hturns, hlast⟩ := h
  obtain ⟨n', last', hturns', hlast'⟩ := h'
  exact ⟨n + (n' + 1), last', hturns.append (.turn hlast hturns'), hlast'⟩

end ComesTo

/-- The turn at the end of a block, or of the source. -/
def leave (blocks : List Slice) (rest : Slice) : Turn :=
  match blocks with
  | [] => .ended
  | _ :: outer => .on ⟨outer, rest⟩

end Cursor

namespace Outline

/-- What an outline first breaks at. -/
def break? : Outline → Option (Cause × Slice)
  | closed => none
  | broken cause blamed => some (cause, blamed)
  | statement _ rest => rest.break?
  | block _ body rest => body.break?.or rest.break?

/-- What the loop comes to by this outline, which is the given turn unless it breaks. -/
def verdict (o : Outline) (last : Turn) : Turn :=
  match o.break? with
  | none => last
  | some (cause, blamed) => .broken cause blamed

variable {opened : Option Slice} {input rest : Slice} {outline : Outline}

theorem Scans.comesTo (h : Scans opened input outline rest) :
    ∀ blocks : List Slice, blocks.head? = opened →
      (Cursor.mk blocks input).ComesTo (outline.verdict (Cursor.leave blocks rest)) := by
  induction h with
  | ended hs | unclosed hs | close hs | unmatched hs =>
      intro blocks hblocks
      refine .now ?_
      cases blocks <;> cases hblocks
      simp only [Cursor.turn, hs]
      rfl
  | skip hs _ ih =>
      intro blocks hblocks
      refine .later ?_ (ih blocks hblocks)
      simp only [Cursor.turn, hs]
  | broken hs hch hcut =>
      rintro blocks rfl
      refine .now ((Cursor.turn_of_cut hs hch).trans ?_)
      rw [hcut]
      rfl
  | statement hs hch hcut _ ih =>
      rintro blocks rfl
      refine .later ((Cursor.turn_of_cut hs hch).trans ?_) (ih _ rfl)
      rw [hcut]
  | @block _ input prelude after inside rest _ _ body outline hs hch hcut _ _ ihbody ih =>
      rintro blocks rfl
      have hopening : (Cursor.mk blocks input).turn = .on ⟨prelude :: blocks, after⟩ := by
        rw [Cursor.turn_of_cut hs hch, hcut]
      have hbody := ihbody (prelude :: blocks) rfl
      have hrest := ih blocks rfl
      refine .later hopening ?_
      unfold verdict at hbody hrest ⊢
      rw [break?]
      cases hbreak : body.break? with
      | none =>
          rw [hbreak] at hbody
          exact hbody.trans hrest
      | some =>
          rw [hbreak] at hbody
          exact hbody

end Outline

/-- The loop reads a source as its outline says, in no more turns than it has glyphs
besides the last. -/
theorem Cursor.loop_ofText (t : Text) : ∃ n last,
    n ≤ (Glyph.ofText t).length ∧ Turns n ⟨[], .ofText t⟩ last ∧
      last.turn = (Outline.ofText t).verdict .ended := by
  obtain ⟨n, last, hturns, hlast⟩ :=
    (Outline.scan_scans none (.ofText t)).comesTo [] rfl
  have hlength : (Slice.ofText t).length = (Glyph.ofText t).length := List.length_map ..
  have hle := hturns.length_le
  exact ⟨n, last, by rw [← hlength]; exact Nat.le_of_add_right_le hle, hturns, hlast⟩

end Cascade
