import Cascade.Proofs.Units
import Cascade.Proofs.Written

/-!
# Values that are single terms

A value that is written as one term is read again as a term that comes to it, or, where
it was computed, to a value that is written alike.
-/

namespace Cascade

/-! ## Words -/

theorem Color.written_of_ofHex? {t : Text} {c : Color} (h : ofHex? t = some c) :
    c.written = some t := by
  unfold ofHex? at h
  split at h
  · obtain ⟨digits, -, h⟩ := Option.bind_eq_some_iff.mp h
    split at h
    all_goals
      cases h
      try rfl
  · cases h

theorem Quantity.written_of_read? {t : Text} {q : Quantity} (h : read? t = some q) :
    q.written = some t := by
  unfold read? at h
  obtain ⟨l, -, h⟩ := Option.bind_eq_some_iff.mp h
  obtain ⟨unit, -, h⟩ := Option.bind_eq_some_iff.mp h
  cases h
  rfl

theorem Value.css_ofWord (t : Text) : (ofWord t).css = t := by
  unfold ofWord
  split
  · split
    · rename_i c hhex
      simp [css, Color.text, Color.written_of_ofHex? hhex]
    · rfl
  · split
    · rename_i q hread
      simp [css, Quantity.text, Quantity.written_of_read? hread]
    · rfl

/-- What a call of an unknown function is. -/
def Value.ofCall (t : Text) : Value :=
  match Color.ofCall? t with
  | some c => .color c
  | none => .text t

theorem Color.written_of_ofCall? {t : Text} {c : Color} (h : ofCall? t = some c) :
    c.written = some t := by
  unfold ofCall? at h
  split at h
  · obtain ⟨alpha, -, h⟩ := Option.bind_eq_some_iff.mp h
    obtain ⟨r, -, h⟩ := Option.bind_eq_some_iff.mp h
    obtain ⟨g, -, h⟩ := Option.bind_eq_some_iff.mp h
    obtain ⟨b, -, h⟩ := Option.bind_eq_some_iff.mp h
    cases h
    rfl
  · obtain ⟨r, -, h⟩ := Option.bind_eq_some_iff.mp h
    obtain ⟨g, -, h⟩ := Option.bind_eq_some_iff.mp h
    obtain ⟨b, -, h⟩ := Option.bind_eq_some_iff.mp h
    cases h
    rfl
  · cases h

theorem Value.css_ofCall (t : Text) : (ofCall t).css = t := by
  unfold ofCall
  split
  · rename_i c hcall
    simp [css, Color.text, Color.written_of_ofCall? hcall]
  · rfl

theorem Operand.ofValue_text {t : Text} (h : t.head? ≠ some '#') :
    ∃ operand, ofValue (.text t) = .ok operand := by
  rw [ofValue]
  split
  · exact ⟨_, rfl⟩
  · exact ⟨none, by simp⟩

/-- A word that does not begin with `#` is no malformed color. -/
theorem Operand.ofValue_ofWord {t : Text} (h : t.head? ≠ some '#') :
    ∃ operand, ofValue (.ofWord t) = .ok operand := by
  unfold Value.ofWord
  split
  · exact (h rfl).elim
  · split
    · exact ⟨_, rfl⟩
    · exact ofValue_text h

theorem Operand.ofValue_ofCall {t : Text} (h : t.head? ≠ some '#') :
    ∃ operand, ofValue (.ofCall t) = .ok operand := by
  unfold Value.ofCall
  split
  · exact ⟨_, rfl⟩
  · exact ofValue_text h

/-! ## What a term stands for -/

/-- Where a term stands: by itself, as an operand, or in text that is kept. -/
inductive Place where
  | alone
  | operand
  | verbatim

def Computed.placed (c : Computed) : Place → Except Cause Value
  | .alone => c.value
  | .operand => c.operand
  | .verbatim => c.verbatim.map .text

/-- What a value may come to when it is read again: it is written as before, and
operations fail for it no more than before. -/
def Value.Echoes (v v' : Value) : Prop :=
  v' = v ∨ v'.css = v.css ∧ (∀ t, v ≠ .text t) ∧ ∃ operand, Operand.ofValue v' = .ok operand

theorem Value.Echoes.css_eq {v v' : Value} (h : v.Echoes v') : v'.css = v.css := by
  rcases h with rfl | h
  · rfl
  · exact h.1

/-- What cannot be computed with is text, which is read as it was. -/
theorem Value.Echoes.eq_of_none {v v' : Value} (h : v.Echoes v')
    (hnone : Operand.ofValue v = .ok none) : v' = v := by
  rcases h with rfl | ⟨-, hne, -⟩
  · rfl
  · cases v with
    | quantity | color => cases hnone
    | text t => exact (hne t rfl).elim

theorem Value.Echoes.ofValue_ok {v v' : Value} (h : v.Echoes v') {operand : Option Operand}
    (hok : Operand.ofValue v = .ok operand) : ∃ operand', Operand.ofValue v' = .ok operand' := by
  rcases h with rfl | ⟨-, -, h⟩
  · exact ⟨operand, hok⟩
  · exact h

/-- A value that is written as one term: that of a word, or a computed number or color. -/
inductive Value.Lone : Value → Prop
  | word {t : Text} : Token.IsWord t → Lone (.ofWord t)
  | number {x : Float} {unit : NumberUnit} : Lone (.number x unit)
  | color {rgb : Rgb Float} {alpha : Option Float} : Lone (.color (.computed rgb alpha))

namespace Token

/-- The token reads back from the text of the value and comes to it again. -/
structure Keeps (p : Place) (v : Value) (token : Token) : Prop where
  reads : Reads v.css [token]
  comes : ∃ c v', token.compute = .term c ∧ c.placed p = .ok v' ∧ v.Echoes v'

/-- A term that comes to the same value everywhere and is written as that value. -/
theorem keeps_of_compute {v v' : Value} {token : Token} (hreads : Reads v.css [token])
    (hcompute : token.compute = .term ⟨.ok v', .ok v', .ok v.css⟩) (hechoes : v.Echoes v') :
    Keeps .alone v token ∧ Keeps .operand v token ∧ Keeps .verbatim (.text v.css) token :=
  ⟨⟨hreads, _, v', hcompute, rfl, hechoes⟩, ⟨hreads, _, v', hcompute, rfl, hechoes⟩,
    ⟨hreads, _, .text v.css, hcompute, rfl, .inl rfl⟩⟩

/-- The text of a number does not begin like a color. -/
theorem head?_render (x : Float) (unit : Text) :
    (Decimal.render x ++ unit).head? ≠ some '#' := by
  obtain ⟨c, hc, -⟩ := Decimal.exists_isAlphanum_render x
  obtain ⟨b, rest, hrender⟩ := List.exists_cons_of_ne_nil (List.ne_nil_of_mem hc)
  intro hhead
  obtain rfl : b = '#' := by simpa [hrender] using hhead
  have hb : '#' ∈ Decimal.render x := hrender ▸ List.mem_cons_self ..
  rcases Decimal.of_mem_render hb with h | h | h <;> cases h

theorem compute_call {name : Text} (h : Builtin.ofName? name = none) {arguments : List Token}
    {t : Text} (ht : Piece.verbatims (computeAll arguments) = .ok t) :
    (call name arguments).compute =
      .term ⟨.ok (.ofCall (name ++ '(' :: t ++ [')'])), .ok (.ofCall (name ++ '(' :: t ++ [')'])),
        .ok (Value.ofCall (name ++ '(' :: t ++ [')'])).css⟩ := by
  rw [compute, Piece.call, h, ht, Value.css_ofCall]
  rfl

end Token

/-- A unit that was read is made of letters, or a percent sign. -/
theorem NumberUnit.IsRead.isWordChar {unit : NumberUnit} (h : unit.IsRead) :
    ∀ c ∈ unit.text, Token.isWordChar c = true := by
  cases unit with
  | plain => exact nofun
  | percent => exact List.all_eq_true.mp (by decide)
  | known u => cases u <;> exact List.all_eq_true.mp (by decide)
  | other letters =>
      intro c hc
      have hletter := (of_isRead_other h).2 c hc
      exact Token.isWordChar_of_isAlphanum (by simp [Char.isAlphanum, hletter])

open Token in
theorem Value.Lone.keeps {v : Value} (h : v.Lone) (hunit : v.HasReadUnit) :
    ∃ token, Keeps .alone v token ∧ Keeps .operand v token ∧
      Keeps .verbatim (.text v.css) token := by
  cases h with
  | @word t h =>
      have hcss := Value.css_ofWord t
      exact ⟨.word t, keeps_of_compute (hcss.symm ▸ .word h) (by rw [hcss]; rfl) (.inl rfl)⟩
  | @number x unit =>
      have hword := isWord_render x unit.text (NumberUnit.IsRead.isWordChar hunit)
      refine ⟨.word _, keeps_of_compute (.word hword) rfl (.inr ⟨Value.css_ofWord _, nofun, ?_⟩)⟩
      exact Operand.ofValue_ofWord (head?_render x unit.text)
  | @color rgb alpha =>
      cases alpha with
      | none =>
          have hreads : Reads (Value.color (.computed rgb none)).css
              [.word ('#' :: Color.hexText rgb)] :=
            .word (Color.isWord_hexText rgb)
          obtain ⟨c, hc⟩ := Color.ofHex?_hexText rgb
          have hvalue : ofWord ('#' :: Color.hexText rgb) = .color c := by rw [ofWord, hc]
          refine ⟨_, keeps_of_compute hreads rfl (.inr ⟨css_ofWord _, nofun, ?_⟩)⟩
          exact ⟨some (.color c), by rw [hvalue]; rfl⟩
      | some alpha =>
          have hcss : (Value.color (.computed rgb (some alpha))).css = _ :=
            Color.text_computed_some rgb alpha
          have hname : IsName "rgba" := ⟨by decide, List.all_eq_true.mp (by decide)⟩
          have hreads := Reads.call hname
            (.run (Color.reads_rgbaText rgb (Scalar.clamp 0.0 1.0 alpha)))
          have hcompute := compute_call (by decide : Builtin.ofName? "rgba" = none)
            (Color.verbatims_rgbaTokens rgb (Scalar.clamp 0.0 1.0 alpha))
          rw [← hcss] at hreads
          rw [← hcss, css_ofCall] at hcompute
          refine ⟨_, keeps_of_compute hreads hcompute (.inr ⟨css_ofCall _, nofun, ?_⟩)⟩
          refine Operand.ofValue_ofCall ?_
          rw [hcss]
          nofun

end Cascade
