import Cascade.Proofs.Components
import Cascade.Proofs.Idempotence
import Cascade.Proofs.Numerals
import Cascade.Proofs.ResultUnits

/-!
# Numbers and colors that are read back

Variables and arguments pass a value on as its text. A number or a color that an operation or
a function came to is read again from that text, as a value of the same shape that is written
alike (`Value.Produced.readsBack_iff`).

There is one exception. `if` may come to a color that was written as a call, and what is
between the parentheses of a call is kept. A function that came to nothing there leaves the
white space on both its sides, and reading makes one space of it.
-/

namespace Cascade

/-! ## Where values come from -/

namespace Value

/-- The values that tokens come to: text, words, colors that are written as calls, and what
operations and functions make of them. -/
inductive Evaluated : Value → Prop
  | text (t : Text) : Evaluated (.text t)
  | word (t : Text) : Evaluated (.ofWord t)
  | call {t : Text} {c : Color} : Color.ofCall? t = some c → Evaluated (.color c)
  | operation {o : Operator} {left right v : Value} : Evaluated left → Evaluated right →
      o.operate left right = .ok (some v) → Evaluated v
  | function {b : Builtin} {arguments : List Value} {v : Value} :
      (∀ a ∈ arguments, Evaluated a) → b.eval arguments = .ok v → Evaluated v

/-- What an operation or a function comes to. -/
inductive Produced : Value → Prop
  | operation {o : Operator} {left right v : Value} : left.Evaluated → right.Evaluated →
      o.operate left right = .ok (some v) → Produced v
  | function {b : Builtin} {arguments : List Value} {v : Value} :
      (∀ a ∈ arguments, a.Evaluated) → b.eval arguments = .ok v → Produced v

theorem Produced.evaluated {v : Value} (h : v.Produced) : v.Evaluated := by
  cases h with
  | operation hleft hright h => exact .operation hleft hright h
  | function harguments h => exact .function harguments h

theorem evaluated_isClosed : IsClosed Evaluated where
  text := .text
  word := .word
  call := .call
  operate := fun _ _ _ hleft hright _ hresult _ hv => .operation hleft hright (hv ▸ hresult)
  eval := fun _ _ harguments _ h => .function harguments h

theorem Evaluated.of_isClosed {p : Value → Prop} (hp : IsClosed p) {v : Value}
    (h : v.Evaluated) : p v := by
  induction h with
  | text t => exact hp.text t
  | word t => exact hp.word t
  | call h => exact hp.call h
  | operation _ _ h hleft hright => exact hp.operate _ hleft hright _ h _ rfl
  | function _ h harguments => exact hp.eval _ harguments _ h

/-- How the text of a value came about. -/
inductive Origin : Value → Prop
  | text (t : Text) : Origin (.text t)
  | word (t : Text) : Origin (.ofWord t)
  | call {t : Text} {c : Color} : Color.ofCall? t = some c → Origin (.color c)
  | number {x : Float} {unit : NumberUnit} : unit.IsRead → Origin (.number x unit)
  | color {rgb : Rgb Float} {alpha : Option Float} : Origin (.color (.computed rgb alpha))

theorem Origin.hasReadUnit {v : Value} (h : v.Origin) : v.HasReadUnit := by
  cases h with
  | text | call | color => trivial
  | word t => exact hasReadUnit_ofWord t
  | number h => exact h

theorem Lone.origin {v : Value} (h : v.Lone) (hunit : v.HasReadUnit) : v.Origin := by
  cases h with
  | word => exact .word _
  | number => exact .number hunit
  | color => exact .color

theorem origin_isClosed : IsClosed Origin where
  text := .text
  word := .word
  call := .call
  operate := fun o _ _ hleft hright result hresult v hv =>
    (Operator.operate_lone (hv ▸ hresult)).origin
      (o.operate_hasReadUnit hleft.hasReadUnit hright.hasReadUnit result hresult v hv)
  eval := fun b arguments harguments => by
    by_cases hb : b = .choose
    · rw [hb]
      exact Builtin.evalChoose_gives .text harguments
    · intro v hv
      have hunits : ∀ a ∈ arguments, a.HasReadUnit := fun a ha => (harguments a ha).hasReadUnit
      exact (Builtin.eval_lone hb hv).origin (b.eval_hasReadUnit hunits v hv)

end Value

/-- Whatever tokens come to is such a value. -/
theorem Token.value_evaluated {tokens : List Token} {v : Value} (h : value tokens = .ok v) :
    v.Evaluated :=
  value_gives Value.evaluated_isClosed tokens v h

/-! ## Reading back -/

/-- Where no variable is defined, the text of the value comes to a value of the same shape
that is written alike. -/
structure Value.ReadsBack (v : Value) : Prop where
  value : ∃ w, Token.value (Token.ofText v.css) = .ok w ∧ w.shape? = v.shape? ∧ w.css = v.css
  evaluate : ∀ s : Scope, (∀ name, s.meaning? name = none) → ∀ idle span,
    s.evaluate idle ⟨v.css, span⟩ = .ok v.css

theorem Value.ReadsBack.of_value {v w : Value} (hvalue : Token.value (Token.ofText v.css) = .ok w)
    (hshape : w.shape? = v.shape?) (hcss : w.css = v.css) : v.ReadsBack where
  value := ⟨w, hvalue, hshape, hcss⟩
  evaluate s hs idle span := by
    rw [Scope.evaluate_unknown hs, hvalue]
    exact congrArg Except.ok hcss

/-! ## Words -/

theorem Token.value_word {t : Text} (h : IsWord t) : value (ofText t) = .ok (.ofWord t) := by
  rw [(Reads.word h).ofText_eq]
  exact Piece.valueOf_term _

theorem NumberUnit.isWordChar_of_read? {suffix : Text} {unit : NumberUnit}
    (h : read? suffix = some unit) : ∀ c ∈ suffix, Token.isWordChar c = true := by
  unfold read? at h
  split at h
  · rename_i hempty
    rw [List.isEmpty_iff.mp hempty]
    exact nofun
  split at h
  · rename_i hpercent
    rw [hpercent]
    exact List.all_eq_true.mp (by decide)
  split at h
  · rename_i hletters
    intro c hc
    have hletter := List.all_eq_true.mp hletters c hc
    exact Token.isWordChar_of_isAlphanum (by simp [Char.isAlphanum, hletter])
  · cases h

theorem Quantity.isWord_of_read? {t : Text} {q : Quantity} (h : read? t = some q) :
    Token.IsWord t := by
  have hsign (o : Operator) : t ≠ [o.char] := by
    rintro rfl
    cases o <;> cases h
  have hne : t ≠ [] := by
    rintro rfl
    cases h
  refine .name ⟨hne, fun c hc => ?_⟩ hsign
  unfold read? at h
  split at h
  rename_i negative unsigned hsigned
  obtain ⟨l, hliteral, h⟩ := Option.bind_eq_some_iff.mp h
  obtain ⟨unit, hunit, -⟩ := Option.bind_eq_some_iff.mp h
  have hmem : c = '-' ∨ c ∈ unsigned := by
    split at hsigned
    · cases hsigned
      exact List.mem_cons.mp hc
    · cases hsigned
      exact .inr hc
  rcases hmem with rfl | hmem
  · decide
  rcases Decimal.of_mem_literal? hliteral hmem with hdigit | rfl | hrest
  · exact Token.isWordChar_of_isAlphanum (by simp [Char.isAlphanum, hdigit])
  · decide
  · exact NumberUnit.isWordChar_of_read? hunit c hrest

theorem Color.isWord_of_ofHex? {t : Text} {c : Color} (h : ofHex? t = some c) :
    Token.IsWord t := by
  have hsign (o : Operator) : t ≠ [o.char] := by
    rintro rfl
    cases o <;> cases h
  have hne : t ≠ [] := by
    rintro rfl
    cases h
  refine .name ⟨hne, fun d hd => ?_⟩ hsign
  rcases of_mem_hex h d hd with rfl | hd
  · decide
  · exact Token.isWordChar_of_isAlphanum hd

namespace Value

theorem isWord_of_ofWord {t : Text} (h : ∀ u, ofWord t ≠ .text u) : Token.IsWord t := by
  unfold ofWord at h
  split at h
  · split at h
    · rename_i hhex
      exact Color.isWord_of_ofHex? hhex
    · exact (h _ rfl).elim
  · split at h
    · rename_i hread
      exact Quantity.isWord_of_read? hread
    · exact (h _ rfl).elim

theorem ofHex?_of_ofWord {t : Text} {c : Color} (h : ofWord t = color c) :
    Color.ofHex? t = some c := by
  unfold ofWord at h
  split at h
  · split at h
    · cases h
      assumption
    · cases h
  · split at h <;> cases h

theorem readsBack_ofWord {t : Text} (h : Token.IsWord t) : (ofWord t).ReadsBack := by
  have hvalue := Token.value_word h
  rw [← css_ofWord t] at hvalue
  exact .of_value hvalue (by rw [css_ofWord]) (by rw [css_ofWord, css_ofWord])

theorem readsBack_number {x : Float} {unit : NumberUnit} (hnan : x.isNaN = false)
    (hinf : x.isInf = false) (h : unit.IsRead) : (number x unit).ReadsBack := by
  obtain ⟨y, hread⟩ := Quantity.read?_render hnan hinf h
  have hword := Token.isWord_render x unit.text (NumberUnit.IsRead.isWordChar h)
  refine .of_value (v := number x unit) (Token.value_word hword) ?_ (css_ofWord _)
  show (ofWord (Decimal.render x ++ unit.text)).shape? = _
  rw [ofWord_of_head?_ne (Token.head?_render x unit.text), hread]
  rfl

/-! ## Colors -/

theorem readsBack_computed (rgb : Rgb Float) (alpha : Option Float) :
    (color (.computed rgb alpha)).ReadsBack := by
  cases alpha with
  | none =>
      obtain ⟨c, hhex⟩ := Color.ofHex?_hexText rgb
      have hword : ofWord ('#' :: Color.hexText rgb) = color c := by rw [ofWord, hhex]
      refine .of_value (v := color (.computed rgb none))
        (Token.value_word (Color.isWord_hexText rgb)) ?_ (css_ofWord _)
      rw [show (color (.computed rgb none)).css = '#' :: Color.hexText rgb from rfl, hword, shape?,
        Color.alpha_of_ofHex? hhex]
      rfl
  | some alpha =>
      have hcss : (color (.computed rgb (some alpha))).css = _ := Color.text_computed_some rgb alpha
      have hname : Token.IsName "rgba" := ⟨by decide, List.all_eq_true.mp (by decide)⟩
      have hreads := Token.Reads.call hname
        (.run (Color.reads_rgbaText rgb (Scalar.clamp 0.0 1.0 alpha)))
      have hcompute := Token.compute_call (by decide : Builtin.ofName? "rgba" = none)
        (Color.verbatims_rgbaTokens rgb (Scalar.clamp 0.0 1.0 alpha))
      obtain ⟨c, hcall, halpha⟩ := Color.ofCall?_rgbaText rgb (Scalar.clamp 0.0 1.0 alpha)
      rw [← hcss] at hreads hcompute hcall
      have hvalue : Token.value (Token.ofText (color (.computed rgb (some alpha))).css) =
          .ok (ofCall (color (.computed rgb (some alpha))).css) := by
        rw [hreads.ofText_eq, Token.value, Token.computeAll, hcompute]
        exact Piece.valueOf_term _
      refine .of_value hvalue ?_ (css_ofCall _)
      rw [ofCall, hcall]
      exact congrArg (some ∘ Shape.color) halpha

end Value

/-! ## Colors that are written as calls -/

namespace Color

variable {t : Text} {c : Color}

/-- A color that is not written as a call, or is written as its tokens are. -/
def IsTidy (c : Color) : Prop :=
  ∀ t, ofCall? t = some c → Token.textOf (Token.ofText t) = t

theorem isTidy_computed (rgb : Rgb Float) (alpha : Option Float) : (computed rgb alpha).IsTidy := by
  intro t h
  cases written_of_ofCall? h

theorem isTidy_of_ofHex? (h : ofHex? t = some c) : c.IsTidy := by
  intro u hu
  have hwritten := written_of_ofCall? hu
  rw [written_of_ofHex? h] at hwritten
  cases hwritten
  obtain ⟨digits, rfl⟩ := begins_of_ofHex? h
  cases (ofCall?_eq_none (by decide)).symm.trans hu

theorem isTidy_iff_of_ofCall? (h : ofCall? t = some c) :
    c.IsTidy ↔ Token.textOf (Token.ofText t) = t := by
  refine ⟨fun htidy => htidy t h, fun htext u hu => ?_⟩
  have hwritten := written_of_ofCall? hu
  rw [written_of_ofCall? h] at hwritten
  cases hwritten
  exact htext

/-- A call is written as its tokens are if no component has white space behind it, and none has
anything but one space in front of it. -/
theorem isTidy_iff_respelled {name part : Text} {parts : List Text} (hname : Token.IsName name)
    (hparts : ∀ p ∈ part :: parts, IsComponent p)
    (h : ofCall? (callText name (part :: parts)) = some c) :
    c.IsTidy ↔ ∀ p ∈ part :: parts, respelled p = p := by
  rw [isTidy_iff_of_ofCall? h, textOf_ofText_callText hname hparts,
    callText_respelled_iff (List.cons_ne_nil _ _) hparts]

/-- A color that is written as a call reads back if it is written as its tokens are. -/
theorem readsBack_iff_of_ofCall? (h : ofCall? t = some c) :
    (Value.color c).ReadsBack ↔ c.IsTidy := by
  have hvalue := value_ofText_call h
  have hcss : (Value.color c).css = t := by simp [Value.css, text, written_of_ofCall? h]
  rw [isTidy_iff_of_ofCall? h]
  rw [← hcss] at hvalue
  constructor
  · rintro ⟨⟨w, hw, -, hwritten⟩, -⟩
    cases hvalue.symm.trans hw
    rw [hcss] at hwritten
    exact hwritten
  · intro htext
    rw [← hcss] at htext
    exact .of_value hvalue rfl htext

end Color

/-! ## What is produced -/

namespace Value

/-- A number or a color, and none of its numbers is infinite or not a number. -/
def IsFinite : Value → Prop
  | quantity q => q.magnitude.isNaN = false ∧ q.magnitude.isInf = false
  | color c => ∀ x ∈ c.components, x.isNaN = false ∧ x.isInf = false
  | text _ => False

instance : DecidablePred IsFinite
  | quantity q =>
      inferInstanceAs (Decidable (q.magnitude.isNaN = false ∧ q.magnitude.isInf = false))
  | color c => inferInstanceAs (Decidable (∀ x ∈ c.components, x.isNaN = false ∧ x.isInf = false))
  | text _ => inferInstanceAs (Decidable False)

/-- As `Color.IsTidy`. -/
def IsTidy (v : Value) : Prop := ∀ c, v = .color c → c.IsTidy

theorem isTidy_color {c : Color} (h : c.IsTidy) : (color c).IsTidy := by
  rintro _ ⟨⟩
  exact h

theorem isTidy_ofWord (t : Text) : (ofWord t).IsTidy := fun _ h =>
  Color.isTidy_of_ofHex? (ofHex?_of_ofWord h)

/-- `if` apart, operations and functions come to what reads back. -/
theorem Lone.isTidy {v : Value} (h : v.Lone) : v.IsTidy := by
  cases h with
  | word => exact isTidy_ofWord _
  | number => exact nofun
  | color => exact isTidy_color (Color.isTidy_computed _ _)

theorem Origin.readsBack_iff_isTidy {v : Value} (h : v.Origin) (hfinite : v.IsFinite) :
    v.ReadsBack ↔ v.IsTidy := by
  cases h with
  | text t => exact hfinite.elim
  | word t =>
      have hword : Token.IsWord t := by
        refine isWord_of_ofWord fun u hu => ?_
        rw [hu] at hfinite
        exact hfinite
      exact iff_of_true (readsBack_ofWord hword) (isTidy_ofWord t)
  | call h =>
      rw [Color.readsBack_iff_of_ofCall? h]
      exact ⟨isTidy_color, fun h => h _ rfl⟩
  | number hunit => exact iff_of_true (readsBack_number hfinite.1 hfinite.2 hunit) nofun
  | color => exact iff_of_true (readsBack_computed _ _) (isTidy_color (Color.isTidy_computed _ _))

/-- What is read is of the same shape in any case. -/
theorem Origin.exists_value {v : Value} (h : v.Origin) (hfinite : v.IsFinite) :
    ∃ w, Token.value (Token.ofText v.css) = .ok w ∧ w.shape? = v.shape? := by
  by_cases htidy : v.IsTidy
  · obtain ⟨w, hvalue, hshape, -⟩ := ((h.readsBack_iff_isTidy hfinite).mpr htidy).value
    exact ⟨w, hvalue, hshape⟩
  · simp only [IsTidy, Color.IsTidy, not_forall] at htidy
    obtain ⟨c, rfl, t, hcall, -⟩ := htidy
    have hcss : (Value.color c).css = t := by
      simp [Value.css, Color.text, Color.written_of_ofCall? hcall]
    have hvalue := Color.value_ofText_call hcall
    rw [← hcss] at hvalue
    exact ⟨_, hvalue, rfl⟩

/-- A finite number or color that an operation or a function came to is read again as a value of
the same shape. It is written as it was, except if it is a color that is written as a call and
not as its tokens are. -/
theorem Produced.readsBack_iff {v : Value} (h : v.Produced) (hfinite : v.IsFinite) :
    (∃ w, Token.value (Token.ofText v.css) = .ok w ∧ w.shape? = v.shape?) ∧
      (v.ReadsBack ↔ v.IsTidy) := by
  have horigin := h.evaluated.of_isClosed origin_isClosed
  exact ⟨horigin.exists_value hfinite, horigin.readsBack_iff_isTidy hfinite⟩

/-- The sum of a color with an alpha channel and one without. -/
theorem Produced.readsBack_iff_sum :
    ∃ v, Operator.plus.operate (.ofCall "rgba(10, 20, 30, 0.5)") (.ofWord "#0a0a0a") =
      .ok (some v) ∧ v.css = "rgba(20, 30, 40, 1)" ∧ v.ReadsBack := by
  have hsum : ∃ v ∈ (Operator.plus.operate (.ofCall "rgba(10, 20, 30, 0.5)")
      (.ofWord "#0a0a0a")).toOption.join, v.css = "rgba(20, 30, 40, 1)".toList ∧ v.IsFinite := by
    decide +kernel
  obtain ⟨v, hv, hcss, hfinite⟩ := hsum
  have hoperate := eq_ok_of_toOption (Option.join_eq_some_iff.mp hv)
  have hleft : (ofCall "rgba(10, 20, 30, 0.5)").Evaluated :=
    .call (t := "rgba(10, 20, 30, 0.5)") rfl
  have hreads := Produced.readsBack_iff (.operation hleft (.word _) hoperate) hfinite
  exact ⟨v, hoperate, hcss, hreads.2.mpr (Operator.operate_lone hoperate).isTidy⟩

/-- White space before and behind a function that comes to nothing. -/
theorem not_readsBack_of_choice :
    ∃ v : Value, v.Produced ∧ v.IsFinite ∧
      Scope.evaluate [] [] ⟨"if(1 = 1, rgb( if(1 = 1, , ) 1, 2, 3), 0)", ⟨0, 0, 41⟩⟩ = .ok v.css ∧
      Scope.evaluate [] [] ⟨v.css, ⟨0, 0, 14⟩⟩ = .ok "rgb( 1, 2, 3)" ∧ ¬ v.ReadsBack := by
  have hread : ∃ c ∈ Color.ofCall? "rgb(  1, 2, 3)", (color c).IsFinite := by decide +kernel
  obtain ⟨c, hcall, hfinite⟩ := hread
  have hcss : (color c).css = "rgb(  1, 2, 3)" := by
    simp [css, Color.text, Color.written_of_ofCall? hcall]
  have harguments : ∀ a ∈ [.text "1 = 1", color c, .ofWord "0"], a.Evaluated := by
    simpa using ⟨.text _, .call hcall, .word _⟩
  have hdecide : Comparison.decide "1 = 1" = .ok (some true) :=
    eq_ok_of_toOption (by decide +kernel)
  have hchoice : Builtin.choose.eval [.text "1 = 1", color c, .ofWord "0"] = .ok (color c) := by
    show (Comparison.decide "1 = 1" >>= _) = _
    rw [hdecide]
    rfl
  have hagain : Scope.evaluate [] [] ⟨(color c).css, ⟨0, 0, 14⟩⟩ = .ok "rgb( 1, 2, 3)" := by
    rw [hcss]
    exact eq_ok_of_toOption (by decide +kernel)
  refine ⟨color c, .function harguments hchoice, hfinite, ?_, hagain, fun h => ?_⟩
  · rw [hcss]
    exact eq_ok_of_toOption (by decide +kernel)
  · have hsame := (h.evaluate [] (fun _ => rfl) [] ⟨0, 0, 14⟩).symm.trans hagain
    rw [hcss] at hsame
    exact absurd (Except.ok.inj hsame) (by decide)

end Value

end Cascade
