import Cascade.Proofs.NormalForm
import Cascade.Proofs.Resolution

/-!
# Values that are passed through

A value with nothing to compute in it (`Token.ArePlain`) is written as it was read. A group
keeps its parentheses if its contents come out as they were, and for that the two texts are
compared, of which only one is trimmed. So a group that ends with a comma and white space loses
its parentheses; and a comma that stands alone is lost, in a group or not.

These are all the losses (`Token.Passes`). To see that a loss is never made up for elsewhere,
the characters that are not blank are counted: a group that loses its parentheses comes out
with fewer of them than it has (`Token.Comes`).
-/

namespace Cascade

/-- Nothing is dropped where neither end is to be dropped. -/
theorem dropWhile_both {α : Type} {p : α → Bool} {l : List α} (hfirst : ∀ a ∈ l.head?, p a = false)
    (hlast : ∀ a ∈ l.getLast?, p a = false) :
    ((l.dropWhile p).reverse.dropWhile p).reverse = l := by
  have hdrop {l : List α} (h : ∀ a ∈ l.head?, p a = false) : l.dropWhile p = l := by
    cases l with
    | nil => rfl
    | cons a l => exact List.dropWhile_cons_of_neg (by simp [h a rfl])
  rw [hdrop hfirst, hdrop (by rwa [List.head?_reverse]), List.reverse_reverse]

namespace Text

/-! ## Counting what is not blank -/

/-- The number of characters that are not blank. -/
def weight (t : Text) : Nat := t.countP (!isBlank ·)

variable {t u : Text}

@[simp] theorem weight_append (t u : Text) : weight (t ++ u) = weight t + weight u :=
  List.countP_append

theorem weight_eq_zero (h : ∀ c ∈ t, isBlank c = true) : weight t = 0 :=
  List.countP_eq_zero.mpr fun c hc => by simp [h c hc]

theorem weight_strippedFrom (q : Quoting) (t : Text) : weight (strippedFrom q t) = weight t := by
  induction t generalizing q with
  | nil => rfl
  | cons c t ih =>
      rw [strippedFrom]
      split
      · rename_i hblank
        rw [ih, weight, weight, List.countP_cons_of_neg (by simp [hblank.2])]
      · rw [weight, weight, List.countP_cons, List.countP_cons]
        exact congrArg (· + _) (ih _)

theorem weight_stripped (t : Text) : weight (stripped t) = weight t := weight_strippedFrom _ t

theorem weight_trim (t : Text) : weight (trim t) = weight t := by
  obtain ⟨blanks, htext, hblanks⟩ := exists_trimEnd (trimStart t)
  have hsplit : t.takeWhile isBlank ++ trimStart t = t := List.takeWhile_append_dropWhile
  have hstart : weight (t.takeWhile isBlank) = 0 :=
    weight_eq_zero fun c hc => List.mem_takeWhile_imp hc
  have hsum := congrArg weight hsplit
  rw [weight_append, hstart, Nat.zero_add, htext, weight_append, weight_eq_zero hblanks] at hsum
  exact hsum

/-- A text is trimmed already if no white space is at its ends. -/
theorem trim_eq_self_iff (h : Starts t) :
    trim t = t ↔ ∀ c ∈ t.getLast?, isBlank c = false := by
  refine ⟨fun htrim => ?_, dropWhile_both h⟩
  rw [← htrim, trim, trimEnd, List.getLast?_reverse]
  exact starts_dropWhile _

end Text

namespace Token

/-! ## Nothing to compute -/

mutual

/-- The token has no variable, no operator and no call of a known function in it. -/
def IsPlain : Token → Prop
  | space | comma _ | word _ => True
  | operator _ | reference _ => False
  | call name arguments => Builtin.ofName? name = none ∧ ArePlain arguments
  | group inside => ArePlain inside

def ArePlain : List Token → Prop
  | [] => True
  | token :: rest => IsPlain token ∧ ArePlain rest

end

/-- A comma and nothing else. -/
def IsLoneComma (tokens : List Token) : Prop := ∃ spaced, tokens = [comma spaced]

/-- White space stands at the end, behind a comma. -/
def EndsSpaced (tokens : List Token) : Prop := tokens.getLast? = some (comma true)

mutual

/-- A group keeps its parentheses, and so do those in it. Calls keep theirs whatever is in
them. -/
def IsKept : Token → Prop
  | group inside => AreKept inside ∧ ¬ IsLoneComma inside ∧ ¬ EndsSpaced inside
  | space | comma _ | operator _ | word _ | reference _ | call _ _ => True

def AreKept : List Token → Prop
  | [] => True
  | token :: rest => IsKept token ∧ AreKept rest

end

/-- Nothing is lost of a value. -/
def Passes (tokens : List Token) : Prop := AreKept tokens ∧ ¬ IsLoneComma tokens

/-! ## Tokens as they are read -/

/-- Text that begins and ends without white space. -/
def IsSolid (t : Text) : Prop := t ≠ [] ∧ Starts t ∧ ∀ c ∈ t.getLast?, isBlank c = false

/-- A term is next. -/
def TermNext : List Token → Prop
  | word _ :: _ | reference _ :: _ | call _ _ :: _ | group _ :: _ => True
  | [] | space :: _ | comma _ :: _ | operator _ :: _ => False

namespace TermNext

variable {tokens : List Token}

theorem head?_ne_space (h : TermNext tokens) : tokens.head? ≠ some space := by
  intro hspace
  obtain ⟨rest, rfl⟩ := List.head?_eq_some_iff.mp hspace
  exact h

theorem not_lone (h : TermNext tokens) : ¬ IsLoneComma tokens := by
  rintro ⟨spaced, rfl⟩
  exact h

theorem ne_nil (h : TermNext tokens) : tokens ≠ [] := by
  rintro rfl
  exact h

end TermNext

mutual

/-- Words and names have no white space around them. -/
def IsTidy : Token → Prop
  | word t => IsSolid t
  | call name arguments => IsSolid name ∧ AreTidy arguments
  | group inside => AreTidy inside
  | space | comma _ | operator _ | reference _ => True

/-- White space stands in front of terms only. -/
def AreTidy : List Token → Prop
  | [] => True
  | token :: rest => IsTidy token ∧ (token = space → TermNext rest) ∧ AreTidy rest

end

theorem isSolid_of_forall {t : Text} (hne : t ≠ []) (h : ∀ c ∈ t, isBlank c = false) :
    IsSolid t :=
  ⟨hne, fun c hc => h c (List.mem_of_head? hc), fun c hc => h c (List.mem_of_getLast? hc)⟩

theorem BeginsWord.isSolid {nested first : Bool} {c : Char} {w t : Text}
    (hbegins : BeginsWord nested first c (w ++ t)) (hword : wordRest (w ++ t) = (w, t)) :
    IsSolid (c :: w) :=
  isSolid_of_forall (List.cons_ne_nil c w) (List.forall_mem_cons.mpr
    ⟨hbegins.solid, fun b hb => (wordRest_chars hword b hb).1⟩)

theorem Chunk.isTidy {nested first : Bool} {passed t : Text} {token : Token}
    (h : Chunk nested first passed token t) (hclosed : Quoting.run .outside passed = .outside) :
    IsTidy token := by
  cases h with
  | space | operator | leading | comma | reference => trivial
  | @string mark _ _ hmark hcloses =>
      have hblank := not_isBlank_of_isQuote hmark
      refine ⟨List.cons_ne_nil _ _, ?_, ?_⟩
      · rintro _ ⟨⟩
        exact hblank
      · obtain ⟨before, c, hends, hc⟩ := (ends_of_closes hblank hcloses).append [mark]
        rw [← List.singleton_append, hends, List.getLast?_concat]
        rintro _ ⟨⟩
        exact hc
  | openString hmark _ hopen =>
      rw [Quoting.run_cons, Quoting.step, hmark] at hclosed
      exact (hopen hclosed).elim
  | word hbegins hword => exact hbegins.isSolid hword

namespace Lexes

variable {nested first : Bool} {t rest : Text} {tokens : List Token} {n : Nat}

theorem termNext (h : Lexes nested first t tokens rest n) (hfirst : first = false)
    (hbegins : Begins t) : TermNext tokens := by
  cases h with
  | done => exact hbegins.elim
  | close => exact hbegins.2.2 rfl
  | silent hblanks =>
      obtain ⟨c, blanks, rfl, hc, -⟩ := hblanks.exists_cons
      cases hc.symm.trans hbegins.1
  | group | call => trivial
  | chunk hchunk =>
      cases hchunk with
      | space hblanks | operator hblanks =>
          obtain ⟨c, blanks, rfl, hc, -⟩ := hblanks.exists_cons
          cases hc.symm.trans hbegins.1
      | leading hleading => cases hleading.symm.trans hfirst
      | comma => exact hbegins.2.1 rfl
      | reference | string | openString | word => trivial

theorem areTidy (h : Lexes nested first t tokens rest n)
    (hclosed : Quoting.run .outside t = .outside) : AreTidy tokens := by
  induction h with
  | done | close => trivial
  | silent hblanks _ _ _ ih =>
      rw [hblanks.run_append] at hclosed
      exact ih hclosed
  | chunk hchunk hrest ih =>
      refine ⟨hchunk.isTidy (hchunk.closed hclosed), fun hspace => ?_,
        ih (hchunk.closed_rest hclosed)⟩
      subst hspace
      cases hchunk with
      | space _ hbegins => exact hrest.termNext rfl hbegins
  | group hinside _ ih ih' =>
      exact ⟨ih hclosed, nofun, ih' (hinside.closed hclosed)⟩
  | call hbegins hword hinside _ ih ih' =>
      rw [Quoting.run_append, hbegins.run_name hword] at hclosed
      exact ⟨⟨hbegins.isSolid hword, ih hclosed⟩, nofun, ih' (hinside.closed hclosed)⟩

end Lexes

/-! ## Terms without operators -/

end Token

namespace Piece

variable {α : Type}

/-- A piece as an item of a list, where there are no operators. -/
def item : Piece α → Item α
  | separator s => .separator s
  | operator _ => .expression .missing
  | term a => .expression (.term a)

end Piece

namespace Expression

variable {α : Type} {pieces : List (Piece α)}

/-- Without operators each term is an expression of its own. -/
theorem items_eq_map (h : ∀ o, .operator o ∉ pieces) : items pieces = pieces.map Piece.item := by
  induction pieces with
  | nil => rw [items]; rfl
  | cons piece rest ih =>
      have hrest : ∀ o, .operator o ∉ rest := fun o ho => h o (List.mem_cons_of_mem _ ho)
      cases piece with
      | operator o => exact (h o (List.mem_cons_self ..)).elim
      | separator s =>
          rw [items, ih hrest]
          rfl
      | term a =>
          have hchain : chain rest = ([], rest) := by
            unfold chain
            split
            · exact (hrest _ (List.mem_cons_self ..)).elim
            · exact (hrest _ (List.mem_cons_self ..)).elim
            · rfl
          rw [items, hchain, ih hrest]
          rfl

theorem trimSpaces_eq_self (hfirst : ∀ piece ∈ pieces.head?, piece ≠ .separator .space)
    (hlast : ∀ piece ∈ pieces.getLast?, piece ≠ .separator .space) :
    trimSpaces pieces = pieces := by
  refine dropWhile_both (fun piece hpiece => ?_) fun piece hpiece => ?_
  · split
    · exact (hfirst _ hpiece rfl).elim
    · rfl
  · split
    · exact (hlast _ hpiece rfl).elim
    · rfl

end Expression

namespace Piece

/-- A piece as it is shown in a list, where there are no operators. -/
def shown (piece : Piece Computed) : Except Cause Text := piece.item.css

def shownAll (pieces : List (Piece Computed)) : Except Cause Text :=
  (pieces.mapM shown).map List.flatten

theorem shownAll_cons (piece : Piece Computed) (pieces : List (Piece Computed)) :
    shownAll (piece :: pieces) = do
      let t ← piece.shown
      let u ← shownAll pieces
      return t ++ u := by
  rw [shownAll, List.mapM_cons, shownAll]
  cases piece.shown with
  | error => rfl
  | ok t => cases pieces.mapM shown <;> rfl

/-- A separator alone separates nothing. -/
theorem valueOf_comma (spaced : Bool) :
    valueOf [.separator (.comma spaced)] = .ok (.text []) := by
  have hnone (o : Operator) : (.operator o : Piece Computed) ∉ [.separator (.comma spaced)] := by
    simp
  rw [valueOf, Expression.ofPieces, Expression.trimSpaces_eq_self (by simp) (by simp),
    Expression.items_eq_map hnone]
  rfl

/-- Without operators the text of a list is that of its pieces, one after the other. -/
theorem css_valueOf {pieces : List (Piece Computed)} (h : ∀ o, .operator o ∉ pieces)
    (hfirst : ∀ piece ∈ pieces.head?, piece ≠ .separator .space)
    (hlast : ∀ piece ∈ pieces.getLast?, piece ≠ .separator .space)
    (hne : ∀ s, pieces ≠ [.separator s]) :
    (valueOf pieces).map Value.css = shownAll pieces := by
  rw [shownAll, valueOf, Expression.ofPieces, Expression.trimSpaces_eq_self hfirst hlast,
    Expression.items_eq_map h]
  cases pieces with
  | nil => rfl
  | cons piece rest =>
    cases rest with
    | nil =>
      cases piece with
      | separator s => exact (hne s rfl).elim
      | operator o => exact (h o (List.mem_cons_self ..)).elim
      | term a =>
          have hshown : [term a].mapM shown = (a.value.map Value.css).map fun t => [t] := by
            rw [List.mapM_cons]
            show (do let t ← a.value.map Value.css; pure [t]) = _
            cases a.value.map Value.css <;> rfl
          rw [hshown]
          show a.value.map Value.css = _
          cases a.value with
          | error => rfl
          | ok v => exact congrArg Except.ok (List.append_nil v.css).symm
    | cons next rest =>
      have hmap : ((piece :: next :: rest).map item).mapM Item.css =
          (piece :: next :: rest).mapM shown := List.mapM_map ..
      rw [← hmap]
      split
      · rename_i hnil
        cases hnil
      · rename_i hsingle
        cases (List.cons.inj hsingle).2
      · rename_i hsingle
        cases (List.cons.inj hsingle).2
      · rw [Expression.value]
        cases ((piece :: next :: rest).map item).mapM Item.css <;> rfl

end Piece

namespace Token

/-! ## What plain tokens come to -/

/-- A text comes out as it was if the condition holds, and with a loss otherwise. -/
def Comes (p : Prop) (t u : Text) : Prop := (p → t = u) ∧ (¬ p → t.weight < u.weight)

/-- White space in front is not part of a value. -/
def dropSpace : List Token → List Token
  | space :: rest => rest
  | tokens => tokens

theorem dropSpace_cases (tokens : List Token) :
    (∃ rest, tokens = space :: rest ∧ dropSpace tokens = rest) ∨
      tokens.head? ≠ some space ∧ dropSpace tokens = tokens := by
  unfold dropSpace
  split
  · exact .inl ⟨_, rfl, rfl⟩
  · rename_i hne
    refine .inr ⟨fun hspace => ?_, rfl⟩
    obtain ⟨rest, rfl⟩ := List.head?_eq_some_iff.mp hspace
    exact hne rest rfl

namespace Comes

variable {p q : Prop} {t t' u u' : Text}

theorem rfl (t : Text) (hp : p) : Comes p t t := ⟨fun _ => Eq.refl t, fun hnot => (hnot hp).elim⟩

theorem le (h : Comes p t u) : t.weight ≤ u.weight := by
  by_cases hp : p
  · exact Nat.le_of_eq (congrArg Text.weight (h.1 hp))
  · exact Nat.le_of_lt (h.2 hp)

theorem congr (h : Comes p t u) (hpq : p ↔ q) : Comes q t u :=
  ⟨fun hq => h.1 (hpq.mpr hq), fun hq => h.2 (hpq.not.mpr hq)⟩

theorem of_space (h : Comes p (' ' :: t) (' ' :: u)) : Comes p t u := by
  refine ⟨fun hp => (List.cons.inj (h.1 hp)).2, fun hnot => ?_⟩
  have hlt := h.2 hnot
  rwa [← List.singleton_append, ← List.singleton_append (l := u), Text.weight_append,
    Text.weight_append, Nat.add_lt_add_iff_left] at hlt

/-- A loss on one side is not made up for on the other. -/
theorem append (h : Comes p t u) (h' : Comes q t' u') : Comes (p ∧ q) (t ++ t') (u ++ u') := by
  refine ⟨fun ⟨hp, hq⟩ => by rw [h.1 hp, h'.1 hq], fun hnot => ?_⟩
  have hle := h.le
  have hle' := h'.le
  rw [Text.weight_append, Text.weight_append]
  by_cases hp : p
  · have hlt := h'.2 fun hq => hnot ⟨hp, hq⟩
    omega
  · have hlt := h.2 hp
    omega

end Comes

theorem computeAll_eq_map (tokens : List Token) : computeAll tokens = tokens.map compute := by
  induction tokens with
  | nil => rfl
  | cons token rest ih => rw [computeAll, ih, List.map_cons]

theorem ArePlain.of_mem {tokens : List Token} (h : ArePlain tokens) :
    ∀ token ∈ tokens, IsPlain token := by
  induction tokens with
  | nil => exact nofun
  | cons token rest ih => exact List.forall_mem_cons.mpr ⟨h.1, ih h.2⟩

namespace AreTidy

variable {tokens : List Token}

theorem of_mem (h : AreTidy tokens) : ∀ token ∈ tokens, IsTidy token := by
  induction tokens with
  | nil => exact nofun
  | cons token rest ih => exact List.forall_mem_cons.mpr ⟨h.1, ih h.2.2⟩

/-- White space is not the last of the tokens. -/
theorem getLast?_ne_space (h : AreTidy tokens) : tokens.getLast? ≠ some space := by
  induction tokens with
  | nil => exact nofun
  | cons token rest ih =>
      cases rest with
      | nil =>
          intro hlast
          exact h.2.1 (Option.some.inj hlast)
      | cons next rest =>
          rw [List.getLast?_cons_cons]
          exact ih h.2.2

end AreTidy

theorem compute_ne_operator {token : Token} (h : IsPlain token) (o : Operator) :
    token.compute ≠ .operator o := by
  cases token with
  | operator => exact h.elim
  | space | comma | word | reference | call | group => exact nofun

theorem eq_of_compute {token : Token} {s : Separator} (h : token.compute = .separator s) :
    token = s.token := by
  cases token with
  | space | comma =>
      cases h
      rfl
  | operator | word | reference | call | group => cases h

theorem eq_some_of_compute {token? : Option Token} {s : Separator}
    (h : token?.map compute = some (.separator s)) : token? = some s.token := by
  obtain ⟨token, rfl, hcompute⟩ := Option.map_eq_some_iff.mp h
  rw [eq_of_compute hcompute]

/-- The value of tokens that no white space is in front of. -/
theorem value_comes_of_head {tokens : List Token} (hplain : ArePlain tokens)
    (htidy : AreTidy tokens) (hfirst : tokens.head? ≠ some space) {t : Text}
    (hshown : Piece.shownAll (computeAll tokens) = .ok t)
    (hcomes : Comes (AreKept tokens) t (textOf tokens)) :
    ∃ v, value tokens = .ok v ∧ Comes (Passes tokens) v.css (textOf tokens) := by
  by_cases hlone : IsLoneComma tokens
  · obtain ⟨spaced, rfl⟩ := hlone
    refine ⟨_, Piece.valueOf_comma spaced, fun hpasses => (hpasses.2 ⟨spaced, rfl⟩).elim, ?_⟩
    intro _
    cases spaced <;> decide
  · rw [computeAll_eq_map] at hshown
    have hoperator : ∀ o, .operator o ∉ tokens.map compute := fun o ho => by
      obtain ⟨token, htoken, hcompute⟩ := List.mem_map.mp ho
      exact compute_ne_operator (hplain.of_mem token htoken) o hcompute
    have hhead : ∀ piece ∈ (tokens.map compute).head?, piece ≠ .separator .space := by
      rintro _ hpiece rfl
      rw [List.head?_map] at hpiece
      exact hfirst (eq_some_of_compute hpiece)
    have hlast : ∀ piece ∈ (tokens.map compute).getLast?, piece ≠ .separator .space := by
      rintro _ hpiece rfl
      rw [List.getLast?_map] at hpiece
      exact htidy.getLast?_ne_space (eq_some_of_compute hpiece)
    have hne : ∀ s, tokens.map compute ≠ [.separator s] := by
      intro s hsingle
      obtain ⟨token, rfl, hcompute⟩ := List.map_eq_singleton_iff.mp hsingle
      obtain rfl := eq_of_compute hcompute
      cases s with
      | space => exact hfirst rfl
      | comma spaced => exact hlone ⟨spaced, rfl⟩
    have hcss := Piece.css_valueOf hoperator hhead hlast hne
    rw [hshown, ← computeAll_eq_map] at hcss
    obtain ⟨v, hv, rfl⟩ := map_eq_ok hcss
    exact ⟨v, hv, fun hpasses => hcomes.1 hpasses.1,
      fun hnot => hcomes.2 fun hkept => hnot ⟨hkept, hlone⟩⟩

theorem value_comes {tokens : List Token} (hplain : ArePlain tokens) (htidy : AreTidy tokens)
    {t : Text} (hshown : Piece.shownAll (computeAll tokens) = .ok t)
    (hcomes : Comes (AreKept tokens) t (textOf tokens)) :
    ∃ v, value tokens = .ok v ∧ Comes (Passes tokens) v.css (textOf (dropSpace tokens)) := by
  rcases dropSpace_cases tokens with ⟨rest, rfl, -⟩ | ⟨hspace, hdrop⟩
  · obtain ⟨-, hnext, htidy⟩ := htidy
    rw [computeAll, Piece.shownAll_cons] at hshown
    obtain ⟨first, hfirst, hshown⟩ := bind_eq_ok hshown
    obtain rfl : [' '] = first := Except.ok.inj hfirst
    obtain ⟨t, hrest, hshown⟩ := bind_eq_ok hshown
    obtain rfl : ' ' :: t = _ := Except.ok.inj hshown
    have hvalue : value (space :: rest) = value rest :=
      congrArg Expression.value (Expression.ofPieces_space (computeAll rest))
    have hkept : AreKept (space :: rest) ↔ AreKept rest := and_iff_right trivial
    obtain ⟨v, hv, h⟩ := value_comes_of_head hplain.2 htidy (hnext rfl).head?_ne_space hrest
      (hcomes.congr hkept).of_space
    have hlone : ¬ IsLoneComma rest ↔ ¬ IsLoneComma (space :: rest) :=
      iff_of_true (hnext rfl).not_lone (by simp [IsLoneComma])
    exact ⟨v, hvalue.trans hv, h.congr (and_congr hkept.symm hlone)⟩
  · rw [hdrop]
    exact value_comes_of_head hplain htidy hspace hshown hcomes

/-! ## Groups -/

theorem isSolid_parentheses {name : Text} (h : Starts name) (u : Text) :
    IsSolid (name ++ '(' :: u ++ [')']) := by
  refine ⟨by simp, ?_, ?_⟩
  · cases name with
    | nil =>
        rintro _ ⟨⟩
        rfl
    | cons c name => exact h
  · rw [List.getLast?_concat]
    rintro _ ⟨⟩
    rfl

theorem text_isSolid {token : Token} (hplain : IsPlain token) (htidy : IsTidy token)
    (hspace : token ≠ space) (hcomma : token ≠ comma true) : IsSolid token.text := by
  cases token with
  | space => exact (hspace rfl).elim
  | comma spaced =>
      cases spaced with
      | true => exact (hcomma rfl).elim
      | false => exact isSolid_of_forall (List.cons_ne_nil _ _) (List.forall_mem_singleton.mpr rfl)
  | operator | reference => exact hplain.elim
  | word t => exact htidy
  | call name arguments => exact isSolid_parentheses htidy.1.2.1 _
  | group inside => exact isSolid_parentheses (show Starts [] from nofun) _

section Ends

variable {tokens : List Token}

theorem starts_textOf (hplain : ArePlain tokens) (htidy : AreTidy tokens)
    (hhead : tokens.head? ≠ some space) : Starts (textOf tokens) := by
  cases tokens with
  | nil => exact nofun
  | cons token rest =>
      have hspace : token ≠ space := fun hspace => hhead (congrArg some hspace)
      by_cases hcomma : token = comma true
      · subst hcomma
        rintro _ ⟨⟩
        rfl
      · obtain ⟨hne, hstarts, -⟩ := text_isSolid hplain.1 htidy.1 hspace hcomma
        rw [textOf]
        intro c hc
        rw [List.head?_append_of_ne_nil _ hne] at hc
        exact hstarts c hc

/-- Only a comma leaves white space at the end. -/
theorem ends_textOf_iff (hplain : ArePlain tokens) (htidy : AreTidy tokens) :
    (∀ c ∈ (textOf tokens).getLast?, isBlank c = false) ↔ ¬ EndsSpaced tokens := by
  rcases List.eq_nil_or_concat tokens with rfl | ⟨before, token, rfl⟩
  · exact iff_of_true nofun nofun
  · rw [List.concat_eq_append] at hplain htidy ⊢
    have hspace := htidy.getLast?_ne_space
    have hmem : token ∈ before ++ [token] := List.mem_append_right _ (.head _)
    rw [List.getLast?_concat] at hspace
    rw [EndsSpaced, List.getLast?_concat, textOf_append, textOf, textOf, List.append_nil]
    by_cases hcomma : token = comma true
    · subst hcomma
      rw [List.getLast?_append_of_ne_nil _ (by decide)]
      refine iff_of_false (fun h => ?_) (not_not.mpr rfl)
      cases h ' ' rfl
    · obtain ⟨hne, -, hends⟩ := text_isSolid (hplain.of_mem token hmem) (htidy.of_mem token hmem)
        (fun h => hspace (congrArg some h)) hcomma
      rw [List.getLast?_append_of_ne_nil _ hne]
      exact iff_of_true hends fun h => hcomma (Option.some.inj h)

theorem trim_textOf (hplain : ArePlain tokens) (htidy : AreTidy tokens) :
    Text.trim (textOf tokens) = textOf (dropSpace tokens) ↔ ¬ EndsSpaced tokens := by
  rcases dropSpace_cases tokens with ⟨rest, rfl, hdrop⟩ | ⟨hspace, hdrop⟩
  · obtain ⟨-, hnext, htidy⟩ := htidy
    have hstarts := starts_textOf hplain.2 htidy (hnext rfl).head?_ne_space
    have htrim : Text.trim (textOf (space :: rest)) = Text.trim (textOf rest) := rfl
    have hends : EndsSpaced (space :: rest) ↔ EndsSpaced rest := by
      obtain ⟨next, others, rfl⟩ := List.exists_cons_of_ne_nil (hnext rfl).ne_nil
      rw [EndsSpaced, List.getLast?_cons_cons, EndsSpaced]
    rw [hdrop, htrim, Text.trim_eq_self_iff hstarts, ends_textOf_iff hplain.2 htidy, hends]
  · rw [hdrop, Text.trim_eq_self_iff (starts_textOf hplain htidy hspace),
      ends_textOf_iff hplain htidy]

/-- White space in front is trimmed. -/
theorem trimStart_textOf (hplain : ArePlain tokens) (htidy : AreTidy tokens) :
    Text.trimStart (textOf tokens) = textOf (dropSpace tokens) := by
  rcases dropSpace_cases tokens with ⟨rest, rfl, hdrop⟩ | ⟨hspace, hdrop⟩
  · obtain ⟨-, hnext, htidy⟩ := htidy
    rw [hdrop]
    exact (starts_textOf hplain.2 htidy (hnext rfl).head?_ne_space).dropWhile
  · rw [hdrop]
    exact (starts_textOf hplain htidy hspace).dropWhile

theorem stripped_textOf_dropSpace (tokens : List Token) :
    (textOf (dropSpace tokens)).stripped = (textOf tokens).stripped := by
  rcases dropSpace_cases tokens with ⟨rest, rfl, hdrop⟩ | ⟨-, hdrop⟩
  · rw [hdrop]
    rfl
  · rw [hdrop]

theorem weight_textOf_dropSpace (tokens : List Token) :
    (textOf (dropSpace tokens)).weight = (textOf tokens).weight := by
  rw [← Text.weight_stripped, stripped_textOf_dropSpace, Text.weight_stripped]

end Ends

/-- Parentheses stay around what comes out as it was, but for white space at its ends. -/
theorem group_comes {inside : List Token} (hplain : ArePlain inside) (htidy : AreTidy inside)
    (hverbatim : Piece.verbatims (computeAll inside) = .ok (textOf inside)) {v : Value}
    (hv : value inside = .ok v) (hcomes : Comes (Passes inside) v.css (textOf (dropSpace inside))) :
    ∃ v', Piece.group (computeAll inside) = .ok v' ∧
      Comes (IsKept (.group inside)) v'.css (text (.group inside)) := by
  have hgroup : Piece.group (computeAll inside) = .ok
      (if v.css = Text.trim (textOf inside) then .text ('(' :: textOf inside ++ [')']) else v) := by
    rw [Piece.group, show Piece.valueOf (computeAll inside) = .ok v from hv, hverbatim]
    rfl
  have hweight := weight_textOf_dropSpace inside
  have hkept : IsKept (.group inside) ↔ v.css = Text.trim (textOf inside) := by
    have hiff : IsKept (.group inside) ↔ Passes inside ∧ ¬ EndsSpaced inside := and_assoc.symm
    rw [hiff]
    by_cases hpasses : Passes inside
    · rw [and_iff_right hpasses, ← trim_textOf hplain htidy, hcomes.1 hpasses, eq_comm]
    · refine iff_of_false (fun h => hpasses h.1) fun heq => ?_
      have hlt := hcomes.2 hpasses
      rw [heq, Text.weight_trim] at hlt
      omega
  refine ⟨_, hgroup, fun hkept' => ?_, fun hnot => ?_⟩
  · rw [if_pos (hkept.mp hkept')]
    rfl
  · have hle := hcomes.le
    have htext : (text (.group inside)).weight = 1 + (textOf inside).weight + 1 := by
      rw [text, ← List.singleton_append, Text.weight_append, Text.weight_append]
      rfl
    rw [if_neg (hkept.not.mp hnot)]
    omega

mutual

theorem comes : ∀ {token : Token}, IsPlain token → IsTidy token →
    token.compute.verbatim = .ok token.text ∧
      ∃ t, token.compute.shown = .ok t ∧ Comes (IsKept token) t token.text
  | .space, _, _ => ⟨rfl, _, rfl, .rfl _ trivial⟩
  | .comma spaced, _, _ => by
      cases spaced <;> exact ⟨rfl, _, rfl, .rfl _ trivial⟩
  | .word t, _, _ => ⟨rfl, _, congrArg Except.ok (Value.css_ofWord t), .rfl _ trivial⟩
  | .call name arguments, ⟨hname, hplain⟩, ⟨_, htidy⟩ => by
      obtain ⟨hverbatim, -⟩ := comesAll hplain htidy
      rw [compute_call hname hverbatim, Value.css_ofCall]
      exact ⟨rfl, _, congrArg Except.ok (Value.css_ofCall _), .rfl _ trivial⟩
  | .group inside, hplain, htidy => by
      obtain ⟨hverbatim, t, hshown, hcomes⟩ := comesAll hplain htidy
      obtain ⟨v, hv, hvalue⟩ := value_comes hplain htidy hshown hcomes
      obtain ⟨v', hgroup, hcomes'⟩ := group_comes hplain htidy hverbatim hv hvalue
      refine ⟨?_, v'.css, congrArg (Except.map Value.css) hgroup, hcomes'⟩
      exact congrArg (Except.map fun t => '(' :: t ++ [')']) hverbatim

theorem comesAll : ∀ {tokens : List Token}, ArePlain tokens → AreTidy tokens →
    Piece.verbatims (computeAll tokens) = .ok (textOf tokens) ∧
      ∃ t, Piece.shownAll (computeAll tokens) = .ok t ∧ Comes (AreKept tokens) t (textOf tokens)
  | [], _, _ => ⟨rfl, _, rfl, .rfl _ trivial⟩
  | token :: rest, ⟨hplain, hplain'⟩, ⟨htidy, _, htidy'⟩ => by
      obtain ⟨hverbatim, t, hshown, hcomes⟩ := comes hplain htidy
      obtain ⟨hverbatim', t', hshown', hcomes'⟩ := comesAll hplain' htidy'
      refine ⟨verbatims_of_cons hverbatim hverbatim', t ++ t', ?_, hcomes.append hcomes'⟩
      rw [computeAll, Piece.shownAll_cons, hshown, hshown']
      rfl

end

/-! ## Evaluating -/

mutual

theorem substitute_plain (replacement : Text → Except Fault (List Token)) :
    ∀ {token : Token}, IsPlain token → token.substitute replacement = .ok [token]
  | .space, _ | .comma _, _ | .word _, _ => rfl
  | .call name arguments, ⟨_, h⟩ => by
      rw [substitute, substituteAll_plain replacement h]
      rfl
  | .group inside, h => by
      rw [substitute, substituteAll_plain replacement h]
      rfl

theorem substituteAll_plain (replacement : Text → Except Fault (List Token)) :
    ∀ {tokens : List Token}, ArePlain tokens → substituteAll replacement tokens = .ok tokens
  | [], _ => rfl
  | token :: rest, ⟨h, h'⟩ => by
      rw [substituteAll, substitute_plain replacement h, substituteAll_plain replacement h']
      rfl

end

end Token

/-- A value that has nothing to compute in it and whose parentheses and strings are closed comes
to a text in every scope. It is the value but for white space outside strings exactly if no
comma stands alone and no group ends with a comma and white space, calls apart; and then it is
what is written for the tokens of the value, without white space in front. -/
theorem Scope.evaluate_plain (s : Scope) (idle : List DefinitionKey) {raw : Raw}
    (hclosed : Nesting.top.run raw.text = .top) (hplain : Token.ArePlain (Token.ofText raw.text)) :
    ∃ t, s.evaluate idle raw = .ok t ∧
      (t.stripped = raw.text.stripped ↔ Token.Passes (Token.ofText raw.text)) ∧
      (Token.Passes (Token.ofText raw.text) →
        t = Text.trimStart (Token.textOf (Token.ofText raw.text))) := by
  have hquoting : Quoting.run .outside raw.text = .outside :=
    (Nesting.quoting_run .top raw.text).symm.trans (congrArg Nesting.quoting hclosed)
  have hstripped : (Token.textOf (Token.ofText raw.text)).stripped = raw.text.stripped := by
    rw [Token.stripped_textOf hquoting, hclosed]
    exact List.append_nil _
  obtain ⟨n, -, hlexes⟩ := Token.exists_lexes_ofText raw.text
  have htidy := hlexes.areTidy hquoting
  obtain ⟨-, t, hshown, hcomes⟩ := Token.comesAll hplain htidy
  obtain ⟨v, hv, hvalue⟩ := Token.value_comes hplain htidy hshown hcomes
  have hevaluate : s.evaluate idle raw = .ok v.css := by
    rw [evaluate_eq, Token.substituteAll_plain _ hplain]
    show (blame raw.span (Token.value (Token.ofText raw.text))).bind (fun v => .ok v.css) = _
    rw [hv]
    rfl
  refine ⟨_, hevaluate, ⟨fun heq => ?_, fun hpasses => ?_⟩, fun hpasses => ?_⟩
  · by_contra hnot
    have hlt := hvalue.2 hnot
    have hweight := congrArg Text.weight (heq.trans hstripped.symm)
    rw [Text.weight_stripped, Text.weight_stripped] at hweight
    rw [Token.weight_textOf_dropSpace] at hlt
    omega
  · rw [hvalue.1 hpasses, Token.stripped_textOf_dropSpace, hstripped]
  · rw [hvalue.1 hpasses, Token.trimStart_textOf hplain htidy]

/-- A list with a group, in which a string has white space of its own. -/
theorem Scope.evaluate_plain_list :
    let raw : Raw := ⟨"auto, (none 'x  y')", ⟨0, 0, 19⟩⟩
    Nesting.top.run raw.text = .top ∧ Token.ArePlain (Token.ofText raw.text) ∧
      Token.Passes (Token.ofText raw.text) ∧ evaluate [] [] raw = .ok "auto, (none 'x  y')" := by
  intro raw
  have hauto : Token.IsWord "auto" := .of_all (by decide) (by decide)
  have hnone : Token.IsWord "none" := .of_all (by decide) (by decide)
  have hstring : Token.IsWord ('\'' :: "x  y'") := .string (.inr rfl) (by decide)
  have hspace : Token.space.IsJoint := trivial
  have hcomma : (Token.comma true).IsJoint := trivial
  have htokens : Token.ofText raw.text = [.word "auto", .comma true,
      .group [.word "none", .space, .word "'x  y'"]] :=
    ((Token.Reads.word hauto).join hcomma
      (.group (.run ((Token.Reads.word hnone).join hspace (.word hstring))))).ofText_eq
  have hclosed : Nesting.top.run raw.text = .top := by decide
  have hplain : Token.ArePlain (Token.ofText raw.text) := by
    rw [htokens]
    exact ⟨trivial, trivial, ⟨trivial, trivial, trivial, trivial⟩, trivial⟩
  have hpasses : Token.Passes (Token.ofText raw.text) := by
    rw [htokens]
    exact ⟨⟨trivial, trivial, ⟨⟨trivial, trivial, trivial, trivial⟩, nofun, nofun⟩, trivial⟩, nofun⟩
  obtain ⟨t, hevaluate, -, htext⟩ := evaluate_plain [] [] hclosed hplain
  refine ⟨hclosed, hplain, hpasses, ?_⟩
  rw [hevaluate, htext hpasses, htokens]
  rfl

/-- A group that ends with a comma and white space loses its parentheses. -/
theorem Scope.not_evaluate_plain :
    let raw : Raw := ⟨"(x, )", ⟨0, 0, 5⟩⟩
    Nesting.top.run raw.text = .top ∧ Token.ArePlain (Token.ofText raw.text) ∧
      evaluate [] [] raw = .ok "x, " ∧ Text.stripped "x, " ≠ raw.text.stripped := by
  have hx : Token.Chunk true true ['x'] (.word ['x']) ", )" :=
    .word ⟨rfl, by decide, by decide, by decide, rfl, rfl, fun _ => rfl⟩ rfl (by decide)
  have hcomma : Token.Chunk true false [',', ' '] (.comma true) [')'] :=
    .comma IsBlanks.single.2 fun _ hc => by cases hc; rfl
  have hlexes : Token.Lexes false true "(x, )" [.group [.word ['x'], .comma true]] [] _ :=
    .group (.chunk hx (.chunk hcomma .close)) .done
  have htokens : Token.ofText "(x, )" = [.group [.word ['x'], .comma true]] :=
    congrArg Prod.fst hlexes.scan_eq
  refine ⟨by decide, ?_, eq_ok_of_toOption (by decide +kernel), by decide⟩
  rw [htokens]
  exact ⟨⟨trivial, trivial, trivial⟩, trivial⟩

end Cascade
