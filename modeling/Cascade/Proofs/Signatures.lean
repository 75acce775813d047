import Cascade.Proofs.PassingThrough
import Cascade.Proofs.PlainText
import Cascade.Proofs.Separators
import Cascade.Proofs.WellFormed

/-!
# Signatures that are read back

A mixin can be declared with any default that could be passed as an argument: a trimmed text
with closed strings and balanced parentheses, in which no semicolon stands at top level. The
declaration is read back, name, parameters and defaults, under one condition. The list of
parameters is cut at semicolons by a scan from the front, which knows strings; but the
parenthesis that it begins with is looked for from behind, by a search that counts the
parentheses in strings as well. So what is inside the parentheses has to be balanced with
those counted (`Text.CountsEven`). Otherwise the selector is none of a mixin
(`Signature.read?_declared`).
-/

namespace Cascade

/-! ## The search from behind -/

namespace Text

/-- No end of the text closes fewer parentheses than it opens, and all of it as many, where
those in strings count as well. -/
def CountsEven (t : Text) : Prop := NeverOpens 0 t ∧ t.count '(' = t.count ')'

theorem NeverOpens.of_concat {further further' : Nat} {passed : Text} {c : Char}
    (h : NeverOpens further (passed ++ [c]))
    (hc : [c].count ')' + further = [c].count '(' + further') : NeverOpens further' passed := by
  intro u hu
  have hcount := h (u ++ [c]) (List.suffix_append_inj_of_length_eq rfl |>.mpr ⟨hu, rfl⟩)
  simp only [List.count_append] at hcount
  omega

/-- The search goes on through whatever it finds nothing in. -/
theorem openBackwards_append {further : Nat} {inside passed : Text} (rest : Text)
    (h : NeverOpens further passed.reverse) :
    openBackwards further inside (passed ++ rest) =
      openBackwards (further + passed.count ')' - passed.count '(') (passed.reverse ++ inside)
        rest := by
  induction passed generalizing further inside with
  | nil => rfl
  | cons c passed ih =>
      rw [List.reverse_cons] at h
      rw [List.cons_append, openBackwards.eq_def]
      by_cases hclose : c = ')'
      · subst hclose
        have hrest : NeverOpens (further + 1) passed.reverse := h.of_concat (by simp [Nat.add_comm])
        simp only [if_true, ih hrest, List.reverse_cons, List.append_assoc, List.singleton_append,
          List.count_cons_self, List.count_cons_of_ne (show (')' : Char) ≠ '(' by decide)]
        rw [Nat.add_right_comm, Nat.add_assoc]
      by_cases hopen : c = '('
      · subst hopen
        have hpos : 1 ≤ further := by simpa using h ['('] (List.suffix_append _ _)
        obtain ⟨further, rfl⟩ := Nat.exists_eq_add_of_le' hpos
        have hrest : NeverOpens further passed.reverse := h.of_concat (by simp [Nat.add_comm])
        have hcount : further + passed.count ')' - passed.count '(' =
            further + 1 + passed.count ')' - (passed.count '(' + 1) := by omega
        simp only [hclose, if_false, if_true, ih hrest, List.reverse_cons, List.append_assoc,
          List.singleton_append, List.count_cons_self,
          List.count_cons_of_ne (show ('(' : Char) ≠ ')' by decide), hcount]
      · have hrest : NeverOpens further passed.reverse := h.of_concat (by simp [hclose, hopen])
        simp only [hclose, hopen, if_false, ih hrest, List.reverse_cons, List.append_assoc,
          List.singleton_append, List.count_cons_of_ne hclose,
          List.count_cons_of_ne hopen]

/-- A text in parentheses is the group at its end exactly if it counts even. -/
theorem lastGroup?_parentheses {t : Text} :
    lastGroup? ('(' :: (t ++ [')'])) = some ([], t) ↔ t.CountsEven := by
  have hreverse : ('(' :: (t ++ [')'])).reverse = ')' :: (t.reverse ++ ['(']) := by simp
  have hgroup : lastGroup? ('(' :: (t ++ [')'])) = openBackwards 0 [] (t.reverse ++ ['(']) := by
    rw [lastGroup?, hreverse]
    rfl
  have hpassed (h : NeverOpens 0 t) : openBackwards 0 [] (t.reverse ++ ['(']) =
      openBackwards (t.count ')' - t.count '(') t ['('] := by
    rw [← List.reverse_reverse t] at h
    rw [openBackwards_append _ h, List.count_reverse, List.count_reverse, List.reverse_reverse,
      List.append_nil, Nat.zero_add]
  rw [hgroup]
  constructor
  · intro hfound
    have hspec := openBackwards_spec 0 [] (t.reverse ++ ['('])
    rw [hfound] at hspec
    obtain ⟨passed, -, heq, hnever⟩ := hspec
    obtain rfl : t = passed := by simpa using heq
    refine ⟨hnever, Nat.le_antisymm (hnever t List.suffix_rfl) ?_⟩
    rw [hpassed hnever] at hfound
    by_contra hlt
    obtain ⟨n, hn⟩ := Nat.exists_eq_add_of_lt (Nat.lt_of_not_le hlt)
    rw [show t.count ')' - t.count '(' = n + 1 by omega] at hfound
    cases hfound
  · rintro ⟨hnever, hcount⟩
    rw [hpassed hnever, hcount, Nat.sub_self]
    rfl

theorem NeverOpens.append {t u : Text} (h : NeverOpens 0 t) (h' : NeverOpens 0 u) :
    NeverOpens 0 (t ++ u) := by
  intro v hv
  obtain ⟨before, heq⟩ := hv
  rcases List.append_eq_append_iff.mp heq with ⟨w, rfl, rfl⟩ | ⟨w, -, rfl⟩
  · have := h w (List.suffix_append before w)
    have := h' u List.suffix_rfl
    simp only [List.count_append]
    omega
  · exact h' v (List.suffix_append w v)

theorem CountsEven.append {t u : Text} (h : t.CountsEven) (h' : u.CountsEven) :
    CountsEven (t ++ u) :=
  ⟨h.1.append h'.1, by rw [List.count_append, List.count_append, h.2, h'.2]⟩

theorem CountsEven.of_not_mem {t : Text} (hopen : '(' ∉ t) (hclose : ')' ∉ t) : t.CountsEven := by
  refine ⟨fun u hu => ?_, ?_⟩
  · rw [List.count_eq_zero.mpr fun hmem => hopen (hu.subset hmem)]
    exact Nat.zero_le _
  · rw [List.count_eq_zero.mpr hopen, List.count_eq_zero.mpr hclose]

theorem Lists.countsEven {separator : Char} {parts : List Text} {t : Text}
    (h : Lists separator parts t) (hseparator : IsInert separator)
    (hparts : ∀ part ∈ parts, part.CountsEven) : t.CountsEven := by
  refine h.of_append (fun _ _ => .append) (fun gap hgap => ?_) hparts
  have hinert := isInert_of_mem_gap hseparator hgap
  exact .of_not_mem (fun hc => (hinert _ hc).2.1 rfl) fun hc => (hinert _ hc).2.2 rfl

/-- The character stands only outside the strings of the text. -/
def KeepsOutside (c : Char) (t : Text) : Prop :=
  ∀ u v, t = u ++ c :: v → Quoting.run .outside u = .outside

end Text

/-- Where no parenthesis stands in a string, the depth tells how many there are. -/
theorem Nesting.depth_of_enclose? {s s' : Nesting} {t : Text} (h : s.enclose? t = some s')
    (hopen : ∀ u v, t = u ++ '(' :: v → s.quoting.run u = .outside)
    (hclose : ∀ u v, t = u ++ ')' :: v → s.quoting.run u = .outside) :
    s'.depth + t.count ')' = s.depth + t.count '(' := by
  induction t generalizing s with
  | nil =>
      cases h
      rfl
  | cons c t ih =>
      obtain ⟨hc, ht⟩ := enclose?_cons h
      have hrest {d : Char} (hd : ∀ u v, c :: t = u ++ d :: v → s.quoting.run u = .outside) :
          ∀ u v, t = u ++ d :: v → (s.step c).quoting.run u = .outside := by
        rintro u v rfl
        rw [quoting_step]
        exact hd (c :: u) v rfl
      have hstep : (s.step c).depth + [c].count ')' = s.depth + [c].count '(' := by
        obtain ⟨depth, quoting⟩ := s
        by_cases hparenthesis : c = '(' ∨ c = ')'
        · rcases hparenthesis with rfl | rfl
          · obtain rfl : quoting = .outside := hopen [] t rfl
            simp [step]
          · obtain rfl : quoting = .outside := hclose [] t rfl
            have hdepth : depth ≠ 0 := by
              rintro rfl
              cases hc
            simp [step]
            omega
        · obtain ⟨hne, hne'⟩ := not_or.mp hparenthesis
          have hdepth : (step ⟨depth, quoting⟩ c).depth = depth := by
            unfold step
            repeat' split
            all_goals rfl
          simp [hdepth, hne, hne']
      have hsum := ih ht (hrest hopen) (hrest hclose)
      rw [← List.singleton_append, List.count_append, List.count_append]
      omega

/-- Where no parenthesis stands in a string, it makes no difference that those are counted. -/
theorem Text.IsEnclosed.countsEven {t : Text} (h : t.IsEnclosed) (hopen : t.KeepsOutside '(')
    (hclose : t.KeepsOutside ')') : t.CountsEven := by
  have hall := Nesting.depth_of_enclose? h hopen hclose
  refine ⟨fun u hu => ?_, by simpa [Nesting.top] using hall.symm⟩
  obtain ⟨v, rfl⟩ := hu
  rw [IsEnclosed, Nesting.enclose?_append] at h
  obtain ⟨s, hv, hu⟩ := Option.bind_eq_some_iff.mp h
  have hquoting : s.quoting = Quoting.run .outside v := by
    have hrun := Nesting.run_of_enclose? hv 0
    exact (congrArg Nesting.quoting hrun.symm).trans (Nesting.quoting_run .top v)
  have hrest {c : Char} (hc : KeepsOutside c (v ++ u)) :
      ∀ u' v', u = u' ++ c :: v' → s.quoting.run u' = .outside := by
    rintro u' v' rfl
    rw [hquoting, ← Quoting.run_append]
    exact hc (v ++ u') v' (List.append_assoc ..).symm
  have hsum := Nesting.depth_of_enclose? hu (hrest hopen) (hrest hclose)
  simp only [Nesting.top] at hsum
  omega

/-! ## Declarations -/

/-- A parameter as it is declared. -/
def Parameter.text (p : Parameter) : Text :=
  match p.fallback with
  | none => '@' :: p.name
  | some value => '@' :: (p.name ++ ':' :: ' ' :: value.text)

/-- The parameters with a semicolon behind each of them, and white space between any two. -/
def Parameters.Declared (parameters : List Parameter) (t : Text) : Prop :=
  Text.Lists ';' (parameters.map Parameter.text ++ [[]]) t

/-- The parameters can be declared with the span: their names are different, and their defaults
can stand between semicolons. -/
structure Parameters.Declarable (span : Span) (parameters : List Parameter) : Prop where
  wellFormed : Parameters.WellFormed parameters
  defaults : ∀ p ∈ parameters, ∀ value ∈ p.fallback, value.text.IsPart ';' ∧ value.span = span

/-! ## One parameter -/

namespace Text.IsIdentifier

variable {name : Text}

theorem trim_eq (h : name.IsIdentifier) : Text.trim name = name := by
  have hsolid : ∀ c ∈ name, isBlank c = false := fun c hc => isBlank_of_isNameChar (h.2 c hc)
  exact dropWhile_both (fun c hc => hsolid c (List.mem_of_mem_head? hc))
    fun c hc => hsolid c (List.mem_of_getLast? hc)

/-- A name ends at the first colon. -/
theorem takeWhile_colon (h : name.IsIdentifier) (rest : Text) :
    (name ++ ':' :: rest).takeWhile (· ≠ ':') = name ∧
      (name ++ ':' :: rest).dropWhile (· ≠ ':') = ':' :: rest := by
  have hname : ∀ c ∈ name, decide (c ≠ ':') = true := by
    intro c hc
    refine decide_eq_true fun heq => ?_
    exact h.plain (by decide) (heq ▸ hc)
  constructor
  · rw [List.takeWhile_append_of_pos hname, List.takeWhile_cons_of_neg (by simp), List.append_nil]
  · rw [List.dropWhile_append_of_pos hname, List.dropWhile_cons_of_neg (by simp)]

end Text.IsIdentifier

namespace Text

theorem trimEnd_append {t : Text} (h : ∀ c ∈ t.getLast?, isBlank c = false) (u : Text) :
    trimEnd (t ++ u) = t ++ trimEnd u := by
  have hstarts : t.reverse.dropWhile isBlank = t.reverse :=
    Starts.dropWhile fun c hc => h c (by rwa [List.head?_reverse] at hc)
  rw [trimEnd, trimEnd, List.reverse_append, List.dropWhile_append]
  split
  · rename_i hnil
    rw [List.isEmpty_iff.mp hnil, hstarts, List.reverse_reverse, List.reverse_nil, List.append_nil]
  · rw [List.reverse_append, List.reverse_reverse]

theorem isBlank_getLast_trim (t : Text) : ∀ c ∈ (trim t).getLast?, isBlank c = false := by
  rw [trim, trimEnd, List.getLast?_reverse]
  exact starts_dropWhile _

/-- Trimming comes as far as a text without white space. -/
theorem trim_solid_append {t : Text} (hne : t ≠ []) (h : ∀ c ∈ t, isBlank c = false) (u : Text) :
    trim (t ++ u) = t ++ trimEnd u := by
  have hstart : trimStart (t ++ u) = t ++ u := by
    refine Starts.dropWhile fun c hc => ?_
    rw [List.head?_append_of_ne_nil _ hne] at hc
    exact h c (List.mem_of_mem_head? hc)
  rw [trim, hstart, trimEnd_append fun c hc => h c (List.mem_of_getLast? hc)]

/-- A space and a trimmed text behind it: if the text is empty the space is gone. -/
theorem trim_trimEnd_space {t : Text} (h : trim t = t) : trim (trimEnd (' ' :: t)) = t := by
  have hblank : ∀ c ∈ [' '], isBlank c = true := fun _ hc => List.mem_singleton.mp hc ▸ rfl
  cases t with
  | nil => rfl
  | cons c rest =>
      have hlast : ∀ d ∈ (' ' :: c :: rest).getLast?, isBlank d = false := by
        rw [List.getLast?_cons_cons]
        exact h ▸ isBlank_getLast_trim (c :: rest)
      have hend := trimEnd_append hlast []
      rw [List.append_nil] at hend
      rw [hend, show trimEnd [] = [] from rfl, List.append_nil]
      exact (trim_blank_append hblank (c :: rest)).trans h

end Text

namespace Parameter

variable {span : Span} {p : Parameter}

theorem text_eq (p : Parameter) : ∃ rest, p.text = '@' :: rest := by
  unfold text
  split <;> exact ⟨_, rfl⟩

/-- Names are plain, so a parameter can stand where its default can. -/
theorem isWhole_text (hname : p.name.IsIdentifier)
    (hdefault : ∀ value ∈ p.fallback, value.text.IsPart ';') : p.text.IsWhole ';' := by
  have hat : ∀ c ∈ '@' :: p.name, IsInert c ∧ c ≠ ';' := by
    refine List.forall_mem_cons.mpr ⟨by decide, fun c hc => ?_⟩
    exact ⟨isInert_of_isNameChar (hname.2 c hc), fun heq => hname.plain (by decide) (heq ▸ hc)⟩
  unfold text
  split
  · exact .of_isInert hat
  · rename_i value hvalue
    have hcolon : Text.IsWhole ';' [':', ' '] := by decide
    have hwhole := (Text.IsWhole.of_isInert hat).append
      (hcolon.append (hdefault value hvalue).toIsWhole)
    exact hwhole

theorem countsEven_text (hname : p.name.IsIdentifier)
    (hdefault : ∀ value ∈ p.fallback, value.text.CountsEven) : p.text.CountsEven := by
  have hplain (tail : Text) (hopen : '(' ∉ tail) (hclose : ')' ∉ tail) :
      Text.CountsEven ('@' :: (p.name ++ tail)) := by
    refine .of_not_mem ?_ ?_
    · simpa using ⟨hname.plain (by decide), hopen⟩
    · simpa using ⟨hname.plain (by decide), hclose⟩
  unfold text
  split
  · have halone := hplain [] nofun nofun
    rwa [List.append_nil] at halone
  · rename_i value hvalue
    have hcolon := (hplain [':', ' '] (by decide) (by decide)).append
      (hdefault value hvalue)
    rwa [List.cons_append, List.append_assoc] at hcolon

/-- A parameter is read back once the white space around it is gone. -/
theorem read_text {mixin : Text} {before : List Parameter} (hname : p.name.IsIdentifier)
    (hdefault : ∀ value ∈ p.fallback, value.text.IsPart ';' ∧ value.span = span)
    (hnew : p.name ∉ before.map Parameter.name) :
    Signature.readParameter mixin span before (Text.trim p.text) = .ok p := by
  have hnamed : ¬ (p.name.isEmpty = true ∨ ¬ p.name.all isNameChar = true) := by
    simpa [hname.1] using hname.2
  have hany : before.any (·.name == p.name) = false := by
    simpa using fun q hq heq => hnew (List.mem_map.mpr ⟨q, hq, heq⟩)
  obtain ⟨name, fallback⟩ := p
  simp only at hname hdefault hnamed hany
  have hsolid : ∀ c ∈ '@' :: name, isBlank c = false :=
    List.forall_mem_cons.mpr ⟨rfl, fun c hc => isBlank_of_isNameChar (hname.2 c hc)⟩
  cases fallback with
  | none =>
      have hcolon : ∀ c ∈ name, decide (c ≠ ':') = true := fun c hc =>
        decide_eq_true fun heq => hname.plain (by decide) (heq ▸ hc)
      have htrim : Text.trim ('@' :: name) = '@' :: name := by
        have htrim := Text.trim_solid_append (List.cons_ne_nil _ _) hsolid []
        rwa [List.append_nil, show Text.trimEnd [] = [] from rfl, List.append_nil] at htrim
      have hafter : Text.after? "@" ('@' :: name) = some name := Text.after?_append ['@'] name
      simp only [text, htrim, Signature.readParameter, hafter,
        List.takeWhile_eq_self_iff.mpr hcolon, List.dropWhile_eq_nil_iff.mpr hcolon,
        hname.trim_eq, if_neg hnamed, hany]
      rfl
  | some value =>
      obtain ⟨hpart, rfl⟩ := hdefault value rfl
      have hsolid' : ∀ c ∈ '@' :: (name ++ [':']), isBlank c = false := by
        rw [← List.cons_append]
        exact List.forall_mem_append.mpr ⟨hsolid, fun c hc => List.mem_singleton.mp hc ▸ rfl⟩
      have htrim : Text.trim ('@' :: (name ++ ':' :: ' ' :: value.text)) =
          '@' :: (name ++ ':' :: Text.trimEnd (' ' :: value.text)) := by
        have htrim := Text.trim_solid_append (List.cons_ne_nil _ _) hsolid' (' ' :: value.text)
        rwa [List.cons_append, List.cons_append, List.append_assoc, List.append_assoc] at htrim
      have hafter (t : Text) : Text.after? "@" ('@' :: t) = some t := Text.after?_append ['@'] t
      obtain ⟨htake, hdrop⟩ := hname.takeWhile_colon (Text.trimEnd (' ' :: value.text))
      simp only [text, htrim, Signature.readParameter, hafter, htake, hdrop, hname.trim_eq,
        Text.trim_trimEnd_space hpart.trimmed, if_neg hnamed, hany]
      rfl

end Parameter

namespace Signature

variable {span : Span}

/-- The parameters are read one after the other. -/
theorem readAll_text (mixin : Text) : ∀ {before parameters : List Parameter},
    ((before ++ parameters).map Parameter.name).Nodup →
    (∀ p ∈ parameters, p.name.IsIdentifier ∧
      ∀ value ∈ p.fallback, value.text.IsPart ';' ∧ value.span = span) →
    (parameters.map fun p => Text.trim p.text).foldlM (fun before piece =>
        (readParameter mixin span before piece).map fun p => before ++ [p]) before =
      .ok (before ++ parameters)
  | before, [], _, _ => by
      rw [List.append_nil]
      rfl
  | before, p :: parameters, hdistinct, h => by
      obtain ⟨⟨hname, hdefault⟩, hrest⟩ := List.forall_mem_cons.mp h
      have hnew : p.name ∉ before.map Parameter.name := by
        intro hmem
        rw [List.map_append, List.map_cons] at hdistinct
        exact List.disjoint_of_nodup_append hdistinct hmem (List.mem_cons_self ..)
      rw [List.append_cons] at hdistinct
      have hall := readAll_text mixin hdistinct hrest
      rw [List.map_cons, List.foldlM_cons, Parameter.read_text hname hdefault hnew,
        List.append_cons]
      exact hall

/-- The pieces between the semicolons are the parameters, but for an empty one at the end. -/
theorem pieces_declared {parameters : List Parameter} {t : Text}
    (h : Parameters.Declared parameters t)
    (hwhole : ∀ p ∈ parameters, p.text.IsWhole ';') :
    (Text.splitTop (if Text.hasTop ';' t then ';' else ',') .top t).map Text.trim =
      (parameters.map fun p => Text.trim p.text) ++ [[]] := by
  have hparts : ∀ part ∈ parameters.map Parameter.text ++ [[]], part.IsWhole ';' := by
    refine List.forall_mem_append.mpr ⟨fun part hpart => ?_, ?_⟩
    · obtain ⟨p, hp, rfl⟩ := List.mem_map.mp hpart
      exact hwhole p hp
    · exact fun part hpart => List.mem_singleton.mp hpart ▸ ⟨.nil, nofun⟩
  have hlength := h.length_splitTop rfl hparts
  cases parameters with
  | nil =>
      obtain rfl : t = [] := by
        cases h with
        | one => rfl
        | cons _ _ hrest => cases hrest
      rfl
  | cons p rest =>
      have htop : Text.hasTop ';' t = true := by
        rw [Text.hasTop, hlength]
        simp
      rw [if_pos htop, h.splitTop rfl hparts, List.map_append, List.map_map]
      rfl

theorem readParameters_declared (mixin : Text) {parameters : List Parameter} {t : Text}
    (h : Parameters.Declared parameters t) (hparameters : Parameters.Declarable span parameters) :
    readParameters mixin span t = .ok parameters := by
  have hnames := hparameters.wellFormed.names
  have hwhole : ∀ p ∈ parameters, p.text.IsWhole ';' := fun p hp =>
    Parameter.isWhole_text (hnames p hp) fun value hvalue =>
      (hparameters.defaults p hp value hvalue).1
  have hsome : ∀ piece ∈ parameters.map fun p => Text.trim p.text, (!piece.isEmpty) = true := by
    intro piece hpiece
    obtain ⟨p, -, rfl⟩ := List.mem_map.mp hpiece
    obtain ⟨rest, htext⟩ := p.text_eq
    have hat : '@' ∈ Text.trim p.text := by
      refine (Text.mem_trim_or_isBlank ?_).resolve_right (by decide)
      rw [htext]
      exact List.mem_cons_self ..
    simpa using List.ne_nil_of_mem hat
  simp only [readParameters]
  rw [pieces_declared h hwhole, List.filter_append, List.filter_eq_self.mpr hsome,
    List.filter_cons_of_neg (by decide), List.filter_nil, List.append_nil]
  exact readAll_text mixin hparameters.wellFormed.distinct fun p hp =>
    ⟨hnames p hp, hparameters.defaults p hp⟩

/-- A mixin that is declared with semicolons is read back, name, parameters and defaults, exactly
if the parentheses of its parameters are balanced also where those in strings count. Otherwise
it is no mixin. Where no default has a parenthesis in a string, they are. -/
theorem read?_declared {s : Signature} {inside : Text} (hname : s.name.IsMixinName)
    (hparameters : Parameters.Declarable span s.parameters)
    (hinside : Parameters.Declared s.parameters inside) :
    (read? (s.name ++ '(' :: (inside ++ [')'])) span = .ok (some s) ↔ inside.CountsEven) ∧
      (read? (s.name ++ '(' :: (inside ++ [')'])) span = .ok none ↔ ¬ inside.CountsEven) ∧
      ((∀ p ∈ s.parameters, ∀ value ∈ p.fallback,
          value.text.KeepsOutside '(' ∧ value.text.KeepsOutside ')') → inside.CountsEven) := by
  obtain ⟨name, parameters⟩ := s
  obtain ⟨word, rfl, hword⟩ := hname
  have htake : (word ++ '(' :: (inside ++ [')'])).takeWhile isNameChar = word :=
    Plain.takeWhile_name hword.2 fun c hc => Option.some.inj hc ▸ rfl
  have hdrop : (word ++ '(' :: (inside ++ [')'])).drop word.length = '(' :: (inside ++ [')']) :=
    List.drop_left
  have hafter : Text.after? "." ('.' :: (word ++ '(' :: (inside ++ [')']))) =
      some (word ++ '(' :: (inside ++ [')'])) := Text.after?_append ['.'] _
  have hstart : Text.trimStart ('(' :: (inside ++ [')'])) = '(' :: (inside ++ [')']) := rfl
  have hne : word.isEmpty = false := List.isEmpty_eq_false_iff.mpr hword.1
  have hsome : inside.CountsEven →
      read? ('.' :: word ++ '(' :: (inside ++ [')'])) span =
        .ok (some ⟨'.' :: word, parameters⟩) := by
    intro heven
    simp only [read?, List.cons_append, hafter, htake, hdrop, hstart, hne,
      Text.lastGroup?_parentheses.mpr heven, readParameters_declared _ hinside hparameters]
    rfl
  have hnone : ¬ inside.CountsEven →
      read? ('.' :: word ++ '(' :: (inside ++ [')'])) span = .ok none := by
    intro hodd
    simp only [read?, List.cons_append, hafter, htake, hdrop, hstart, hne]
    split
    · rename_i hempty
      cases hempty
    · split
      · rename_i inside' hgroup
        have hspec := Text.lastGroup?_spec ('(' :: (inside ++ [')']))
        rw [hgroup] at hspec
        obtain rfl : inside = inside' := by simpa using hspec.1
        exact (hodd (Text.lastGroup?_parentheses.mp hgroup)).elim
      · rfl
  refine ⟨⟨fun h => ?_, hsome⟩, ⟨fun h heven => ?_, hnone⟩, fun h => ?_⟩
  · by_contra hodd
    cases (hnone hodd).symm.trans h
  · cases (hsome heven).symm.trans h
  · refine hinside.countsEven (by decide) (List.forall_mem_append.mpr ⟨fun part hpart => ?_, ?_⟩)
    · obtain ⟨p, hp, rfl⟩ := List.mem_map.mp hpart
      refine Parameter.countsEven_text (hparameters.wellFormed.names p hp) fun value hvalue => ?_
      obtain ⟨hopen, hclose⟩ := h p hp value hvalue
      exact (hparameters.defaults p hp value hvalue).1.enclosed.countsEven hopen hclose
    · exact fun part hpart =>
        List.mem_singleton.mp hpart ▸ .of_not_mem List.not_mem_nil List.not_mem_nil

/-- Defaults with a call, with delimiters in strings, with parentheses in a string, and with
nothing in it. -/
theorem read?_declared_delimiters :
    let s : Signature := ⟨".m", [⟨"a", some ⟨"f(1; 2), ':;'", ⟨0, 0, 1⟩⟩⟩, ⟨"b", none⟩,
      ⟨"c", some ⟨"\"(@;)\"", ⟨0, 0, 1⟩⟩⟩, ⟨"d", some ⟨[], ⟨0, 0, 1⟩⟩⟩]⟩
    read? ".m(@a: f(1; 2), ':;'; @b; @c: \"(@;)\";@d: ;)" ⟨0, 0, 1⟩ = .ok (some s) := by
  intro s
  have hspace : ∀ c ∈ [' '], isGap c = true := fun _ hc => List.mem_singleton.mp hc ▸ rfl
  have hname : s.name.IsMixinName := ⟨"m", rfl, by decide⟩
  have hparameters : Parameters.Declarable ⟨0, 0, 1⟩ s.parameters :=
    ⟨⟨by decide, by decide⟩, by decide +kernel⟩
  have hinside : Parameters.Declared s.parameters
      "@a: f(1; 2), ':;'; @b; @c: \"(@;)\";@d: ;" :=
    .cons [' '] hspace (.cons [' '] hspace (.cons [] nofun (.cons [] nofun (.one []))))
  have heven : Text.CountsEven "@a: f(1; 2), ':;'; @b; @c: \"(@;)\";@d: ;" :=
    Text.lastGroup?_parentheses.mp (by decide)
  exact (read?_declared hname hparameters hinside).1.mpr heven

/-- With a parenthesis in a string that nothing opens, a mixin is not declared. -/
theorem not_read?_declared : ¬ ∀ (s : Signature) (inside : Text) (span : Span),
    s.name.IsMixinName → Parameters.Declarable span s.parameters →
    Parameters.Declared s.parameters inside →
    read? (s.name ++ '(' :: (inside ++ [')'])) span = .ok (some s) := by
  intro h
  have hread := h ⟨".m", [⟨"p", some ⟨"\")\"", ⟨0, 0, 1⟩⟩⟩]⟩ "@p: \")\";" ⟨0, 0, 1⟩
    ⟨"m", rfl, by decide⟩ ⟨⟨by decide, by decide⟩, by decide +kernel⟩
    (.cons [] nofun (.one []))
  revert hread
  decide

end Signature

end Cascade
