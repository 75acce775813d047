import Cascade.Proofs.Causes
import Cascade.Proofs.Trees

/-!
# What arguments count as

A number, a color and a text each count as one thing wherever functions and comparisons
look at them (`Argument.ofValue_eq_ok_iff`), and the arguments of a call are accepted when
they go together: none is a color and all units among them are equal.

A text counts as the number it begins with. One that begins with no number counts as zero,
so a function of numbers computes with a keyword or a call of an unknown function as if
zero stood there (`Piece.call_text_iff`). It declines only if the arguments do not go
together.
-/

namespace Cascade

/-! ## Single arguments -/

/-- The kind that a value brings along. -/
def Value.kind? : Value → Option Kind
  | color _ => some .color
  | quantity q => if q.unit = .plain then none else some (.unit q.unit)
  | text _ => none

namespace Argument

/-- What a value counts as. A text that looks like a color counts as nothing. -/
def of? : Value → Option Argument
  | .color c => some (color c)
  | .quantity q => some (number q.magnitude)
  | .text t => if t.head? = some '#' then none else some (number (Decimal.leading t))

theorem agree_eq_ok_iff {expected : Option Kind} {found kind : Kind} :
    agree expected found = .ok kind ↔ (∀ k ∈ expected, k = found) ∧ kind = found := by
  cases expected with
  | none => simp [agree, eq_comm]
  | some k =>
      by_cases h : k = found
      · simp [agree, h, eq_comm]
      · simp [agree, h]

theorem ofValue_eq_ok_iff {expected kind : Option Kind} {v : Value} {a : Argument} :
    ofValue expected v = .ok (a, kind) ↔
      of? v = some a ∧ (∀ k ∈ expected, ∀ found ∈ v.kind?, k = found) ∧
        kind = v.kind?.or expected := by
  -- Only a color and a number with a unit meet what is expected.
  have hagree {found : Kind} {b : Argument} :
      (agree expected found).map (fun kind => (b, some kind)) = .ok (a, kind) ↔
        b = a ∧ (∀ k ∈ expected, k = found) ∧ kind = some found := by
    constructor
    · intro h
      obtain ⟨kind', hkind, hpair⟩ := map_eq_ok h
      obtain ⟨hexpected, hfound⟩ := agree_eq_ok_iff.mp hkind
      cases hpair
      exact ⟨rfl, hexpected, congrArg some hfound⟩
    · rintro ⟨rfl, hexpected, rfl⟩
      rw [agree_eq_ok_iff.mpr ⟨hexpected, rfl⟩]
      rfl
  cases v with
  | color c => simpa [ofValue, of?, Value.kind?] using hagree
  | quantity q =>
      by_cases hplain : q.unit = .plain
      · simp [ofValue, of?, Value.kind?, hplain, eq_comm]
      · simpa [ofValue, of?, Value.kind?, hplain] using hagree
  | text t =>
      by_cases hhash : t.head? = some '#'
      · simp [ofValue, of?, hhash]
      · simp [ofValue, of?, Value.kind?, hhash, eq_comm]

end Argument

/-! ## Text without a number -/

namespace Decimal

/-- A text without the blanks and the sign at its beginning. -/
def unsigned (t : Text) : Text :=
  match t.trimStart with
  | '-' :: rest => rest
  | '+' :: rest => rest
  | rest => rest

/-- The text begins with a number, after blanks and a sign. -/
def Leads (t : Text) : Prop := (literal? (unsigned t)).isSome

instance (t : Text) : Decidable (Leads t) := inferInstanceAs (Decidable (_ = true))

theorem leading_eq_zero {t : Text} (h : ¬ Leads t) : leading t = 0.0 := by
  rw [Leads, Bool.not_eq_true, Option.isSome_eq_false_iff, Option.isNone_iff_eq_none, unsigned] at h
  unfold leading
  split at h <;> simp_all

end Decimal

/-! ## Arguments of one unit -/

/-- Every value counts as a number, and no two of them have different units. -/
structure GoTogether (values : List Value) : Prop where
  counts : ∀ v ∈ values, ∃ x, Argument.of? v = some (.number x)
  same_unit : ∀ v ∈ values, ∀ v' ∈ values, ∀ k ∈ v.kind?, ∀ k' ∈ v'.kind?, k = k'

theorem GoTogether.of_cons {v : Value} {rest : List Value} (h : GoTogether (v :: rest)) :
    GoTogether rest where
  counts := (List.forall_mem_cons.mp h.counts).2
  same_unit := fun w hw w' hw' =>
    h.same_unit w (List.mem_cons_of_mem _ hw) w' (List.mem_cons_of_mem _ hw')

namespace Builtin

theorem numbers_cons_eq_ok_iff {b : Builtin} {kind : Option Kind} {v : Value} {rest : List Value}
    {result : List Float × NumberUnit} :
    b.numbers kind (v :: rest) = .ok result ↔
      ∃ x xs kind' unit, Argument.ofValue kind v = .ok (.number x, kind') ∧
        b.numbers kind' rest = .ok (xs, unit) ∧ result = (x :: xs, unit) := by
  constructor
  · intro h
    obtain ⟨⟨a, kind'⟩, ha, h⟩ := bind_eq_ok h
    cases a with
    | color c => cases h
    | number x =>
        obtain ⟨⟨xs, unit⟩, hrest, h⟩ := bind_eq_ok h
        cases h
        exact ⟨x, xs, kind', unit, ha, hrest, rfl⟩
  · rintro ⟨x, xs, kind', unit, ha, hrest, rfl⟩
    simp only [numbers, ha, hrest, bind, Except.bind]
    rfl

/-- The arguments are read if they go together, also with what is expected before them. -/
theorem numbers_ok_iff (b : Builtin) {values : List Value} {kind : Option Kind} :
    (∃ result, b.numbers kind values = .ok result) ↔
      GoTogether values ∧ ∀ k ∈ kind, ∀ v ∈ values, ∀ found ∈ v.kind?, k = found := by
  induction values generalizing kind with
  | nil => exact ⟨fun _ => ⟨⟨by simp, by simp⟩, by simp⟩, fun _ => ⟨_, rfl⟩⟩
  | cons v rest ih =>
      constructor
      · rintro ⟨result, h⟩
        obtain ⟨x, xs, kind', unit, ha, hrest, -⟩ := numbers_cons_eq_ok_iff.mp h
        obtain ⟨hof, hexpected, rfl⟩ := Argument.ofValue_eq_ok_iff.mp ha
        obtain ⟨htogether, hkind⟩ := ih.mp ⟨_, hrest⟩
        have hfirst : ∀ k ∈ v.kind?, ∀ w ∈ rest, ∀ found ∈ w.kind?, k = found :=
          fun k hk => hkind k (Option.or_eq_some_iff.mpr (.inl hk))
        refine ⟨⟨List.forall_mem_cons.mpr ⟨⟨x, hof⟩, htogether.counts⟩, ?_⟩, ?_⟩
        · intro w hw w' hw' k hk k' hk'
          rcases List.mem_cons.mp hw with rfl | hmem <;>
            rcases List.mem_cons.mp hw' with rfl | hmem'
          · exact Option.mem_unique hk hk'
          · exact hfirst k hk w' hmem' k' hk'
          · exact (hfirst k' hk' w hmem k hk).symm
          · exact htogether.same_unit w hmem w' hmem' k hk k' hk'
        · intro k hk w hw found hfound
          rcases List.mem_cons.mp hw with rfl | hw
          · exact hexpected k hk found hfound
          · cases hv : v.kind? with
            | none => exact hkind k (Option.or_eq_some_iff.mpr (.inr ⟨hv, hk⟩)) w hw found hfound
            | some found' => rw [hexpected k hk found' hv, hfirst found' hv w hw found hfound]
      · rintro ⟨htogether, hexpected⟩
        obtain ⟨x, hof⟩ := htogether.counts v (List.mem_cons_self ..)
        have ha := Argument.ofValue_eq_ok_iff.mpr
          ⟨hof, fun k hk => hexpected k hk v (List.mem_cons_self ..), rfl⟩
        have hkind : ∀ k ∈ v.kind?.or kind, ∀ w ∈ rest, ∀ found ∈ w.kind?, k = found := by
          intro k hk w hw found hfound
          rcases Option.or_eq_some_iff.mp hk with hk | ⟨-, hk⟩
          · exact htogether.same_unit v (List.mem_cons_self ..) w (List.mem_cons_of_mem _ hw)
              k hk found hfound
          · exact hexpected k hk w (List.mem_cons_of_mem _ hw) found hfound
        obtain ⟨⟨xs, unit⟩, hrest⟩ := ih.mpr ⟨htogether.of_cons, hkind⟩
        exact ⟨_, numbers_cons_eq_ok_iff.mpr ⟨x, xs, _, unit, ha, hrest, rfl⟩⟩

/-! ## Functions of numbers -/

/-- Whether a function needs a number at a position among its arguments. -/
def needsNumber : Builtin → Nat → Bool
  | min, _ | max, _ | avg, _ => true
  | ceil, i | floor, i | round, i => i == 0
  | choose, _ | lighten, _ | darken, _ | greyscale, _ => false

/-- The arguments that have to be numbers. -/
def numberArguments (b : Builtin) (values : List Value) : List Value :=
  match b with
  | min | max | avg => values
  | ceil | floor | round => values.take 1
  | choose | lighten | darken | greyscale => []

theorem mem_numberArguments {b : Builtin} {i : Nat} (hi : b.needsNumber i = true)
    {values : List Value} {v : Value} (hv : values[i]? = some v) :
    v ∈ b.numberArguments values := by
  cases b with
  | min | max | avg => exact List.mem_of_getElem? hv
  | ceil | floor | round =>
      obtain rfl : i = 0 := by simpa [needsNumber] using hi
      cases values with
      | nil => cases hv
      | cons v' rest => simpa [numberArguments] using (Option.some.inj hv).symm
  | choose | lighten | darken | greyscale => cases hi

theorem someNumbers_ok_iff (b : Builtin) {values : List Value} (hne : values ≠ []) :
    (∃ result, b.someNumbers values = .ok result) ↔ GoTogether values := by
  rw [someNumbers, if_neg (by simpa using hne), numbers_ok_iff]
  simp

theorem firstNumber_ok_iff (b : Builtin) (v : Value) (rest : List Value) :
    (∃ result, b.firstNumber (v :: rest) = .ok result) ↔ GoTogether [v] := by
  have hnumbers : GoTogether [v] ↔ ∃ result, b.numbers none [v] = .ok result := by
    rw [numbers_ok_iff]
    simp
  rw [hnumbers]
  constructor
  · rintro ⟨result, h⟩
    obtain ⟨⟨a, kind⟩, ha, h⟩ := bind_eq_ok h
    cases a with
    | color c => cases h
    | number x => exact ⟨_, numbers_cons_eq_ok_iff.mpr ⟨x, [], kind, _, ha, rfl, rfl⟩⟩
  · rintro ⟨result, h⟩
    obtain ⟨x, xs, kind, unit, ha, -, -⟩ := numbers_cons_eq_ok_iff.mp h
    exact ⟨(x, Argument.unitOf kind), by simp only [firstNumber, ha, bind, Except.bind]; rfl⟩

/-- A function of numbers computes a number from arguments that go together, and fails for
any others. -/
theorem eval_ok_iff {b : Builtin} {i : Nat} (hi : b.needsNumber i = true) {values : List Value}
    (hlength : i < values.length) :
    ((∃ v, b.eval values = .ok v) ↔ GoTogether (b.numberArguments values)) ∧
      ∀ v, b.eval values = .ok v → ∃ x unit, v = Value.number x unit := by
  -- What is read is turned into a number, whichever the function is.
  have hread {α : Type} {read : Except Cause α} (x : α → Float) (unit : α → NumberUnit) {p : Prop}
      (hp : (∃ result, read = .ok result) ↔ p) :
      ((∃ v, (read >>= fun a => .ok (Value.number (x a) (unit a))) = .ok v) ↔ p) ∧
        ∀ v, (read >>= fun a => .ok (Value.number (x a) (unit a))) = .ok v →
          ∃ x unit, v = Value.number x unit := by
    rw [← hp]
    cases read with
    | error cause => exact ⟨⟨nofun, nofun⟩, nofun⟩
    | ok a =>
        exact ⟨⟨fun _ => ⟨a, rfl⟩, fun _ => ⟨_, rfl⟩⟩,
          fun v h => ⟨_, _, (Except.ok.inj h).symm⟩⟩
  obtain ⟨v, rest, rfl⟩ := List.exists_cons_of_length_pos (Nat.zero_lt_of_lt hlength)
  cases b with
  | min | max | avg => exact hread _ _ (someNumbers_ok_iff _ (List.cons_ne_nil v rest))
  | ceil | floor | round => exact hread _ _ (firstNumber_ok_iff _ v rest)
  | choose | lighten | darken | greyscale => cases hi

/-! ## Text among the arguments -/

/-- Reading arguments does not see which of two values is there that count as the same. -/
theorem numbers_set (b : Builtin) {v v' : Value} {x : Float} {values : List Value} {i : Nat}
    (hv : ∀ expected, Argument.ofValue expected v = .ok (.number x, expected))
    (hv' : ∀ expected, Argument.ofValue expected v' = .ok (.number x, expected))
    (hi : values[i]? = some v) (kind : Option Kind) :
    b.numbers kind (values.set i v') = b.numbers kind values := by
  induction values generalizing i kind with
  | nil => cases hi
  | cons w rest ih =>
      cases i with
      | zero =>
          obtain rfl : w = v := Option.some.inj hi
          simp only [List.set_cons_zero, numbers, hv, hv', bind, Except.bind]
      | succ i =>
          have hrest : rest[i]? = some v := by simpa using hi
          simp only [List.set_cons_succ, numbers, ih hrest]

/-- The number that a text without a number counts as. -/
def zero : Value := .number 0.0 .plain

/-- A text without a number counts as zero. -/
theorem eval_set_zero {b : Builtin} {i : Nat} (hi : b.needsNumber i = true) {values : List Value}
    {t : Text} (ht : values[i]? = some (.text t)) (hhash : t.head? ≠ some '#')
    (hnumber : ¬ Decimal.Leads t) : b.eval (values.set i zero) = b.eval values := by
  have htext (expected : Option Kind) :
      Argument.ofValue expected (.text t) = .ok (.number 0.0, expected) := by
    rw [Argument.ofValue, if_neg hhash, Decimal.leading_eq_zero hnumber]
  have hzero (expected : Option Kind) :
      Argument.ofValue expected zero = .ok (.number 0.0, expected) := rfl
  have hsome : b.someNumbers (values.set i zero) = b.someNumbers values := by
    simp only [someNumbers, List.isEmpty_iff, List.set_eq_nil_iff, numbers_set b htext hzero ht]
  cases b with
  | min | max | avg => simp only [eval, hsome]
  | ceil | floor | round =>
      obtain rfl : i = 0 := by simpa [needsNumber] using hi
      obtain ⟨v, rest, rfl⟩ : ∃ v rest, values = v :: rest := by
        cases values with
        | nil => cases ht
        | cons v rest => exact ⟨v, rest, rfl⟩
      obtain rfl : v = .text t := Option.some.inj ht
      have hfirst (b : Builtin) :
          b.firstNumber (zero :: rest) = b.firstNumber (.text t :: rest) := by
        simp only [firstNumber, htext, hzero]
      -- The places that `round` keeps are told by the second argument.
      have hplaces : places (zero :: rest) = places (.text t :: rest) := by
        cases rest <;> rfl
      simp only [List.set_cons_zero, eval, hfirst, hplaces]
  | choose | lighten | darken | greyscale => cases hi

theorem ofName?_name (b : Builtin) : ofName? b.name = some b := by
  cases b <;> decide

end Builtin

/-! ## Calls -/

namespace Piece

theorem value_call (b : Builtin) (pieces : List (Piece Computed)) :
    (call b.name pieces).value = (arguments pieces).mapM valueOf >>= b.eval := by
  rw [call, b.ofName?_name]
  rfl

/-- A term alone comes to what it amounts to. -/
theorem valueOf_term (c : Computed) : valueOf [.term c] = c.value := by
  have hpieces : Expression.trimSpaces [.term c] = Expression.line (.term c) [] := rfl
  rw [valueOf, Expression.ofPieces_eq hpieces trivial fun _ => List.not_mem_nil.elim]
  rfl

/-- A call comes to no value, or is written back with the values of its arguments. -/
def Declines (b : Builtin) (pieces : List (Piece Computed)) : Prop :=
  (∃ cause, (call b.name pieces).value = .error cause) ∨
    ∃ values, (arguments pieces).mapM valueOf = .ok values ∧
      (call b.name pieces).value = .ok (b.written values)

theorem mapM_getElem?_eq_ok {α β : Type} {f : α → Except Cause β} {as : List α} {bs : List β}
    (h : as.mapM f = .ok bs) {i : Nat} {a : α} {b : β} (hi : as[i]? = some a) (ha : f a = .ok b) :
    bs[i]? = some b := by
  induction as generalizing bs i with
  | nil => cases hi
  | cons a' rest ih =>
      rw [List.mapM_cons] at h
      obtain ⟨b', hb', h⟩ := bind_eq_ok h
      obtain ⟨bs', hbs', h⟩ := bind_eq_ok h
      cases h
      cases i with
      | zero =>
          obtain rfl : a' = a := Option.some.inj hi
          exact congrArg some (Except.ok.inj (hb'.symm.trans ha))
      | succ i => exact ih hbs' (by simpa using hi)

/-- A function of numbers with a text among them that begins with no number: it declines
exactly if its arguments do not come to values that go together. Otherwise it computes a
number as if the text were zero. -/
theorem call_text_iff {b : Builtin} {i : Nat} (hi : b.needsNumber i = true)
    {pieces argument : List (Piece Computed)} (hargument : (arguments pieces)[i]? = some argument)
    {t : Text} (ht : valueOf argument = .ok (.text t)) (hnumber : ¬ Decimal.Leads t) :
    (Declines b pieces ↔ ∀ values, (arguments pieces).mapM valueOf = .ok values →
        ¬ GoTogether (b.numberArguments values)) ∧
      ∀ v, (call b.name pieces).value = .ok v →
        (∃ x unit, v = .number x unit) ∧ ∃ values, (arguments pieces).mapM valueOf = .ok values ∧
          b.eval (values.set i Builtin.zero) = .ok v := by
  rw [Declines, value_call]
  cases hvalues : (arguments pieces).mapM valueOf with
  | error cause =>
      refine ⟨⟨fun _ values h => ?_, fun _ => .inl ⟨cause, rfl⟩⟩, fun v h => ?_⟩
      · cases h
      · cases h
  | ok values =>
      have hbind : (Except.ok values >>= b.eval) = b.eval values := rfl
      have hvalue := mapM_getElem?_eq_ok hvalues hargument ht
      obtain ⟨hlength, -⟩ := List.getElem?_eq_some_iff.mp hvalue
      obtain ⟨hok, hnumbers⟩ := Builtin.eval_ok_iff hi hlength
      rw [hbind]
      refine ⟨⟨?_, fun h => ?_⟩, fun v hv => ?_⟩
      · intro hdeclines values' hvalues' htogether
        cases hvalues'
        obtain ⟨v, hv⟩ := hok.mpr htogether
        rcases hdeclines with ⟨cause, hcause⟩ | ⟨values', -, hwritten⟩
        · cases hcause.symm.trans hv
        · obtain ⟨x, unit, hnumber⟩ := hnumbers _ hwritten
          cases hnumber
      · cases heval : b.eval values with
        | error cause => exact .inl ⟨cause, rfl⟩
        | ok v => exact absurd (hok.mp ⟨v, heval⟩) (h values rfl)
      · have hhash : t.head? ≠ some '#' := by
          intro hhash
          obtain ⟨x, hx⟩ := (hok.mp ⟨v, hv⟩).counts _ (Builtin.mem_numberArguments hi hvalue)
          simp [Argument.of?, hhash] at hx
        exact ⟨hnumbers v hv, values, rfl, (Builtin.eval_set_zero hi hvalue hhash hnumber).trans hv⟩

/-- A keyword among two units: the call declines. -/
theorem call_text_iff_two_units :
    Builtin.min.needsNumber 0 = true ∧
      (arguments (Token.computeAll [.word "auto", .comma true, .word "1px", .comma true,
        .word "2em"]))[0]? = some [(Token.word "auto").compute] ∧
      valueOf [(Token.word "auto").compute] = .ok (.text "auto") ∧ ¬ Decimal.Leads "auto" ∧
      Declines .min (Token.computeAll [.word "auto", .comma true, .word "1px", .comma true,
        .word "2em"]) := by
  have hword (t : Text) : valueOf [(Token.word t).compute] = .ok (.ofWord t) := valueOf_term _
  have hvalues : (arguments (Token.computeAll [.word "auto", .comma true, .word "1px",
      .comma true, .word "2em"])).mapM valueOf =
        .ok [.ofWord "auto", .ofWord "1px", .ofWord "2em"] := by
    show [[(Token.word "auto").compute], [(Token.word "1px").compute],
      [(Token.word "2em").compute]].mapM valueOf = _
    simp only [List.mapM_cons, List.mapM_nil, hword]
    rfl
  refine ⟨rfl, rfl, hword _, by decide,
    (call_text_iff (i := 0) rfl rfl (hword _) (by decide)).1.mpr ?_⟩
  intro values h htogether
  cases hvalues.symm.trans h
  have hunits := htogether.same_unit (.ofWord "1px") (by simp [Builtin.numberArguments])
    (.ofWord "2em") (by simp [Builtin.numberArguments]) (.unit (.known .px)) rfl
    (.unit (.known .em)) rfl
  cases hunits

/-- A keyword next to one number: the call does not decline. -/
theorem call_text_computed :
    Builtin.max.needsNumber 0 = true ∧
      (arguments (Token.computeAll [.word "auto", .comma true, .word "1px"]))[0]? =
        some [(Token.word "auto").compute] ∧
      valueOf [(Token.word "auto").compute] = .ok (.text "auto") ∧ ¬ Decimal.Leads "auto" ∧
      ¬ Declines .max (Token.computeAll [.word "auto", .comma true, .word "1px"]) := by
  have hcss : ((call Builtin.max.name (Token.computeAll [.word "auto", .comma true,
      .word "1px"])).value.map Value.css).toOption = some "1px".toList := by decide +kernel
  refine ⟨rfl, rfl, valueOf_term _, by decide, ?_⟩
  rintro (⟨cause, h⟩ | ⟨values, -, h⟩)
  · rw [h] at hcss
    cases hcss
  · rw [h] at hcss
    cases hcss

end Piece

end Cascade
