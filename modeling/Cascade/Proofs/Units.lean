import Cascade.Proofs.Causes

/-!
# The units of values

Units are passed on and never made up: the unit of a number that a value comes to was
read somewhere. More generally, what holds of text, words and written colors and is kept by
operations and functions holds of whatever tokens come to (`Token.value_gives`).
-/

namespace Cascade

/-- A suffix of a number is read as the unit. -/
def NumberUnit.IsRead (unit : NumberUnit) : Prop := ∃ suffix, read? suffix = some unit

namespace NumberUnit

theorem isRead_plain : plain.IsRead := ⟨[], rfl⟩

theorem isRead_percent : percent.IsRead := ⟨['%'], rfl⟩

/-- A unit that is not known is the suffix that was read, which is made of letters. -/
theorem of_isRead_other {letters : Text} (h : (other letters).IsRead) :
    read? letters = some (other letters) ∧ ∀ c ∈ letters, c.isAlpha = true := by
  obtain ⟨suffix, hsuffix⟩ := h
  have hread := hsuffix
  simp only [read?] at hread
  split at hread
  · cases hread
  split at hread
  · cases hread
  split at hread
  · rename_i hletters
    split at hread
    · cases hread
    · cases hread
      exact ⟨hsuffix, List.all_eq_true.mp hletters⟩
  · cases hread

end NumberUnit

def Value.HasReadUnit : Value → Prop
  | quantity q => q.unit.IsRead
  | color _ | text _ => True

theorem Quantity.isRead_of_read? {word : Text} {q : Quantity} (h : read? word = some q) :
    q.unit.IsRead := by
  unfold read? at h
  obtain ⟨l, -, h⟩ := Option.bind_eq_some_iff.mp h
  obtain ⟨unit, hunit, h⟩ := Option.bind_eq_some_iff.mp h
  cases h
  exact ⟨l.rest, hunit⟩

theorem Value.hasReadUnit_ofWord (word : Text) : (ofWord word).HasReadUnit := by
  unfold ofWord
  split
  · split <;> trivial
  · split
    · rename_i q hread
      exact Quantity.isRead_of_read? hread
    · trivial

/-- Whatever the computation comes to has the property. -/
def Yields {α : Type} (p : α → Prop) (e : Except Cause α) : Prop := ∀ a, e = .ok a → p a

namespace Yields

variable {α β : Type} {p : α → Prop} {q : β → Prop}

theorem ok {a : α} (h : p a) : Yields p (.ok a) := fun _ hok => by cases hok; exact h

theorem error (c : Cause) : Yields p (.error c) := fun _ hok => by cases hok

theorem bind {e : Except Cause α} {f : α → Except Cause β} (he : Yields p e)
    (hf : ∀ a, p a → Yields q (f a)) : Yields q (e >>= f) := by
  intro b hb
  obtain ⟨a, ha, hb⟩ := bind_eq_ok hb
  exact hf a (he a ha) b hb

theorem map {e : Except Cause α} {f : α → β} (he : Yields p e) (hf : ∀ a, p a → q (f a)) :
    Yields q (e.map f) := by
  intro b hb
  obtain ⟨a, ha, rfl⟩ := map_eq_ok hb
  exact hf a (he a ha)

theorem mapM {f : α → Except Cause β} :
    ∀ {l : List α}, (∀ a ∈ l, Yields q (f a)) → Yields (fun bs => ∀ b ∈ bs, q b) (l.mapM f)
  | [], _ => .ok fun _ => List.not_mem_nil.elim
  | a :: rest, h => by
      rw [List.mapM_cons]
      refine (h a (List.mem_cons_self ..)).bind fun b hb => ?_
      refine (mapM fun a ha => h a (List.mem_cons_of_mem _ ha)).bind fun bs hbs => .ok ?_
      exact List.forall_mem_cons.mpr ⟨hb, hbs⟩

end Yields

/-- Nothing is asked of what the computation comes to. -/
theorem yields_true {α : Type} (e : Except Cause α) : Yields (fun _ => True) e :=
  fun _ _ => trivial

/-! ## Operations and functions -/

def Operand.HasReadUnit : Operand → Prop
  | number _ unit => unit.IsRead
  | color _ => True

namespace Operand

theorem ofValue_hasReadUnit : ∀ {v : Value}, v.HasReadUnit →
    Yields (fun operand => ∀ a ∈ operand, a.HasReadUnit) (ofValue v)
  | .color _, _ => .ok fun _ h => by cases h; trivial
  | .quantity q, hv => .ok fun _ h => by cases h; exact hv
  | .text t, _ => by
      rw [ofValue]
      split
      · exact .ok fun _ h => by cases h; exact NumberUnit.isRead_plain
      · split
        · exact .error _
        · exact .ok fun _ h => by cases h

theorem resultUnit_isRead {left right : NumberUnit} (hleft : left.IsRead) (hright : right.IsRead) :
    (resultUnit left right).IsRead := by
  unfold resultUnit
  split
  · exact hleft
  split
  · exact hright
  split
  · exact NumberUnit.isRead_percent
  · exact NumberUnit.isRead_plain

theorem compute_hasReadUnit (o : Operator) : ∀ {l r : Operand}, l.HasReadUnit → r.HasReadUnit →
    (compute o l r).HasReadUnit
  | .number _ _, .number _ _, hl, hr => by
      have hunit := resultUnit_isRead hl hr
      simp only [compute, ofNumbers]
      split
      · exact NumberUnit.isRead_percent
      · exact hunit
  | .color _, .color _, _, _ | .color _, .number _ _, _, _ | .number _ _, .color _, _, _ => trivial

end Operand

theorem Operator.operate_hasReadUnit (o : Operator) {left right : Value} (hleft : left.HasReadUnit)
    (hright : right.HasReadUnit) :
    Yields (fun result => ∀ v ∈ result, v.HasReadUnit) (o.operate left right) := by
  refine (Operand.ofValue_hasReadUnit hleft).bind fun l hl => ?_
  cases l with
  | none => exact .ok nofun
  | some l =>
      refine (Operand.ofValue_hasReadUnit hright).bind fun r hr => ?_
      cases r with
      | none => exact .ok nofun
      | some r =>
          have hresult := Operand.compute_hasReadUnit o (hl l rfl) (hr r rfl)
          cases hconflict : l.conflict? r with
          | some cause =>
              simp only [hconflict]
              exact .error _
          | none =>
              simp only [hconflict]
              refine .ok fun v hv => ?_
              split at hv
              · cases hv
              · cases hv
                exact hresult

def Kind.HasReadUnit : Kind → Prop
  | unit u => u.IsRead
  | color => True

theorem Argument.ofValue_hasReadUnit {expected : Option Kind}
    (hexpected : ∀ kind ∈ expected, kind.HasReadUnit) : ∀ {v : Value}, v.HasReadUnit →
      Yields (fun result => ∀ kind ∈ result.2, kind.HasReadUnit) (ofValue expected v) := by
  have hagree {found : Kind} (hfound : found.HasReadUnit) :
      Yields Kind.HasReadUnit (agree expected found) := by
    unfold agree
    split
    · exact .ok hfound
    · split
      · exact .ok (hexpected _ rfl)
      · exact .error _
  intro v hv
  cases v with
  | color c =>
      have hcolor : Kind.color.HasReadUnit := trivial
      exact (hagree hcolor).map fun kind hkind _ h => by cases h; exact hkind
  | quantity q =>
      rw [ofValue]
      split
      · exact .ok hexpected
      · have hunit : (Kind.unit q.unit).HasReadUnit := hv
        exact (hagree hunit).map fun kind hkind _ h => by cases h; exact hkind
  | text t =>
      rw [ofValue]
      split
      · exact .error _
      · exact .ok hexpected

theorem Argument.unitOf_isRead {kind : Option Kind} (h : ∀ k ∈ kind, k.HasReadUnit) :
    (unitOf kind).IsRead := by
  unfold unitOf
  split
  · exact h _ rfl
  · exact NumberUnit.isRead_plain

namespace Builtin

variable {arguments : List Value}

theorem numbers_isRead (b : Builtin) : ∀ {arguments : List Value} {kind : Option Kind},
    (∀ k ∈ kind, k.HasReadUnit) → (∀ v ∈ arguments, v.HasReadUnit) →
      Yields (fun result => result.2.IsRead) (b.numbers kind arguments)
  | [], _, hkind, _ => .ok (Argument.unitOf_isRead hkind)
  | value :: rest, kind, hkind, h => by
      obtain ⟨hvalue, hrest⟩ := List.forall_mem_cons.mp h
      refine (Argument.ofValue_hasReadUnit hkind hvalue).bind fun (a, kind) hkind => ?_
      cases a with
      | color c => exact .error _
      | number x => exact (b.numbers_isRead hkind hrest).bind fun _ hunit => .ok hunit

theorem someNumbers_isRead (b : Builtin) (h : ∀ v ∈ arguments, v.HasReadUnit) :
    Yields (fun result => result.2.IsRead) (b.someNumbers arguments) := by
  unfold someNumbers
  split
  · exact .error _
  · exact b.numbers_isRead nofun h

theorem firstNumber_isRead (b : Builtin) (h : ∀ v ∈ arguments, v.HasReadUnit) :
    Yields (fun result => result.2.IsRead) (b.firstNumber arguments) := by
  cases arguments with
  | nil => exact .error _
  | cons value rest =>
      have hvalue := h value (List.mem_cons_self ..)
      have hnone : ∀ kind ∈ (none : Option Kind), kind.HasReadUnit := nofun
      refine (Argument.ofValue_hasReadUnit hnone hvalue).bind fun (a, kind) hkind => ?_
      cases a with
      | color c => exact .error _
      | number x => exact .ok (Argument.unitOf_isRead hkind)

/-- What `if` comes to is one of its arguments, or text. -/
theorem evalChoose_gives {p : Value → Prop} (htext : ∀ t, p (.text t))
    (h : ∀ v ∈ arguments, p v) : Yields p (evalChoose arguments) := by
  unfold evalChoose
  split
  · rename_i condition yes rest
    refine (yields_true _).bind fun outcome _ => ?_
    obtain ⟨hyes, hrest⟩ := List.forall_mem_cons.mp (List.forall_mem_cons.mp h).2
    rcases outcome with _ | (_ | _)
    · exact .ok (htext _)
    · cases rest with
      | nil => exact .ok (htext _)
      | cons no others => exact .ok (hrest no (List.mem_cons_self ..))
    · exact .ok hyes
  · exact .ok (htext _)

theorem eval_hasReadUnit (b : Builtin) (h : ∀ v ∈ arguments, v.HasReadUnit) :
    Yields Value.HasReadUnit (b.eval arguments) := by
  cases b with
  | choose => exact evalChoose_gives (fun _ => trivial) h
  | min | max | avg => exact (someNumbers_isRead _ h).bind fun _ hunit => .ok hunit
  | ceil | floor | round => exact (firstNumber_isRead _ h).bind fun _ hunit => .ok hunit
  | lighten | darken =>
      exact (yields_true _).bind fun _ _ => (yields_true _).bind fun _ _ => .ok trivial
  | greyscale => exact (yields_true _).bind fun _ _ => .ok trivial

end Builtin

/-! ## Expressions -/

/-- Text, words and written colors have the property, and so has what operations and functions
make of values that have it. -/
structure Value.IsClosed (p : Value → Prop) : Prop where
  text (t : Text) : p (.text t)
  word (t : Text) : p (.ofWord t)
  call {t : Text} {c : Color} : Color.ofCall? t = some c → p (.color c)
  operate (o : Operator) {left right : Value} :
    p left → p right → Yields (fun result => ∀ v ∈ result, p v) (o.operate left right)
  eval (b : Builtin) {arguments : List Value} :
    (∀ v ∈ arguments, p v) → Yields p (b.eval arguments)

/-- What a term comes to, by itself or as an operand, has the property. -/
structure Computed.Gives (p : Value → Prop) (c : Computed) : Prop where
  value : Yields p c.value
  operand : Yields p c.operand

section

variable {p : Value → Prop} (hp : Value.IsClosed p)

include hp

theorem Arithmetic.operand_gives : ∀ {e : Arithmetic Computed},
    e.Each (Computed.Gives p) → Yields p e.operand
  | missing, _ => .ok (hp.text [])
  | term _, h => h.operand
  | binary left o right, h => by
      refine (operand_gives h.1).bind fun l hl => (operand_gives h.2).bind fun r hr => ?_
      refine (hp.operate o hl hr).bind fun result hresult => ?_
      cases result with
      | none => exact .ok (hp.text _)
      | some v => exact .ok (hresult v rfl)

theorem Arithmetic.value_gives : ∀ {e : Arithmetic Computed},
    e.Each (Computed.Gives p) → Yields p e.value
  | term _, h => h.value
  | missing, h | binary _ _ _, h => operand_gives hp h

namespace Piece

variable {pieces : List (Piece Computed)}

theorem valueOf_gives (h : ∀ piece ∈ pieces, piece.Each (Computed.Gives p)) :
    Yields p (valueOf pieces) := by
  have heach := Expression.ofPieces_each h
  unfold valueOf
  cases hpieces : Expression.ofPieces pieces with
  | single e =>
      rw [hpieces] at heach
      exact Arithmetic.value_gives hp heach
  | list items => exact (yields_true _).map fun _ _ => hp.text _

theorem group_gives (h : ∀ piece ∈ pieces, piece.Each (Computed.Gives p)) :
    Yields p (group pieces) := by
  refine (valueOf_gives hp h).bind fun v hv => (yields_true _).bind fun t _ => .ok ?_
  split
  · exact hp.text _
  · exact hv

theorem call_gives (name : Text) (h : ∀ piece ∈ pieces, piece.Each (Computed.Gives p)) :
    (call name pieces).Gives p := by
  unfold call
  split
  · rename_i b _
    have hvalue : Yields p (do b.eval (← (arguments pieces).mapM valueOf)) := by
      refine (Yields.mapM fun argument hargument => ?_).bind fun values => hp.eval b
      exact valueOf_gives hp fun piece hpiece => h piece (mem_of_mem_arguments hargument hpiece)
    exact ⟨hvalue, hvalue⟩
  · have htext := yields_true ((verbatims pieces).map fun inside => name ++ '(' :: inside ++ [')'])
    constructor
    all_goals
      refine htext.map fun t _ => ?_
      split
      · rename_i hcall
        exact hp.call hcall
      · exact hp.text t

end Piece

end

mutual

theorem Token.compute_gives {p : Value → Prop} (hp : Value.IsClosed p) :
    ∀ token : Token, token.compute.Each (Computed.Gives p)
  | .space | .comma _ | .operator _ => trivial
  | .word t => ⟨.ok (hp.word t), .ok (hp.word t)⟩
  | .reference _ => ⟨.ok (hp.text _), .ok (hp.text _)⟩
  | .call name arguments => Piece.call_gives hp name (computeAll_gives hp arguments)
  | .group inside => by
      have h := computeAll_gives hp inside
      exact ⟨Piece.group_gives hp h, Piece.valueOf_gives hp h⟩

theorem Token.computeAll_gives {p : Value → Prop} (hp : Value.IsClosed p) :
    ∀ tokens : List Token, ∀ piece ∈ computeAll tokens, piece.Each (Computed.Gives p)
  | [], _, h => by cases h
  | token :: rest, piece, h => by
      rw [computeAll] at h
      rcases List.mem_cons.mp h with rfl | h
      · exact compute_gives hp token
      · exact computeAll_gives hp rest piece h

end

/-- Whatever tokens come to has the property. -/
theorem Token.value_gives {p : Value → Prop} (hp : Value.IsClosed p) (tokens : List Token) :
    Yields p (Token.value tokens) :=
  Piece.valueOf_gives hp (computeAll_gives hp tokens)

theorem Value.hasReadUnit_isClosed : IsClosed HasReadUnit where
  text := fun _ => trivial
  word := hasReadUnit_ofWord
  call := fun _ => trivial
  operate := fun o => o.operate_hasReadUnit
  eval := fun b => b.eval_hasReadUnit

end Cascade
