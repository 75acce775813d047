import Cascade.Proofs.Lines

/-!
# Frames

What is written around a rule is a frame with a hole in it. The frame is not only lines
before and after: an at-rule around the rule opens and closes a block, and takes it back if
nothing is written in it. So of all that is written for other rules, these two lines are what
can depend on whether the rule writes anything (`Css.Frame.filter_apart`,
`Css.Frame.filter_outside`).

`Framed` says of two computations that they come to lines in one and the same frame.
-/

namespace Cascade

/-- What is next to a rule and not around it is not in it. -/
theorem Address.not_suffix_cons {a p : Address} {step : Descent} (hnext : ¬(step :: a) <:+ p)
    (ha : ¬p <:+ a) : ¬p <:+ step :: a := by
  intro h
  rcases List.suffix_cons_iff.mp h with rfl | h
  · exact hnext List.suffix_rfl
  · exact ha h

/-- Of all that is in a block, one at the most is around a rule. -/
theorem Address.step_unique {a p : Address} {step step' : Descent} (h : (step :: a) <:+ p)
    (h' : (step' :: a) <:+ p) : step = step' :=
  (List.cons.inj ((List.suffix_of_suffix_length_le h h' (Nat.le_refl _)).eq_of_length rfl)).1

theorem Address.not_suffix_after {a p : Address} {step : Nat → Descent} {i : Nat}
    (hstep : Function.Injective step) (h : (step i :: a) <:+ p) :
    ∀ j, i + 1 ≤ j → ¬(step j :: a) <:+ p := by
  intro j hj hsuffix
  obtain rfl := hstep (step_unique h hsuffix)
  exact Nat.not_succ_le_self i hj

namespace Css

namespace Line

variable {a b p : Address} {l : Line}

/-- A line that is not written for the rule with the address `p` or a rule in it, and
neither opens nor closes a block around it. -/
def Apart (p : Address) (l : Line) : Prop := ¬p <:+ l.place ∧ ¬(l.edge = true ∧ l.place <:+ p)

instance (p : Address) : DecidablePred (Apart p) := fun _ => inferInstanceAs (Decidable (_ ∧ _))

instance (p : Address) : DecidablePred (Within p) := fun _ => inferInstanceAs (Decidable (_ <:+ _))

/-- The lines of one rule are apart from another, if neither is in the other. -/
theorem Within.apart (h : l.Within b) (hbp : ¬b <:+ p) (hpb : ¬p <:+ b) : l.Apart p := by
  refine ⟨fun hp => ?_, fun hedge => hbp (h.trans hedge.2)⟩
  exact (List.suffix_or_suffix_of_suffix hp h).elim hpb hbp

theorem Among.apart {step : Nat → Descent} {i : Nat} (h : l.Among step a i)
    (hnext : ∀ j, i ≤ j → ¬(step j :: a) <:+ p) (ha : ¬p <:+ a) : l.Apart p := by
  obtain ⟨j, hj, hwithin⟩ := h
  exact hwithin.apart (hnext j hj) (Address.not_suffix_cons (hnext j hj) ha)

theorem apart_ofNode (h : ¬p <:+ a) (indentation : Nat) (n : Node) :
    (ofNode a indentation n).Apart p :=
  ⟨h, fun hedge => Bool.false_ne_true hedge.1⟩

end Line

theorem Line.filter_block (P : Line → Bool) (place : Address) (indentation : Nat) (prelude : Text)
    (inside : List Line) : (block place indentation prelude inside).filter P =
      if inside.isEmpty then []
      else
        [Line.mk place true (Node.line indentation (prelude ++ " \x7b"))].filter P ++
          inside.filter P ++ [Line.mk place true (Node.line indentation ['\x7d'])].filter P := by
  unfold block
  split
  · rfl
  · rw [← List.filter_append, ← List.filter_append]
    rfl

/-- What is written around a rule. -/
inductive Frame where
  | hole
  | beside (before : List Line) (frame : Frame) (after : List Line)
  | block (place : Address) (indentation : Nat) (prelude : Text) (frame : Frame)

namespace Frame

/-- The lines of a frame with the lines of the rule in it. -/
def fill (inner : List Line) : Frame → List Line
  | hole => inner
  | beside before frame after => before ++ frame.fill inner ++ after
  | block place indentation prelude frame =>
    Line.block place indentation prelude (frame.fill inner)

/-- A frame for the rule with the address `p`: the lines beside it are for other rules, the
blocks are around it. -/
def Around (p : Address) : Frame → Prop
  | hole => True
  | beside before frame after => (∀ l ∈ before ++ after, l.Apart p) ∧ frame.Around p
  | block place _ _ frame => place <:+ p ∧ place ≠ p ∧ frame.Around p

/-- The lines beside, without the blocks. -/
def sides : Frame → List Line
  | hole => []
  | beside before frame after => before ++ frame.sides ++ after
  | block _ _ _ frame => frame.sides

variable {p : Address} {inner inner' : List Line}

theorem mem_fill {l : Line} (h : l ∈ inner) : ∀ frame : Frame, l ∈ frame.fill inner
  | hole => h
  | beside before frame after =>
      List.mem_append_left _ (List.mem_append_right _ (frame.mem_fill h))
  | block place indentation prelude frame => by
      have hmem := frame.mem_fill h
      rw [fill, Line.block, if_neg (by simpa using List.ne_nil_of_mem hmem)]
      exact List.mem_append_left _ (List.mem_cons_of_mem _ hmem)

/-- A block around a rule is not for the rule. -/
theorem not_within_block {place : Address} {l : Line} (hplace : place <:+ p) (hne : place ≠ p)
    (hl : l.place = place) : ¬l.Within p := by
  intro h
  rw [Line.Within, hl] at h
  exact hne (hplace.eq_of_length (Nat.le_antisymm hplace.length_le h.length_le))

/-- All that is within the rule fills the hole. -/
theorem mem_of_within {l : Line} (hl : l.Within p) :
    ∀ frame : Frame, frame.Around p → l ∈ frame.fill inner → l ∈ inner
  | hole, _, hmem => hmem
  | beside before frame after, h, hmem => by
      rcases List.mem_append.mp hmem with hmem | hmem
      · rcases List.mem_append.mp hmem with hmem | hmem
        · exact ((h.1 l (List.mem_append_left _ hmem)).1 hl).elim
        · exact frame.mem_of_within hl h.2 hmem
      · exact ((h.1 l (List.mem_append_right _ hmem)).1 hl).elim
  | block place indentation prelude frame, h, hmem => by
      obtain ⟨hplace, hne, haround⟩ := h
      rw [fill, Line.block] at hmem
      split at hmem
      · cases hmem
      · rcases List.mem_append.mp hmem with hmem | hmem
        · rcases List.mem_cons.mp hmem with rfl | hmem
          · exact (not_within_block hplace hne rfl hl).elim
          · exact frame.mem_of_within hl haround hmem
        · exact (not_within_block hplace hne (List.mem_singleton.mp hmem ▸ rfl) hl).elim

theorem filter_apart (hinner : ∀ l ∈ inner, l.Within p) : ∀ frame : Frame, frame.Around p →
    (frame.fill inner).filter (·.Apart p) = frame.sides
  | hole, _ => List.filter_eq_nil_iff.mpr fun l hl => by simpa using fun h => h.1 (hinner l hl)
  | beside before frame after, h => by
      have hbefore : before.filter (·.Apart p) = before := List.filter_eq_self.mpr fun l hl =>
        decide_eq_true (h.1 l (List.mem_append_left _ hl))
      have hafter : after.filter (·.Apart p) = after := List.filter_eq_self.mpr fun l hl =>
        decide_eq_true (h.1 l (List.mem_append_right _ hl))
      rw [fill, List.filter_append, List.filter_append, frame.filter_apart hinner h.2, hbefore,
        hafter, sides]
  | block place indentation prelude frame, h => by
      have hedge (t : Text) : [Line.mk place true t].filter (·.Apart p) = [] :=
        List.filter_eq_nil_iff.mpr fun l hl => by
          rw [List.mem_singleton.mp hl]
          simpa using fun hapart : Line.Apart p _ => hapart.2 ⟨rfl, h.1⟩
      rw [fill, sides, Line.filter_block, hedge, hedge, List.nil_append, List.append_nil,
        frame.filter_apart hinner h.2.2]
      split
      · rename_i hempty
        rw [← frame.filter_apart hinner h.2.2, List.isEmpty_iff.mp hempty, List.filter_nil]
      · rfl

theorem isEmpty_fill (h : inner.isEmpty = inner'.isEmpty) :
    ∀ frame : Frame, (frame.fill inner).isEmpty = (frame.fill inner').isEmpty
  | hole => h
  | beside before frame after => by
      have hempty (lines : List Line) : (before ++ lines ++ after).isEmpty =
          (before.isEmpty && lines.isEmpty && after.isEmpty) := by
        cases before <;> cases lines <;> cases after <;> rfl
      rw [fill, fill, hempty, hempty, frame.isEmpty_fill h]
  | block place indentation prelude frame => by
      rw [fill, fill, Line.block, Line.block, frame.isEmpty_fill h]
      split <;> rfl

theorem filter_outside (hinner : ∀ l ∈ inner, l.Within p) (hinner' : ∀ l ∈ inner', l.Within p)
    (h : inner.isEmpty = inner'.isEmpty) : ∀ frame : Frame, frame.Around p →
      (frame.fill inner).filter (¬·.Within p) = (frame.fill inner').filter (¬·.Within p)
  | hole, _ => by
      have hnil {lines : List Line} (hlines : ∀ l ∈ lines, l.Within p) :
          lines.filter (¬·.Within p) = [] :=
        List.filter_eq_nil_iff.mpr fun l hl => by simpa using hlines l hl
      rw [fill, fill, hnil hinner, hnil hinner']
  | beside before frame after, haround => by
      rw [fill, fill, List.filter_append, List.filter_append, List.filter_append,
        List.filter_append, frame.filter_outside hinner hinner' h haround.2]
  | block place indentation prelude frame, haround => by
      rw [fill, fill, Line.filter_block, Line.filter_block, frame.isEmpty_fill h,
        frame.filter_outside hinner hinner' h haround.2.2]

end Frame

end Css

open Css (Line Frame)

/-- The lines are two fillings of one frame around the rule with the address `p`. -/
def Css.SameFrame (p : Address) (lines lines' : List Line) : Prop :=
  ∃ frame inner inner', Frame.Around p frame ∧ lines = frame.fill inner ∧
    lines' = frame.fill inner' ∧ (∀ l ∈ inner, l.Within p) ∧ ∀ l ∈ inner', l.Within p

namespace Css.SameFrame

variable {p : Address} {lines lines' : List Line}

/-- What is neither for the rule nor opens or closes a block around it is the same. -/
theorem apart (h : SameFrame p lines lines') :
    lines.filter (·.Apart p) = lines'.filter (·.Apart p) := by
  obtain ⟨frame, inner, inner', haround, rfl, rfl, hinner, hinner'⟩ := h
  rw [frame.filter_apart hinner haround, frame.filter_apart hinner' haround]

/-- So are the blocks around the rule, if something is written for it in both or in neither. -/
theorem outside (h : SameFrame p lines lines')
    (hiff : (∃ l ∈ lines, l.Within p) ↔ ∃ l ∈ lines', l.Within p) :
    lines.filter (¬·.Within p) = lines'.filter (¬·.Within p) := by
  obtain ⟨frame, inner, inner', haround, rfl, rfl, hinner, hinner'⟩ := h
  have hfills {ls : List Line} (hls : ∀ l ∈ ls, l.Within p) :
      (∃ l ∈ frame.fill ls, l.Within p) ↔ ls ≠ [] := by
    refine ⟨fun ⟨l, hl, hwithin⟩ => ?_, fun hne => ?_⟩
    · exact List.ne_nil_of_mem (frame.mem_of_within hwithin haround hl)
    · obtain ⟨l, hl⟩ := List.exists_mem_of_ne_nil ls hne
      exact ⟨l, frame.mem_fill hl, hls l hl⟩
  rw [hfills hinner, hfills hinner'] at hiff
  refine frame.filter_outside hinner hinner' ?_ haround
  rw [Bool.eq_iff_iff, List.isEmpty_iff, List.isEmpty_iff]
  exact not_iff_not.mp hiff

end Css.SameFrame

/-- If both come to lines, these have the same frame. -/
def Framed (p : Address) (lines lines' : Except Fault (List Line)) : Prop :=
  ∀ ls ls', lines = .ok ls → lines' = .ok ls' → Css.SameFrame p ls ls'

namespace Framed

variable {α : Type} {p : Address}
  {lines lines' first first' last last' : Except Fault (List Line)}

/-- The lines of the rule itself. -/
theorem hole (h : ∀ ls, lines = .ok ls → ∀ l ∈ ls, l.Within p)
    (h' : ∀ ls, lines' = .ok ls → ∀ l ∈ ls, l.Within p) : Framed p lines lines' :=
  fun ls ls' hls hls' => ⟨.hole, ls, ls', trivial, rfl, rfl, h ls hls, h' ls' hls'⟩

theorem apart_of_nil {ls : List Line} (h : (pure [] : Except Fault (List Line)) = .ok ls) :
    ∀ l ∈ ls, l.Apart p := by
  cases h
  exact nofun

/-- Lines that have nothing to do with the rule. -/
theorem same (h : ∀ ls, lines = .ok ls → ∀ l ∈ ls, l.Apart p) : Framed p lines lines := by
  intro ls ls' hls hls'
  obtain rfl : ls = ls' := Except.ok.inj (hls.symm.trans hls')
  refine ⟨.beside ls .hole [], [], [], ⟨fun l hl => h ls hls l ?_, trivial⟩, ?_, ?_, nofun, nofun⟩
  · exact (List.mem_append.mp hl).elim id nofun
  · simp [Frame.fill]
  · simp [Frame.fill]

theorem after {e : Except Fault α} {f f' : α → Except Fault (List Line)}
    (h : ∀ a, e = .ok a → Framed p (f a) (f' a)) : Framed p (e >>= f) (e >>= f') := by
  cases e with
  | error fault => exact nofun
  | ok a => exact h a rfl

theorem map (F : List Line → List Line) (wrap : Frame → Frame) (h : Framed p lines lines')
    (hwrap : ∀ frame, Frame.Around p frame → Frame.Around p (wrap frame))
    (hfill : ∀ frame inner, F (Frame.fill inner frame) = (wrap frame).fill inner) :
    Framed p (do return F (← lines)) (do return F (← lines')) := by
  cases lines with
  | error => exact nofun
  | ok ls =>
      cases lines' with
      | error => exact nofun
      | ok ls' =>
          obtain ⟨frame, inner, inner', haround, rfl, rfl, hinner, hinner'⟩ := h _ _ rfl rfl
          intro all all' hall hall'
          cases hall
          cases hall'
          exact ⟨wrap frame, inner, inner', hwrap frame haround, hfill frame inner,
            hfill frame inner', hinner, hinner'⟩

/-- Lines before that have nothing to do with the rule. -/
theorem before (heq : first = first') (hfirst : ∀ ls, first = .ok ls → ∀ l ∈ ls, l.Apart p)
    (h : Framed p lines lines') :
    Framed p (do return (← first) ++ (← lines)) (do return (← first') ++ (← lines')) := by
  subst heq
  refine .after fun ls hls => map (ls ++ ·) (fun frame => .beside ls frame []) h ?_ ?_
  · refine fun frame haround => ⟨fun l hl => hfirst ls hls l ?_, haround⟩
    rwa [List.append_nil] at hl
  · intro frame inner
    rw [Frame.fill, List.append_nil]

/-- Lines after it. -/
theorem behind (heq : last = last') (hlast : ∀ ls, last = .ok ls → ∀ l ∈ ls, l.Apart p)
    (h : Framed p lines lines') :
    Framed p (do return (← lines) ++ (← last)) (do return (← lines') ++ (← last')) := by
  subst heq
  cases last with
  | error fault =>
      cases lines <;> exact nofun
  | ok ls =>
      exact map (· ++ ls) (fun frame => .beside [] frame ls) h
        (fun frame haround => ⟨hlast ls rfl, haround⟩) fun frame inner => rfl

/-- A block around it. -/
theorem block {place : Address} (indentation : Nat) (prelude : Text) (hplace : place <:+ p)
    (hne : place ≠ p) (h : Framed p lines lines') :
    Framed p (do return Line.block place indentation prelude (← lines))
      (do return Line.block place indentation prelude (← lines')) :=
  map (Line.block place indentation prelude) (.block place indentation prelude) h
    (fun _ haround => ⟨hplace, hne, haround⟩) fun _ _ => rfl

end Framed

end Cascade
