import Cascade.Proofs.Printing

/-!
# Blocks that are taken back

A block is printed before it is known whether anything will stand in it, and is taken back to
where it began if nothing does. The calls that open and close blocks are seen here as brackets:
a sequence of calls in which they match is read as a forest (`Call.forest?`), and what a writer
has in the end is that forest without the blocks that nothing is printed in
(`Node.pruneAll`), printed one node after the other and no longer with anything taken back
(`Node.prettyAll`).

While blocks are open a writer stands where it would stand if they were never closed: the nodes
read so far are printed and so is the line that opens each block (`Session.reach`). Every call
goes from one such writer to the next (`Session.step?_reach`), and closing a block turns what was
printed since it was opened into one node.
-/

namespace Cascade.Css

/-! ## Forests without empty blocks -/

namespace Node

mutual

/-- Whether nothing is printed at any depth of a node but the blocks themselves. -/
def isVoid : Node → Bool
  | raw t => t.isEmpty
  | directive _ | rule _ _ | bare _ => false
  | block _ body => areVoid body

def areVoid : List Node → Bool
  | [] => true
  | node :: rest => node.isVoid && areVoid rest

end

mutual

/-- A node without the blocks that nothing is printed in. It may be such a block itself. -/
def prune : Node → List Node
  | block prelude body => if areVoid body then [] else [block prelude (pruneAll body)]
  | node => [node]

def pruneAll : List Node → List Node
  | [] => []
  | node :: rest => node.prune ++ pruneAll rest

end

mutual

/-- The text of a node that stands so far in, with every block written out. -/
def pretty (indentation : Nat) : Node → Text
  | block prelude body =>
    line indentation (prelude ++ " \x7b") ++
      prettyAll (indentation + 2) body ++ line indentation ['\x7d']
  | node => node.print indentation

def prettyAll (indentation : Nat) : List Node → Text
  | [] => []
  | node :: rest => node.pretty indentation ++ prettyAll indentation rest

end

@[simp] theorem prettyAll_append (indentation : Nat) (nodes nodes' : List Node) :
    prettyAll indentation (nodes ++ nodes') =
      prettyAll indentation nodes ++ prettyAll indentation nodes' := by
  induction nodes with
  | nil => rfl
  | cons node rest ih => simp [prettyAll, ih]

mutual

/-- A node has no text exactly if nothing is printed in it. -/
theorem print_eq_nil (indentation : Nat) : ∀ node : Node,
    node.print indentation = [] ↔ node.isVoid = true
  | raw t => by
      rw [print, isVoid]
      split <;> cases t <;> simp_all
  | directive t => by simp [print, isVoid, line_ne_nil]
  | rule selectors declarations => by simp [print, isVoid, line_ne_nil]
  | bare declarations => by simp [print, isVoid, line_ne_nil]
  | block prelude body => by
      have hbody := printAll_eq_nil (indentation + 2) body
      rw [print, isVoid, ← hbody]
      split <;> simp_all [line_ne_nil]

theorem printAll_eq_nil (indentation : Nat) : ∀ nodes : List Node,
    printAll indentation nodes = [] ↔ areVoid nodes = true
  | [] => by simp [printAll, areVoid]
  | node :: rest => by
      rw [printAll, areVoid, List.append_eq_nil_iff, Bool.and_eq_true, print_eq_nil,
        printAll_eq_nil]

end

mutual

/-- What is printed with the empty blocks taken back is the pruned forest. -/
theorem print_eq_prettyAll (indentation : Nat) : ∀ node : Node,
    node.print indentation = prettyAll indentation node.prune
  | raw _ | directive _ | rule _ _ | bare _ => by simp [prune, prettyAll, pretty]
  | block prelude body => by
      have hbody := printAll_eq_prettyAll (indentation + 2) body
      have hvoid := printAll_eq_nil (indentation + 2) body
      rw [prune]
      split
      · rename_i h
        rw [print, hvoid.mpr h]
        rfl
      · rename_i h
        obtain ⟨c, inside, hinside⟩ := List.exists_cons_of_ne_nil (mt hvoid.mp h)
        rw [print, hinside]
        simp [prettyAll, pretty, ← hbody, hinside]

theorem printAll_eq_prettyAll (indentation : Nat) : ∀ nodes : List Node,
    printAll indentation nodes = prettyAll indentation (pruneAll nodes)
  | [] => rfl
  | node :: rest => by
      rw [printAll, pruneAll, prettyAll_append, print_eq_prettyAll, printAll_eq_prettyAll]

end

end Node

/-! ## Calls -/

/-- What is written with one call, without any block. -/
inductive Entry where
  | raw (t : Text)
  | directive (t : Text)
  | rule (selectors : List Text) (declarations : List Declaration)
  | bare (declarations : List Declaration)
  | inline (prelude : Text) (declarations : List Declaration)

inductive Call where
  | entry (e : Entry)
  | opening (prelude : Text)
  | closing

namespace Entry

def node : Entry → Node
  | raw t => .raw t
  | directive t => .directive t
  | rule selectors declarations => .rule selectors declarations
  | bare declarations => .bare declarations
  | inline prelude declarations => .rule [prelude] declarations

def write (w : Writer) : Entry → Writer
  | raw t => w.raw t
  | directive t => w.directive t
  | rule selectors declarations => w.styleRule selectors declarations
  | bare declarations => w.bareDeclarations declarations
  | inline prelude declarations => w.inlineAtRule prelude declarations

theorem write_eq (w : Writer) (e : Entry) : e.write w = w.append (e.node.print w.indentation) := by
  cases e with
  | raw t => exact w.raw_eq t
  | directive t => exact w.directive_eq t
  | rule selectors declarations => exact w.styleRule_eq selectors declarations
  | bare declarations => exact w.bareDeclarations_eq declarations
  | inline prelude declarations => exact w.inlineAtRule_eq prelude declarations

end Entry

namespace Call

/-- The number of blocks that are open after a call, which closes none that is not open. -/
def depth? : (depth : Nat) → Call → Option Nat
  | depth, entry _ => some depth
  | depth, opening _ => some (depth + 1)
  | 0, closing => none
  | depth + 1, closing => some depth

/-- Every block is closed, and nothing else. -/
def AreBracketed (calls : List Call) : Prop := calls.foldlM depth? 0 = some 0

instance (calls : List Call) : Decidable (AreBracketed calls) :=
  inferInstanceAs (Decidable (_ = _))

end Call

/-- A forest that is being read. -/
structure Reading where
  /-- The blocks that are open, the innermost first, each with the nodes before it. -/
  opened : List (Text × List Node)
  /-- The nodes of the innermost block so far. -/
  nodes : List Node

def Reading.step? (r : Reading) : Call → Option Reading
  | .entry e => some { r with nodes := r.nodes ++ [e.node] }
  | .opening prelude => some ⟨(prelude, r.nodes) :: r.opened, []⟩
  | .closing =>
    match r.opened with
    | [] => none
    | (prelude, before) :: opened => some ⟨opened, before ++ [.block prelude r.nodes]⟩

/-- The forest of a sequence of calls. -/
def Call.forest? (calls : List Call) : Option (List Node) := do
  let r ← calls.foldlM Reading.step? ⟨[], []⟩
  if r.opened.isEmpty then some r.nodes else none

/-- A writer, and the marks of the blocks that are open, the innermost first. -/
structure Session where
  writer : Writer
  marks : List Mark

def Session.enter (s : Session) (prelude : Text) : Session :=
  ⟨(s.writer.openBlock prelude).2, (s.writer.openBlock prelude).1 :: s.marks⟩

/-- A block is closed with the mark it was opened with. Nothing if there is none, or if the
writer is not as far in as a block. -/
def Session.step? (s : Session) : Call → Option Session
  | .entry e => some { s with writer := e.write s.writer }
  | .opening prelude => some (s.enter prelude)
  | .closing =>
    match s.marks with
    | [] => none
    | mark :: marks =>
      if s.writer.indentation < Writer.indentWidth then none
      else some ⟨s.writer.closeBlock mark, marks⟩

def Session.run? (s : Session) (calls : List Call) : Option Session := calls.foldlM step? s

/-! ## From depths to forests -/

namespace Reading

variable {r : Reading} {depth : Nat}

theorem exists_step? {call : Call} (h : call.depth? r.opened.length = some depth) :
    ∃ r', r.step? call = some r' ∧ r'.opened.length = depth := by
  obtain ⟨opened, nodes⟩ := r
  cases call with
  | entry e =>
      cases h
      exact ⟨_, rfl, rfl⟩
  | opening prelude =>
      cases h
      exact ⟨_, rfl, rfl⟩
  | closing =>
      cases opened with
      | nil => cases h
      | cons first opened =>
          cases h
          exact ⟨_, rfl, rfl⟩

theorem exists_run? {calls : List Call}
    (h : calls.foldlM Call.depth? r.opened.length = some depth) :
    ∃ r', calls.foldlM step? r = some r' ∧ r'.opened.length = depth := by
  induction calls generalizing r with
  | nil =>
      cases h
      exact ⟨r, rfl, rfl⟩
  | cons call rest ih =>
      rw [List.foldlM_cons] at h
      obtain ⟨next, hcall, hrest⟩ := Option.bind_eq_some_iff.mp h
      obtain ⟨r', hstep, rfl⟩ := exists_step? hcall
      obtain ⟨r'', hrun, hdepth⟩ := ih hrest
      exact ⟨r'', by rw [List.foldlM_cons, hstep]; exact hrun, hdepth⟩

end Reading

/-! ## From forests to what is written -/

namespace Session

/-- After nodes have been printed. -/
def print (s : Session) (nodes : List Node) : Session :=
  { s with writer := s.writer.append (Node.printAll s.writer.indentation nodes) }

/-- Where a session comes to that goes on to read. -/
def reach (s : Session) (r : Reading) : Session :=
  (r.opened.foldr (fun block outer => (outer.print block.2).enter block.1) s).print r.nodes

variable {s : Session} {r r' : Reading}

@[simp] theorem print_nil (s : Session) : s.print [] = s := by
  simp [print, Node.printAll]

theorem print_print (s : Session) (nodes nodes' : List Node) :
    (s.print nodes).print nodes' = s.print (nodes ++ nodes') := by
  simp [print]

theorem step?_entry (s : Session) (e : Entry) :
    s.step? (.entry e) = some (s.print [e.node]) := by
  rw [step?, e.write_eq, print, Node.printAll_singleton]

/-- A block that is closed is a node behind what was printed before it was opened. -/
theorem step?_closing (s : Session) (prelude : Text) (nodes : List Node) :
    ((s.enter prelude).print nodes).step? .closing = some (s.print [.block prelude nodes]) := by
  have hdeep : ¬ ((s.enter prelude).print nodes).writer.indentation < Writer.indentWidth :=
    Nat.not_lt.mpr (Nat.le_add_left ..)
  have hmarks : ((s.enter prelude).print nodes).marks = (s.writer.openBlock prelude).1 :: s.marks :=
    rfl
  have hclose := s.writer.closeBlock_openBlock prelude nodes
  rw [← Node.printAll_singleton] at hclose
  rw [step?, hmarks]
  simp only [if_neg hdeep]
  exact congrArg (fun w => some (Session.mk w s.marks)) hclose

/-- With every call a session goes on as the forest does that is read. -/
theorem step?_reach {call : Call} (h : r.step? call = some r') :
    (s.reach r).step? call = some (s.reach r') := by
  obtain ⟨opened, nodes⟩ := r
  cases call with
  | entry e =>
      cases h
      rw [step?_entry, reach, print_print]
      rfl
  | opening prelude =>
      cases h
      rw [step?, reach, reach, print_nil]
      rfl
  | closing =>
      cases opened with
      | nil => cases h
      | cons first opened =>
          cases h
          rw [reach, List.foldr_cons, step?_closing, print_print]
          rfl

theorem run?_reach {calls : List Call} (h : calls.foldlM Reading.step? r = some r') :
    (s.reach r).run? calls = some (s.reach r') := by
  induction calls generalizing r with
  | nil =>
      cases h
      rfl
  | cons call rest ih =>
      rw [List.foldlM_cons] at h
      obtain ⟨next, hstep, hrest⟩ := Option.bind_eq_some_iff.mp h
      rw [run?, List.foldlM_cons, step?_reach hstep]
      exact ih hrest

/-- The calls go through from one session to another, which has the pruned forest printed
behind what was there, and is as before otherwise. -/
structure Writes (s : Session) (calls : List Call) (forest : List Node) (s' : Session) : Prop where
  run : s.run? calls = some s'
  text : s'.writer.text =
    s.writer.text ++ Node.prettyAll s.writer.indentation (Node.pruneAll forest)
  indentation : s'.writer.indentation = s.writer.indentation
  marks : s'.marks = s.marks

/-- Calls that match are those of a forest, and from any session on they write it. -/
theorem exists_writes {calls : List Call} (h : Call.AreBracketed calls) :
    ∃ forest, Call.forest? calls = some forest ∧ ∀ s : Session, ∃ s', s.Writes calls forest s' := by
  obtain ⟨⟨opened, forest⟩, hrun, hdepth⟩ := Reading.exists_run? (r := ⟨[], []⟩) h
  obtain rfl : opened = [] := List.length_eq_zero_iff.mp hdepth
  refine ⟨forest, by rw [Call.forest?, hrun]; rfl, fun s => ⟨s.print forest, ?_, ?_, rfl, rfl⟩⟩
  · have hreach := run?_reach (s := s) hrun
    rwa [reach, reach, List.foldr_nil, print_nil] at hreach
  · rw [← Node.printAll_eq_prettyAll]
    exact Writer.append_buffer_toList ..

/-- The first block is left with one rule in it, and of the second nothing is. -/
theorem exists_writes_media :
    let calls : List Call :=
      [.opening "@media print", .opening "@supports (a: b)", .closing,
        .entry (.rule ["p".toList] [⟨"color", "red"⟩]), .closing,
        .opening "@media screen", .opening "@supports (a: b)", .entry (.raw []), .closing,
        .closing]
    Call.AreBracketed calls ∧
      (∃ forest, Call.forest? calls = some forest ∧
        ∀ s : Session, ∃ s', s.Writes calls forest s') ∧
      ((Session.run? ⟨.empty, []⟩ calls).map fun s => s.writer.text) =
        some "@media print \x7b\n  p \x7b color: red; \x7d\n\x7d\n" :=
  ⟨by decide, exists_writes (by decide), by decide⟩

end Session

end Cascade.Css
