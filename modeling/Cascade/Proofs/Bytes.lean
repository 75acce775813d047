import Cascade.Proofs.Braces
import Cascade.Sheet.ImportTarget
import Cascade.Sheet.Prelude
import Mathlib.Data.String.Basic

/-!
# Cuts between characters

Where text is kept in bytes, a part of it is named by two offsets, and it is an error
if one of them lies within a character, or past the end, or after the other.
`Text.between?` gives the part only where there is no such error. Each place at which
the reader takes a text apart is a cut between characters, so the offsets are good and
the part is the one that is meant:

- the pieces of a text at its separators (`Text.between?_ranges`);
- what precedes the parenthesis that a final `)` closes, and what is inside
  (`Text.between?_of_lastGroup?`), which a search finds that counts the parentheses it
  passes and never comes below zero (`Text.lastGroup?_spec`);
- the name of a mixin, that of a file to import, and the statement it stands in.
-/

namespace Cascade

open String (utf8Len)

namespace Text

/-! ## Parts of a text by their offsets -/

def dropBytes? : Nat → Text → Option Text
  | 0, t => some t
  | _ + 1, [] => none
  | n + 1, c :: t => if c.utf8Size ≤ n + 1 then dropBytes? (n + 1 - c.utf8Size) t else none

def takeBytes? : Nat → Text → Option Text
  | 0, _ => some []
  | _ + 1, [] => none
  | n + 1, c :: t =>
    if c.utf8Size ≤ n + 1 then (takeBytes? (n + 1 - c.utf8Size) t).map (c :: ·) else none

/-- The part of a text between two offsets, if they are in order and each is the end of
the text or the beginning of a character. -/
def between? (start stop : Nat) (t : Text) : Option Text :=
  if start ≤ stop then (dropBytes? start t).bind (takeBytes? (stop - start)) else none

theorem dropBytes?_append (before t : Text) :
    dropBytes? (utf8Len before) (before ++ t) = some t := by
  induction before with
  | nil => cases t <;> rfl
  | cons c before ih =>
      obtain ⟨n, hn⟩ := Nat.exists_eq_succ_of_ne_zero
        (Nat.ne_of_gt (Nat.add_pos_right (utf8Len before) c.utf8Size_pos))
      rw [String.utf8Len_cons, hn, List.cons_append, dropBytes?, if_pos (by omega),
        show n + 1 - c.utf8Size = utf8Len before by omega, ih]

theorem takeBytes?_append (before t : Text) :
    takeBytes? (utf8Len before) (before ++ t) = some before := by
  induction before with
  | nil => cases t <;> rfl
  | cons c before ih =>
      obtain ⟨n, hn⟩ := Nat.exists_eq_succ_of_ne_zero
        (Nat.ne_of_gt (Nat.add_pos_right (utf8Len before) c.utf8Size_pos))
      rw [String.utf8Len_cons, hn, List.cons_append, takeBytes?, if_pos (by omega),
        show n + 1 - c.utf8Size = utf8Len before by omega, ih]
      rfl

/-- Offsets that lie between characters name the part between them. -/
theorem between?_append (before part after : Text) :
    between? (utf8Len before) (utf8Len before + utf8Len part) (before ++ part ++ after) =
      some part := by
  rw [between?, if_pos (Nat.le_add_right _ _), List.append_assoc, dropBytes?_append,
    Nat.add_sub_cancel_left]
  exact takeBytes?_append part after

/-! ## Separators -/

/-- The offsets of the pieces of a text, where `start` is that of the piece at hand and
`here` that of the next character. -/
def ranges (separator : Char) : Nesting → (start here : Nat) → Text → List (Nat × Nat)
  | _, start, here, [] => [(start, here)]
  | s, start, here, c :: rest =>
    if s.isTop && c == separator then
      (start, here) :: ranges separator s (here + c.utf8Size) (here + c.utf8Size) rest
    else ranges separator (s.step c) start (here + c.utf8Size) rest

theorem exists_splitTop (separator : Char) (s : Nesting) (t : Text) :
    ∃ piece pieces, splitTop separator s t = piece :: pieces := by
  cases t with
  | nil => exact ⟨[], [], rfl⟩
  | cons c rest =>
      rw [splitTop]
      split
      · exact ⟨_, _, rfl⟩
      · split <;> exact ⟨_, _, rfl⟩

theorem splitTop_cons_cut {separator c : Char} {s : Nesting}
    (h : (s.isTop && c == separator) = true) (t : Text) :
    splitTop separator s (c :: t) = [] :: splitTop separator s t := by
  rw [splitTop, if_pos h]

theorem splitTop_cons {separator c : Char} {s : Nesting}
    (h : (s.isTop && c == separator) = false) (t : Text) :
    splitTop separator s (c :: t) = (splitTop separator (s.step c) t).modifyHead (c :: ·) := by
  obtain ⟨piece, pieces, hsplit⟩ := exists_splitTop separator (s.step c) t
  rw [splitTop, h, hsplit]
  rfl

/-- The piece at hand has been begun already. -/
theorem between?_ranges_of (separator : Char) (whole : Text) :
    ∀ (s : Nesting) (before piece rest : Text), whole = before ++ piece ++ rest →
      (ranges separator s (utf8Len before) (utf8Len (before ++ piece)) rest).map
          (fun range => between? range.1 range.2 whole) =
        ((splitTop separator s rest).modifyHead (piece ++ ·)).map some
  | s, before, piece, [], hwhole => by
      rw [ranges, splitTop, hwhole, String.utf8Len_append, List.map_singleton,
        between?_append before piece []]
      simp
  | s, before, piece, c :: rest, hwhole => by
      have hnext : utf8Len (before ++ piece) + c.utf8Size = utf8Len (before ++ piece ++ [c]) := by
        simp [Nat.add_assoc]
      rw [ranges, hnext]
      split
      · rename_i hcut
        have hrest := between?_ranges_of separator whole s (before ++ piece ++ [c]) [] rest
          (by rw [hwhole]; simp)
        obtain ⟨first, others, hsplit⟩ := exists_splitTop separator s rest
        rw [List.append_nil] at hrest
        rw [splitTop_cons_cut hcut, List.map_cons, hrest, hwhole, String.utf8Len_append,
          between?_append before piece (c :: rest), hsplit]
        simp
      · rename_i hcut
        have hrest := between?_ranges_of separator whole (s.step c) before (piece ++ [c]) rest
          (by rw [hwhole]; simp)
        obtain ⟨first, others, hsplit⟩ := exists_splitTop separator (s.step c) rest
        rw [← List.append_assoc] at hrest
        rw [splitTop_cons (Bool.eq_false_iff.mpr hcut), hrest, hsplit]
        simp

/-- The pieces of a text are its parts by these offsets. -/
theorem between?_ranges (separator : Char) (t : Text) :
    (ranges separator .top 0 0 t).map (fun range => between? range.1 range.2 t) =
      (splitTop separator .top t).map some := by
  refine (between?_ranges_of separator t .top [] [] t rfl).trans ?_
  cases splitTop separator .top t <;> rfl

/-! ## The group at the end -/

/-- Wherever a search from the end of the text has come to, it has passed no more opening
parentheses than closing ones, `further` among them that the text is followed by. -/
def NeverOpens (further : Nat) (passed : Text) : Prop :=
  ∀ u, u <:+ passed → u.count '(' ≤ u.count ')' + further

theorem NeverOpens.concat {further further' : Nat} {passed : Text} {c : Char}
    (h : NeverOpens further' passed)
    (hc : [c].count '(' + further' ≤ [c].count ')' + further) :
    NeverOpens further (passed ++ [c]) := by
  intro u hu
  rcases List.suffix_concat_iff.mp hu with rfl | ⟨v, rfl, hv⟩
  · exact Nat.zero_le _
  · have := h v hv
    simp only [List.count_append]
    omega

/-- The search from a `)` to the `(` it closes, of which it has passed `inside`. -/
theorem openBackwards_spec :
    ∀ (further : Nat) (inside reversed : Text), match openBackwards further inside reversed with
      | some (before, inside') => ∃ passed, inside' = passed ++ inside ∧
          reversed.reverse = before ++ '(' :: passed ∧ NeverOpens further passed
      | none => NeverOpens further reversed.reverse
  | further, inside, [] => fun u hu => by
      obtain rfl := List.suffix_nil.mp hu
      exact Nat.zero_le _
  | further, inside, c :: rest => by
      have next {further' : Nat} (hc : [c].count '(' + further' ≤ [c].count ')' + further) :
          match openBackwards further' (c :: inside) rest with
          | some (before, inside') => ∃ passed, inside' = passed ++ inside ∧
              (c :: rest).reverse = before ++ '(' :: passed ∧ NeverOpens further passed
          | none => NeverOpens further (c :: rest).reverse := by
        have hrest := openBackwards_spec further' (c :: inside) rest
        cases hopen : openBackwards further' (c :: inside) rest with
        | none =>
            rw [hopen] at hrest
            rw [List.reverse_cons]
            exact NeverOpens.concat hrest hc
        | some found =>
            rw [hopen] at hrest
            obtain ⟨passed, hinside, hreverse, hnever⟩ := hrest
            refine ⟨passed ++ [c], ?_, ?_, hnever.concat hc⟩
            · rw [hinside, List.append_assoc, List.singleton_append]
            · rw [List.reverse_cons, hreverse, List.append_assoc, List.cons_append]
      rw [openBackwards.eq_def]
      by_cases hclose : c = ')'
      · simp only [if_pos hclose]
        exact next (by simp [hclose, Nat.add_comm])
      by_cases hopen : c = '('
      · simp only [if_neg hclose, if_pos hopen]
        cases further with
        | zero =>
            refine ⟨[], rfl, by rw [List.reverse_cons, hopen], fun u hu => ?_⟩
            obtain rfl := List.suffix_nil.mp hu
            exact Nat.zero_le _
        | succ further => exact next (by simp [hopen, Nat.add_comm])
      · simp only [if_neg hclose, if_neg hopen]
        exact next (by simp [hclose, hopen])

/-- The group at the end of a text. What is passed to find it never opens more than it
closes, and neither does all of the text if there is no group. -/
theorem lastGroup?_spec (t : Text) : match lastGroup? t with
    | some (before, inside) => t = before ++ '(' :: (inside ++ [')']) ∧
        NeverOpens 0 ('(' :: (inside ++ [')']))
    | none => t.getLast? = some ')' → NeverOpens 0 t := by
  unfold lastGroup?
  split
  · rename_i before inside hfound
    split at hfound
    · rename_i rest hreverse
      have hspec := openBackwards_spec 0 [] rest
      rw [hfound] at hspec
      obtain ⟨passed, rfl, hpassed, hnever⟩ := hspec
      rw [List.append_nil]
      refine ⟨?_, fun u hu => ?_⟩
      · rw [← List.reverse_reverse t, hreverse, List.reverse_cons, hpassed, List.append_assoc,
          List.cons_append]
      · rcases List.suffix_cons_iff.mp hu with rfl | hu
        · have := hnever passed List.suffix_rfl
          simpa using this
        · exact hnever.concat (by simp) u hu
    · cases hfound
  · rename_i hnone
    intro hlast
    split at hnone
    · rename_i rest hreverse
      have hspec := openBackwards_spec 0 [] rest
      rw [hnone] at hspec
      rw [← List.reverse_reverse t, hreverse, List.reverse_cons]
      exact NeverOpens.concat hspec (by simp)
    · rename_i hother
      obtain ⟨before, rfl⟩ := List.getLast?_eq_some_iff.mp hlast
      exact (hother before.reverse (by simp)).elim

theorem between?_of_lastGroup? {t before inside : Text} (h : lastGroup? t = some (before, inside)) :
    between? 0 (utf8Len before) t = some before ∧
      between? (utf8Len before + 1) (utf8Len t - 1) t = some inside := by
  have hspec := lastGroup?_spec t
  rw [h] at hspec
  obtain ⟨rfl, -⟩ := hspec
  constructor
  · have := between?_append [] before ('(' :: (inside ++ [')']))
    simpa using this
  · have := between?_append (before ++ ['(']) inside [')']
    simp only [String.utf8Len_append, String.utf8Len_cons, String.utf8Len_nil,
      (by decide : '('.utf8Size = 1), (by decide : ')'.utf8Size = 1)] at this ⊢
    convert this using 2
    · omega
    · simp

/-! ## Names and leads -/

theorem take_append_drop_take {α : Type} {m n : Nat} {l : List α} (h : m ≤ n) :
    l.take m ++ (l.take n).drop m = l.take n := by
  conv_rhs => rw [← List.take_append_drop m (l.take n)]
  rw [List.take_take, Nat.min_eq_left h]

/-- A text falls apart between any two of its characters. -/
theorem between?_take_take {m n : Nat} (h : m ≤ n) (t : Text) :
    between? (utf8Len (t.take m)) (utf8Len (t.take n)) t = some ((t.take n).drop m) := by
  have := between?_append (t.take m) ((t.take n).drop m) (t.drop n)
  rwa [← String.utf8Len_append, take_append_drop_take h, List.take_append_drop] at this

theorem between?_take_drop (n : Nat) (t : Text) :
    between? 0 (utf8Len (t.take n)) t = some (t.take n) ∧
      between? (utf8Len (t.take n)) (utf8Len t) t = some (t.drop n) := by
  refine ⟨between?_take_take (Nat.zero_le n) t, ?_⟩
  have := between?_take_take (Nat.le_max_left n t.length) t
  rwa [List.take_of_length_le (Nat.le_max_right ..)] at this

theorem utf8Len_take_lt {m n : Nat} {t : Text} (h : m < n) (hn : n ≤ t.length) :
    utf8Len (t.take m) < utf8Len (t.take n) := by
  have hne : utf8Len ((t.take n).drop m) ≠ 0 := by
    rw [Ne, String.utf8Len_eq_zero, List.drop_eq_nil_iff, List.length_take]
    omega
  rw [← take_append_drop_take (Nat.le_of_lt h), String.utf8Len_append]
  omega

/-- A character that takes one byte, is no white space and ends neither a definition nor
an import. -/
def IsPlain (c : Char) : Prop :=
  c.utf8Size = 1 ∧ isBlank c = false ∧ Statement.endsDefinition c = false

instance (c : Char) : Decidable (IsPlain c) := inferInstanceAs (Decidable (_ ∧ _ ∧ _))

theorem isPlain_of_toLower {c : Char} (h : c.toLower ∈ "@import".toList) : IsPlain c := by
  by_cases hupper : 'A'.toNat ≤ c.toNat ∧ c.toNat ≤ 'Z'.toNat
  · have hall : ∀ n ≤ 'Z'.toNat, 'A'.toNat ≤ n → IsPlain (Char.ofNat n) := by decide
    rw [← Char.ofNat_toNat c]
    exact hall c.toNat hupper.2 hupper.1
  · have hlower : c.toLower = c := dif_neg hupper
    rw [hlower] at h
    have hall : "@import".toList.all (fun c => decide (IsPlain c)) = true := by decide
    exact of_decide_eq_true (List.all_eq_true.mp hall c h)

theorem utf8Len_of_isPlain {t : Text} (h : ∀ c ∈ t, IsPlain c) : utf8Len t = t.length := by
  induction t with
  | nil => rfl
  | cons c rest ih =>
      rw [String.utf8Len_cons, (h c (List.mem_cons_self ..)).1,
        ih fun c hc => h c (List.mem_cons_of_mem _ hc)]
      rfl

theorem of_afterIgnoringCase? :
    ∀ {lead t rest : Text}, afterIgnoringCase? lead t = some rest →
      ∃ head, t = head ++ rest ∧ head.map Char.toLower = lead.map Char.toLower
  | [], _, _, h => by
      cases h
      exact ⟨[], rfl, rfl⟩
  | _ :: _, [], _, h => by cases h
  | a :: lead, c :: t, rest, h => by
      rw [afterIgnoringCase?] at h
      split at h
      · rename_i heq
        obtain ⟨head, rfl, hhead⟩ := of_afterIgnoringCase? h
        exact ⟨c :: head, rfl, by rw [List.map_cons, List.map_cons, heq, hhead]⟩
      · cases h

/-- What nothing ends is passed over on the way to an end. -/
theorem prefix_untilTop {stop : Char → Bool} :
    ∀ {s : Nesting} {lead t : Text}, (∀ c ∈ lead, stop c = false) →
      lead <+: (untilTop stop s (lead ++ t)).1
  | _, [], _, _ => List.nil_prefix
  | s, c :: lead, t, h => by
      rw [List.cons_append, untilTop, h c (List.mem_cons_self ..), Bool.and_false]
      exact List.cons_prefix_cons.mpr
        ⟨rfl, prefix_untilTop fun c hc => h c (List.mem_cons_of_mem _ hc)⟩

/-- A text begins as it did when its white space has been collapsed, if it begins with
none. -/
theorem prefix_collapse {lead : Text} (hne : lead ≠ []) (h : ∀ c ∈ lead, isBlank c = false)
    (t : Text) : lead <+: collapse (lead ++ t) := by
  have hsplit : ∀ lead : Text, (∀ c ∈ lead, isBlank c = false) →
      (lead ++ t).splitOnP isBlank = (t.splitOnP isBlank).modifyHead (lead ++ ·) := by
    intro lead h
    induction lead with
    | nil => cases hsplit : t.splitOnP isBlank <;> simp [hsplit]
    | cons c lead ih =>
        rw [List.cons_append, List.splitOnP_cons_eq_if_modifyHead, h c (List.mem_cons_self ..),
          ih fun c hc => h c (List.mem_cons_of_mem _ hc)]
        cases t.splitOnP isBlank <;> rfl
  rw [collapse, words, hsplit lead h]
  cases hpieces : t.splitOnP isBlank with
  | nil => exact (List.splitOnP_ne_nil _ _ hpieces).elim
  | cons first others =>
      have hfirst : (!(lead ++ first).isEmpty) = true := by simp [hne]
      rw [List.modifyHead_cons, List.filter_cons, if_pos hfirst, join]
      cases others.filter (!·.isEmpty) with
      | nil =>
          rw [List.intercalate_singleton]
          exact List.prefix_append lead first
      | cons =>
          rw [List.intercalate_cons_cons, List.append_assoc, List.append_assoc]
          exact List.prefix_append lead _

theorem toLower_mem_import {head : Text} (h : head.map Char.toLower = "@import".toList) :
    ∀ c ∈ head, c.toLower ∈ "@import".toList :=
  fun _ hc => h ▸ List.mem_map_of_mem hc

/-- An import statement begins with its keyword, in whatever case that is, also when its white
space has been collapsed. -/
theorem exists_prefix_importing {s : Slice} (h : Statement.beginsImport s.text = true) :
    ∃ head, head.map Char.toLower = "@import".toList ∧
      head <+: (s.untilTop Statement.endsDefinition).1.collapsed := by
  obtain ⟨rest, hrest⟩ : ∃ rest, afterIgnoringCase? "@import" s.text = some rest := by
    unfold Statement.beginsImport at h
    split at h
    · rename_i hafter
      exact ⟨_, hafter⟩
    · rename_i hafter
      exact ⟨_, hafter⟩
    · cases h
  obtain ⟨head, htext, hhead⟩ := of_afterIgnoringCase? hrest
  have hlower : head.map Char.toLower = "@import".toList := hhead.trans (by decide)
  have hplain : ∀ c ∈ head, IsPlain c := fun c hc =>
    isPlain_of_toLower (toLower_mem_import hlower c hc)
  have hpassed : head <+: (s.untilTop Statement.endsDefinition).1.text := by
    rw [Slice.untilTop_fst_text, htext]
    exact prefix_untilTop fun c hc => (hplain c hc).2.2
  obtain ⟨others, hothers⟩ := hpassed
  refine ⟨head, hlower, ?_⟩
  show head <+: collapse (s.untilTop Statement.endsDefinition).1.text
  rw [← hothers]
  refine prefix_collapse (fun hnil => ?_) (fun c hc => (hplain c hc).2.1) others
  rw [hnil] at hlower
  cases hlower

/-- An import statement falls apart after its keyword, in whatever case that is. -/
theorem between?_importing {s : Slice} (h : Statement.beginsImport s.text = true) :
    let statement := (s.untilTop Statement.endsDefinition).1.collapsed
    between? 7 (utf8Len statement) statement = some (statement.drop 7) := by
  intro statement
  obtain ⟨head, hlower, hstatement⟩ := exists_prefix_importing h
  have hplain : ∀ c ∈ head, IsPlain c := fun c hc =>
    isPlain_of_toLower (toLower_mem_import hlower c hc)
  have hlength : head.length = 7 := by simpa using congrArg List.length hlower
  have htake : statement.take 7 = head := by
    rw [← hlength]
    exact (List.prefix_iff_eq_take.mp hstatement).symm
  have := (between?_take_drop 7 statement).2
  rwa [htake, utf8Len_of_isPlain hplain, hlength] at this

/-- The cuts that are made in a text while a style sheet is read. -/
structure Cuts (t : Text) : Prop where
  /-- The pieces at a separator. -/
  pieces : ∀ separator, (ranges separator .top 0 0 t).map
    (fun range => between? range.1 range.2 t) = (splitTop separator .top t).map some
  /-- What precedes the group at the end, and what is inside. -/
  group : ∀ before inside, lastGroup? t = some (before, inside) →
    between? 0 (utf8Len before) t = some before ∧
      between? (utf8Len before + 1) (utf8Len t - 1) t = some inside
  /-- The search for that group never comes below zero. -/
  counter : match lastGroup? t with
    | some (_, inside) => NeverOpens 0 ('(' :: (inside ++ [')']))
    | none => t.getLast? = some ')' → NeverOpens 0 t
  /-- A run at the beginning, and what follows it. -/
  run : ∀ p : Char → Bool, between? 0 (utf8Len (t.takeWhile p)) t = some (t.takeWhile p) ∧
    between? (utf8Len (t.takeWhile p)) (utf8Len t) t = some (t.drop (t.takeWhile p).length)
  /-- A part that begins behind a mark of one byte. -/
  mark : ∀ before c part after, t = before ++ c :: (part ++ after) → c.utf8Size = 1 →
    between? (utf8Len before + 1) (utf8Len before + 1 + utf8Len part) t = some part

theorem cuts (t : Text) : t.Cuts where
  pieces separator := between?_ranges separator t
  group _ _ := between?_of_lastGroup?
  counter := by
    have hspec := lastGroup?_spec t
    split at hspec
    · exact hspec.2
    · exact hspec
  run p := by
    have := between?_take_drop (t.takeWhile p).length t
    rwa [← List.prefix_iff_eq_take.mp (List.takeWhile_prefix p)] at this
  mark := by
    rintro before c part after rfl hc
    have := between?_append (before ++ [c]) part after
    simpa [hc, Nat.add_assoc] using this

end Text

end Cascade
