import Cascade.Text
import Mathlib.Data.List.Chain

/-!
# Words and white space

Collapsing leaves the words of a text with single spaces between them. So a collapsed
text is tidy (`Text.collapse_tidy`), it has no characters but spaces that were not there
before, and a text that is made of words in this way is left as it is
(`Text.IsSpaced.collapse`).
-/

namespace Cascade.Text

/-- A text that is written out is gone through. -/
theorem forall_mem_of_all {P : Char → Prop} [DecidablePred P] {t : Text}
    (h : t.all (fun c => decide (P c)) = true) : ∀ c ∈ t, P c :=
  fun c hc => of_decide_eq_true (List.all_eq_true.mp h c hc)

/-- No character is blank, and there is one. -/
structure IsSolid (w : Text) : Prop where
  ne_nil : w ≠ []
  solid : ∀ c ∈ w, isBlank c = false

theorem isSolid_iff {w : Text} : w.IsSolid ↔ ¬w.isEmpty ∧ ¬w.any isBlank := by
  rw [List.isEmpty_iff, List.any_eq_true]
  constructor
  · intro h
    exact ⟨h.ne_nil, fun ⟨c, hc, hblank⟩ => Bool.false_ne_true ((h.solid c hc).symm.trans hblank)⟩
  · rintro ⟨hne, hblank⟩
    exact ⟨hne, fun c hc => Bool.eq_false_iff.mpr fun h => hblank ⟨c, hc, h⟩⟩

/-- White space is only between words, and never doubled. -/
structure IsTidy (t : Text) : Prop where
  starts : ∀ c ∈ t.head?, isBlank c = false
  single : t.IsChain fun c d => isBlank c = true → isBlank d = false
  ends : ∀ c ∈ t.getLast?, isBlank c = false

theorem not_isBlank_of_mem_splitOnP {t w : Text} (h : w ∈ t.splitOnP isBlank) :
    ∀ c ∈ w, isBlank c = false ∧ c ∈ t := by
  induction t generalizing w with
  | nil =>
      obtain rfl : w = [] := by simpa using h
      exact fun _ => List.not_mem_nil.elim
  | cons d t ih =>
      have hrest : ∀ w ∈ t.splitOnP isBlank, ∀ c ∈ w, isBlank c = false ∧ c ∈ d :: t :=
        fun w hw c hc => ⟨(ih hw c hc).1, List.mem_cons_of_mem d (ih hw c hc).2⟩
      rw [List.splitOnP_cons_eq_if_modifyHead] at h
      split at h
      · rcases List.mem_cons.mp h with rfl | h
        · exact fun _ => List.not_mem_nil.elim
        · exact hrest w h
      · rename_i hd
        obtain ⟨first, others, hpieces⟩ :=
          List.exists_cons_of_ne_nil (List.splitOnP_ne_nil isBlank t)
        rw [hpieces, List.modifyHead_cons] at h
        rw [hpieces] at hrest
        rcases List.mem_cons.mp h with rfl | h
        · intro c hc
          rcases List.mem_cons.mp hc with rfl | hc
          · exact ⟨Bool.eq_false_iff.mpr hd, List.mem_cons_self ..⟩
          · exact hrest first (List.mem_cons_self ..) c hc
        · exact hrest w (List.mem_cons_of_mem _ h)

theorem isSolid_of_mem_words {t w : Text} (h : w ∈ words t) : w.IsSolid := by
  obtain ⟨hw, hne⟩ := List.mem_filter.mp h
  exact ⟨by simpa using hne, fun c hc => (not_isBlank_of_mem_splitOnP hw c hc).1⟩

theorem mem_of_mem_words {t w : Text} (h : w ∈ words t) {c : Char} (hc : c ∈ w) : c ∈ t :=
  (not_isBlank_of_mem_splitOnP (List.mem_filter.mp h).1 c hc).2

@[simp] theorem join_nil (separator : Text) : join separator [] = [] := rfl

@[simp] theorem join_singleton (separator w : Text) : join separator [w] = w :=
  List.intercalate_singleton

theorem join_cons_cons (separator w w' : Text) (rest : List Text) :
    join separator (w :: w' :: rest) = w ++ separator ++ join separator (w' :: rest) :=
  List.intercalate_cons_cons

theorem join_eq (separator w : Text) (rest : List Text) :
    join separator (w :: rest) = w ++ rest.flatMap (separator ++ ·) := by
  induction rest generalizing w with
  | nil => simp
  | cons w' rest ih =>
      rw [join_cons_cons, ih, List.flatMap_cons, List.append_assoc, List.append_assoc]

theorem cons_join (separator : Text) (c : Char) (w : Text) (rest : List Text) :
    c :: join separator (w :: rest) = join separator ((c :: w) :: rest) := by
  cases rest with
  | nil => rw [join_singleton, join_singleton]
  | cons w' rest => rw [join_cons_cons, join_cons_cons]; rfl

/-- What is joined begins as the first part does. -/
theorem join_cons (separator w : Text) (rest : List Text) :
    ∃ after, join separator (w :: rest) = w ++ after := by
  cases rest with
  | nil => exact ⟨[], by simp⟩
  | cons w' rest => exact ⟨_, by rw [join_cons_cons, List.append_assoc]⟩

theorem mem_join {separator : Text} {c : Char} :
    ∀ {parts : List Text}, c ∈ join separator parts → c ∈ separator ∨ ∃ w ∈ parts, c ∈ w
  | [], h => by cases h
  | [w], h => .inr ⟨w, List.mem_singleton_self w, by simpa using h⟩
  | w :: w' :: rest, h => by
      rw [join_cons_cons, List.mem_append, List.mem_append] at h
      rcases h with (h | h) | h
      · exact .inr ⟨w, List.mem_cons_self .., h⟩
      · exact .inl h
      · rcases mem_join h with h | ⟨v, hv, h⟩
        · exact .inl h
        · exact .inr ⟨v, List.mem_cons_of_mem _ hv, h⟩

theorem mem_join_of_mem {separator w : Text} {c : Char} (hc : c ∈ w) :
    ∀ {parts : List Text}, w ∈ parts → c ∈ join separator parts
  | [], h => by cases h
  | first :: rest, h => by
      rcases List.mem_cons.mp h with rfl | h
      · obtain ⟨after, hjoin⟩ := join_cons separator w rest
        rw [hjoin]
        exact List.mem_append_left _ hc
      · obtain ⟨next, others, rfl⟩ := List.exists_cons_of_ne_nil (List.ne_nil_of_mem h)
        rw [join_cons_cons]
        exact List.mem_append_right _ (mem_join_of_mem hc h)

theorem mem_collapse {t : Text} {c : Char} (h : c ∈ collapse t) : c = ' ' ∨ c ∈ t := by
  rcases mem_join h with h | ⟨w, hw, h⟩
  · exact .inl (List.mem_singleton.mp h)
  · exact .inr (mem_of_mem_words hw h)

namespace IsSolid

variable {w : Text}

theorem tidy (h : w.IsSolid) : w.IsTidy where
  starts c hc := h.solid c (List.mem_of_mem_head? hc)
  single := by
    refine (List.pairwise_of_forall_mem_list fun c _ d hd => ?_).isChain
    exact fun _ => h.solid d hd
  ends c hc := h.solid c (List.mem_of_mem_getLast? hc)

/-- A word may be put before what is tidy. -/
theorem tidy_append (h : w.IsSolid) {t : Text} (ht : t.IsTidy) (hne : t ≠ []) :
    (w ++ ' ' :: t).IsTidy where
  starts c hc := by
    rw [List.head?_append_of_ne_nil _ h.ne_nil] at hc
    exact h.tidy.starts c hc
  single := by
    refine List.isChain_append.mpr ⟨h.tidy.single, ?_, fun c hc _ _ hblank => ?_⟩
    · exact List.isChain_cons.mpr ⟨fun d hd _ => ht.starts d hd, ht.single⟩
    · rw [h.tidy.ends c hc] at hblank
      cases hblank
  ends c hc := by
    rw [List.getLast?_append_cons, List.getLast?_cons_of_ne_nil hne] at hc
    exact ht.ends c hc

end IsSolid

theorem isTidy_join : ∀ {ws : List Text}, (∀ w ∈ ws, w.IsSolid) → (join [' '] ws).IsTidy
  | [], _ => ⟨nofun, .nil, nofun⟩
  | [w], h => by
      rw [join_singleton]
      exact (h w (List.mem_singleton_self w)).tidy
  | w :: w' :: rest, h => by
      have hrest := isTidy_join fun v hv => h v (List.mem_cons_of_mem w hv)
      have hne : join [' '] (w' :: rest) ≠ [] := by
        obtain ⟨after, hafter⟩ := join_cons [' '] w' rest
        rw [hafter]
        exact List.append_ne_nil_of_left_ne_nil (h w' (by simp)).ne_nil after
      rw [join_cons_cons, List.append_assoc]
      exact (h w (List.mem_cons_self ..)).tidy_append hrest hne

theorem collapse_tidy (t : Text) : (collapse t).IsTidy :=
  isTidy_join fun _ => isSolid_of_mem_words

/-- What a space separates is cut into words on its own. -/
theorem words_append (t u : Text) : words (t ++ ' ' :: u) = words t ++ words u := by
  rw [words, List.splitOnP_append_cons t u rfl, List.filter_append]
  rfl

/-- The words are the same without a space at the end. -/
theorem collapse_concat_space (t : Text) : collapse (t ++ [' ']) = collapse t := by
  rw [collapse, words_append]
  show join [' '] (words t ++ []) = _
  rw [List.append_nil, collapse]

theorem collapse_cons_space (t : Text) : collapse (' ' :: t) = collapse t :=
  congrArg (join [' ']) (words_append [] t)

theorem words_of_isSolid {w : Text} (h : w.IsSolid) : words w = [w] := by
  rw [words, List.splitOnP_eq_singleton h.solid]
  simp [h.ne_nil]

/-- Words with single spaces between them. -/
inductive IsSpaced : Text → Prop
  | word {w : Text} : w.IsSolid → IsSpaced w
  | cons {w t : Text} : w.IsSolid → IsSpaced t → IsSpaced (w ++ ' ' :: t)

namespace IsSpaced

variable {t u : Text}

theorem join : ∀ {ws : List Text}, ws ≠ [] → (∀ w ∈ ws, w.IsSolid) → IsSpaced (join [' '] ws)
  | [], hne, _ => (hne rfl).elim
  | [w], _, h => by
      rw [join_singleton]
      exact .word (h w (List.mem_singleton_self w))
  | w :: w' :: rest, _, h => by
      rw [join_cons_cons, List.append_assoc]
      exact .cons (h w (List.mem_cons_self ..))
        (join (List.cons_ne_nil w' rest) fun v hv => h v (List.mem_cons_of_mem w hv))

theorem append (h : IsSpaced t) (h' : IsSpaced u) : IsSpaced (t ++ ' ' :: u) := by
  induction h with
  | word hw => exact .cons hw h'
  | cons hw _ ih =>
      rw [List.append_assoc, List.cons_append]
      exact .cons hw ih

/-- The last word may go on. -/
theorem append_solid (h : IsSpaced t) (h' : ∀ c ∈ u, isBlank c = false) : IsSpaced (t ++ u) := by
  induction h with
  | word hw =>
      exact .word ⟨List.append_ne_nil_of_left_ne_nil hw.ne_nil u,
        List.forall_mem_append.mpr ⟨hw.solid, h'⟩⟩
  | cons hw _ ih =>
      rw [List.append_assoc, List.cons_append]
      exact .cons hw ih

theorem cons_eq (h : IsSpaced t) : ∃ c rest, t = c :: rest ∧ isBlank c = false := by
  cases h with
  | word hw =>
      obtain ⟨c, rest, rfl⟩ := List.exists_cons_of_ne_nil hw.ne_nil
      exact ⟨c, rest, rfl, hw.solid c (List.mem_cons_self ..)⟩
  | @cons w u hw =>
      obtain ⟨c, w, rfl⟩ := List.exists_cons_of_ne_nil hw.ne_nil
      exact ⟨c, w ++ ' ' :: u, rfl, hw.solid c (List.mem_cons_self ..)⟩

theorem ne_nil (h : IsSpaced t) : t ≠ [] := by
  obtain ⟨c, rest, rfl, -⟩ := h.cons_eq
  exact List.cons_ne_nil c rest

/-- What is made of words with single spaces between them is collapsed already. -/
theorem collapse (h : IsSpaced t) : collapse t = t := by
  induction h with
  | word hw => rw [Text.collapse, words_of_isSolid hw, join_singleton]
  | @cons w t hw ht ih =>
      rw [Text.collapse, words_append, words_of_isSolid hw, List.singleton_append]
      cases hwords : words t with
      | nil => exact (ht.ne_nil (by rw [← ih, Text.collapse, hwords, join_nil])).elim
      | cons w' rest =>
          rw [join_cons_cons, ← hwords, ← Text.collapse, ih, List.append_assoc]
          rfl

end IsSpaced

end Cascade.Text
