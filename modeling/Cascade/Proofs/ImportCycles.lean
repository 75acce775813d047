import Cascade.FileSystem.Memory
import Cascade.Proofs.ImportGraph
import Cascade.Proofs.Loader
import Cascade.Proofs.Textual
import Mathlib.Data.List.Dedup
import Mathlib.Data.List.Perm.Subperm

/-!
# Cycles of imports

A loader refuses to import a file that is on its stack. This is as good as can be: it
fails for a cycle only if a file that can be reached from the entry file imports itself,
directly or through others, and then it never succeeds. Where there is no such file the
check changes nothing, and each file is read for each import of it.

A step of a loader follows a reading if it ends whenever it is begun, with the same outcome
and the same effect, and with the stack as it was. All stacks on the way have grown from
that one by files that were not on it (`Loading.Follows`). The relation goes through `>>=`,
and through a file that is read with its key on the stack (`Loading.Follows.nested`).
-/

namespace Cascade

/-! ## Stacks that grow -/

/-- The stack is another with files on top that are not on it, each once. -/
def Options.Grown (options : Options) (stack grown : List Path.Key) : Prop :=
  ∃ entered, grown = entered ++ stack ∧ entered.Nodup ∧
    ∀ key ∈ entered, key ∉ stack ∧ key ∈ options.fileSystem.keys

namespace Options.Grown

variable {options : Options} {stack grown : List Path.Key} {key : Path.Key}

theorem refl (stack : List Path.Key) : options.Grown stack stack :=
  ⟨[], rfl, List.nodup_nil, nofun⟩

theorem push (hkey : key ∉ stack) (hfile : key ∈ options.fileSystem.keys) :
    options.Grown stack (key :: stack) := by
  refine ⟨[key], rfl, List.nodup_singleton key, fun other hother => ?_⟩
  rw [List.mem_singleton.mp hother]
  exact ⟨hkey, hfile⟩

theorem of_push (hkey : key ∉ stack) (hfile : key ∈ options.fileSystem.keys)
    (h : options.Grown (key :: stack) grown) : options.Grown stack grown := by
  obtain ⟨entered, rfl, hnodup, hentered⟩ := h
  refine ⟨entered ++ [key], by rw [List.append_assoc, List.singleton_append], ?_, ?_⟩
  · refine List.nodup_append.mpr ⟨hnodup, List.nodup_singleton key, fun other hother k hk => ?_⟩
    rw [List.mem_singleton.mp hk]
    exact fun heq => (hentered other hother).1 (heq ▸ List.mem_cons_self ..)
  · intro other hother
    rcases List.mem_append.mp hother with hother | hother
    · exact (hentered other hother).imp_left fun hnot hmem => hnot (List.mem_cons_of_mem _ hmem)
    · rw [List.mem_singleton.mp hother]
      exact ⟨hkey, hfile⟩

/-- No file is on the stack twice, so it is no longer than there are files. -/
theorem bounded (h : options.Grown stack grown) (hnodup : stack.Nodup)
    (hfiles : stack ⊆ options.fileSystem.keys) :
    grown.Nodup ∧ grown.length ≤ options.fileSystem.keys.dedup.length := by
  obtain ⟨entered, rfl, hentered, hkeys⟩ := h
  have hgrown : (entered ++ stack).Nodup := by
    refine List.nodup_append.mpr ⟨hentered, hnodup, fun key hkey other hother heq => ?_⟩
    exact (hkeys key hkey).1 (heq ▸ hother)
  refine ⟨hgrown, (List.subperm_of_subset hgrown fun key hkey => List.mem_dedup.mpr ?_).length_le⟩
  exact (List.mem_append.mp hkey).elim (fun h => (hkeys key h).2) fun h => hfiles h

end Options.Grown

theorem Document.length_idle_cons_lt {options : Options} {stack : List Path.Key} {key : Path.Key}
    (hkey : key ∉ stack) (hfile : key ∈ options.fileSystem.keys) :
    (idle options (key :: stack)).length < (idle options stack).length := by
  rw [idle_cons]
  refine List.length_filter_lt_length_iff_exists.mpr ⟨key, ?_, by simp⟩
  exact List.mem_filter.mpr ⟨hfile, by simpa using hkey⟩

/-! ## Loaders that follow the reading -/

namespace Loading

variable {α β : Type} {options : Options} {P : Prop} {stack : List Path.Key} {step : Loading α}
  {m : Reading α}

/-- Begun with the given stack, the step ends with the same stack, and with the outcome and
the effect of the reading. If that is the refusal of an import, then `P`. -/
def Follows (options : Options) (P : Prop) (stack : List Path.Key) (step : Loading α)
    (m : Reading α) : Prop :=
  ∀ l : Loader, l.loading = stack → ∃ l',
    step.run.run l = some ((m.run.run l.reading).1, l') ∧ l'.reading = (m.run.run l.reading).2 ∧
    l'.loading = stack ∧ (∀ s ∈ l'.history, s ∈ l.history ∨ options.Grown stack s) ∧
    ∀ span, (m.run.run l.reading).1 = .error ⟨.importCycle, span⟩ → P

namespace Follows

theorem reading (h : ∀ st span, (m.run.run st).1 = .error ⟨.importCycle, span⟩ → P) :
    Follows options P stack (Loading.reading m) m :=
  fun l hl => ⟨_, rfl, rfl, hl, fun _ => .inl, h l.reading⟩

theorem text (h : m.ReadsText) : Follows options P stack (Loading.reading m) m :=
  .reading fun st span hfault => nomatch h st ⟨.importCycle, span⟩ hfault

theorem pure (a : α) : Follows options P stack (Pure.pure a) (Pure.pure a) :=
  fun l hl => ⟨l, rfl, rfl, hl, fun _ => .inl, nofun⟩

theorem bind {next : α → Loading β} {f : α → Reading β} (h : Follows options P stack step m)
    (hnext : ∀ a, Follows options P stack (next a) (f a)) :
    Follows options P stack (step >>= next) (m >>= f) := by
  intro l hl
  obtain ⟨l₁, hrun, hreading, hloading, hhistory, hrefused⟩ := h l hl
  rcases hm : m.run.run l.reading with ⟨result, st⟩
  rw [hm] at hrun hreading hrefused
  cases result with
  | error fault =>
      rw [Reading.run_bind_error hm, run_bind_of_error hrun]
      exact ⟨l₁, rfl, hreading, hloading, hhistory,
        fun span hfault => hrefused span (congrArg Except.error (Except.error.inj hfault))⟩
  | ok a =>
      obtain rfl : l₁.reading = st := hreading
      obtain ⟨l₂, hrun₂, hreading₂, hloading₂, hhistory₂, hrefused₂⟩ := hnext a l₁ hloading
      rw [Reading.run_bind_ok hm, run_bind_of_ok hrun]
      refine ⟨l₂, hrun₂, hreading₂, hloading₂, fun s hs => ?_, hrefused₂⟩
      exact (hhistory₂ s hs).elim (hhistory s) .inr

/-- A step may look at the loader. -/
theorem observe {next : Loader → Loading α}
    (h : ∀ l, l.loading = stack → Follows options P stack (next l) m) :
    Follows options P stack (get >>= next) m :=
  fun l hl => h l hl l hl

/-- A file that is read with its key on the stack. -/
theorem nested {checks : Bool} {path : Path} {text : Text} {m : Reading Document}
    (hkey : options.fileSystem.key path ∉ stack)
    (hfile : options.fileSystem.key path ∈ options.fileSystem.keys)
    (h : Follows options P (options.fileSystem.key path :: stack)
      (options.load checks path text) m) :
    Follows options P stack (options.loadNested checks path text) m := by
  intro l hl
  obtain ⟨l', hrun, hreading, hloading, hhistory, hrefused⟩ :=
    h (l.push (options.fileSystem.key path)) (by rw [Loader.push, hl])
  refine ⟨l'.pop, ?_, hreading, by rw [Loader.pop, hloading, List.tail_cons], ?_, hrefused⟩
  · refine (Options.loadNested.eq_1 ..).trans ?_
    rw [hrun]
    rfl
  · intro s hs
    rcases hhistory s hs with hs | hs
    · rcases List.mem_cons.mp hs with rfl | hs
      · exact .inr (hl ▸ .push (hl ▸ hkey) hfile)
      · exact .inl hs
    · exact .inr (.of_push hkey hfile hs)

end Follows

/-! ## Files -/

/-- What is known of the stacks of a loader, by the file that is read. -/
structure Guided (options : Options) (checks : Bool) (P : Prop)
    (known : List Path.Key → Path → Prop) : Prop where
  /-- A file on the stack is refused, or is never imported. -/
  refused : ∀ {stack p q}, known stack p → options.Imports p q →
    options.fileSystem.key q ∈ stack → checks = true ∧ P
  entered : ∀ {stack p q}, known stack p → options.Enters p q →
    options.fileSystem.key q ∉ stack → known (options.fileSystem.key q :: stack) q

variable {checks : Bool} {known : List Path.Key → Path → Prop} {d : Desk} {q : Path}
  {reader? : Path.Key → Option (Path → Text → Reading Document)}

/-- The loader reads what the reader does, as far as that is not on the stack. What is on
the stack both refuse. -/
structure ReadsAs (options : Options) (checks : Bool) (P : Prop) (stack : List Path.Key)
    (reader? : Path.Key → Option (Path → Text → Reading Document)) (q : Path) : Prop where
  refused : options.fileSystem.key q ∈ stack →
    checks = true ∧ P ∧ reader? (options.fileSystem.key q) = none
  read : options.fileSystem.key q ∉ stack → ∃ read,
    reader? (options.fileSystem.key q) = some read ∧
      ∀ text, options.fileSystem.read q = .text text → q.extension? ≠ some "css".toList →
        Follows options P (options.fileSystem.key q :: stack)
          (options.load checks q text) (read q text)

theorem loadFile_follows (hfile : d.options.fileSystem.isFile q = true)
    (h : ReadsAs d.options checks P stack reader? q) (span : Span) :
    Follows d.options P stack (d.loadFile checks q span) ({ d with reader? }.load q span) := by
  rw [Desk.loadFile, Desk.load]
  refine .observe fun l hl => ?_
  simp only [hl]
  by_cases hkey : d.options.fileSystem.key q ∈ stack
  · obtain ⟨rfl, hP, hreader⟩ := h.refused hkey
    rw [hreader, if_pos (by simpa using hkey)]
    exact .reading fun _ _ _ => hP
  · obtain ⟨read, hreader, hread⟩ := h.read hkey
    rw [hreader, if_neg (by simp [hkey])]
    cases hcontents : d.options.fileSystem.read q with
    | unreadable reason | undecodable byte => exact .reading fun _ _ hfault => by cases hfault
    | text text =>
        refine .bind (.text (.note _ _)) fun _ => ?_
        split
        · exact .pure _
        · rename_i hextension
          refine .bind (.nested hkey (d.options.fileSystem.key_mem_keys hfile) ?_) fun _ => .pure _
          exact hread text hcontents hextension

theorem loadImport_follows {whole : Slice}
    (h : ∀ q, d.options.Leads d.path whole q → ReadsAs d.options checks P stack reader? q)
    (block : Block) :
    Follows d.options P stack (d.loadImport checks whole block)
      ({ d with reader? }.addImport whole block) := by
  rw [Desk.loadImport, Desk.addImport]
  simp only
  cases htarget : ImportTarget.read? (Text.trim (whole.collapsed.drop "@import".length)) with
  | none => exact .bind (.text (.note _ _)) fun _ => .pure _
  | some target =>
      refine .bind (.reading fun _ _ hfault => by cases hfault) fun _ => ?_
      cases hfind : target.find? d.options d.path with
      | none => exact .reading fun _ _ hfault => by cases hfault
      | some q =>
          have hfile : d.options.fileSystem.isFile q = true := List.find?_some hfind
          exact .bind (loadFile_follows hfile (h q ⟨target, htarget, hfind⟩) _) fun _ => .pure _

theorem loadInto_follows : ∀ (outline : Outline),
    (∀ whole ∈ outline.imports, ∀ q, d.options.Leads d.path whole q →
      ReadsAs d.options checks P stack reader? q) →
    (∀ cause ∈ outline.causes, cause.category = .syntactic) →
    ∀ (parents : List Text) (block : Block), Follows d.options P stack
      (d.loadInto checks parents block outline)
      ({ d with reader? }.readInto parents block outline)
  | .closed, _, _, _, block => by
      rw [Desk.loadInto]
      exact .pure block
  | .broken cause blamed, _, hcauses, _, _ => by
      rw [Desk.loadInto]
      refine .text fun st => .error ?_
      exact hcauses cause (List.mem_singleton_self _)
  | .statement s rest, himports, hcauses, parents, block => by
      have hrest (himports) := loadInto_follows rest himports hcauses parents
      cases s with
      | importing whole =>
          rw [Desk.loadInto]
          refine .bind (loadImport_follows (himports whole (List.mem_cons_self ..)) block) ?_
          exact hrest fun whole hwhole => himports whole (List.mem_cons_of_mem _ hwhole)
      | definition | directive | call | property =>
          rw [Desk.loadInto]
          · refine .bind (.text (d.addStatement_readsText block _ fun _ h => by cases h)) ?_
            exact hrest himports
          · intro _ h
            cases h
  | .block prelude body rest, himports, hcauses, parents, block => by
      rw [Desk.loadInto]
      refine .bind (.text (d.heading_readsText parents prelude)) fun rule => ?_
      have hbody := loadInto_follows body
        (fun whole hwhole => himports whole (List.mem_append_left _ hwhole))
        fun cause hcause => hcauses cause (List.mem_append_left _ hcause)
      refine .bind (hbody rule.selectors .empty) fun contents => ?_
      exact loadInto_follows rest
        (fun whole hwhole => himports whole (List.mem_append_right _ hwhole))
        (fun cause hcause => hcauses cause (List.mem_append_right _ hcause)) parents _

/-- A file is loaded as it is read, and so are the files that it imports. -/
theorem load_follows (hguided : Guided options checks P known)
    (beyond : Path → Text → Reading Document) : ∀ (depth : Nat) {stack : List Path.Key}
      {path : Path} {text : Text}, (Document.idle options stack).length < depth →
      known stack path → options.fileSystem.read path = .text text →
        Follows options P stack (options.load checks path text)
          (Document.readNested options beyond depth stack path text)
  | 0, _, _, _, hdepth, _, _ => (Nat.not_lt_zero _ hdepth).elim
  | depth + 1, stack, path, text, hdepth, hknown, hread => by
      rw [Options.load, Document.readNested]
      refine .bind (.reading fun _ _ hfault => by cases hfault) fun source => ?_
      refine .bind (loadInto_follows _ (fun whole hwhole q hleads => ?_)
        (Outline.category_ofText text) [] .empty) fun block => .pure _
      have himports : options.Imports path q := ⟨text, hread, whole, hwhole, hleads⟩
      refine ⟨fun hkey => ?_, fun hkey => ?_⟩
      · obtain ⟨hchecks, hP⟩ := hguided.refused hknown himports hkey
        exact ⟨hchecks, hP, if_pos hkey⟩
      · refine ⟨_, if_neg hkey, fun text' hread' hextension => ?_⟩
        refine load_follows hguided beyond depth ?_
          (hguided.entered hknown ⟨himports, hextension⟩ hkey) hread'
        have hfile := options.fileSystem.key_mem_keys himports.isFile
        exact Nat.lt_of_lt_of_le (Document.length_idle_cons_lt hkey hfile)
          (Nat.le_of_lt_succ hdepth)

/-- The entry file, with itself on the stack. -/
theorem load_entry_follows {path : Path} {text : Text}
    (hguided : Guided options checks P (options.Stacked path))
    (hread : options.fileSystem.read path = .text text) :
    Follows options P [options.fileSystem.key path] (options.load checks path text)
      (Document.readEntry options path text) := by
  have hfollows := load_follows hguided (fun _ _ => .fail .importCycle ⟨0, 0, 0⟩)
    (options.fileSystem.keys.length + 1) (Nat.lt_succ_of_le (List.length_filter_le ..)) .entry hread
  rwa [Document.readNested_eq_readEntry] at hfollows

theorem guided_checking (options : Options) (path : Path) :
    Guided options true (options.ReachesCycle path) (options.Stacked path) where
  refused h himports hkey := ⟨rfl, h.reachesCycle himports hkey⟩
  entered h henters _ := .enter h henters

theorem guided_acyclic {path : Path} (hacyclic : ¬options.ReachesCycle path) :
    Guided options false False (options.Stacked path) where
  refused h himports hkey := (hacyclic (h.reachesCycle himports hkey)).elim
  entered h henters _ := .enter h henters

end Loading

/-! ## The check -/

namespace StyleSheet

/-- How good the check for cycles is, for a file and its text. -/
structure ExactImports (options : Options) (path : Path) (text : Text) : Prop where
  /-- An import is refused only if there is a cycle. -/
  sound : ∀ place unicode,
    (read options path text).result = .error (.located .importCycle place unicode) →
      options.ReachesCycle path
  /-- Where there is a cycle, reading fails. -/
  complete : options.ReachesCycle path → ∃ failure, (read options path text).result = .error failure
  /-- Where there is none, a loader that does not look comes to the same, and has left
  behind the same. It reads a file for each import of it. -/
  accepted : ¬options.ReachesCycle path → ∃ l,
    (options.load false path text).run.run (.start (options.fileSystem.key path)) =
      some ((readState options path text).1, l) ∧ l.reading = (readState options path text).2
  /-- A loader that looks always does. On its stack no file is twice, at no time. -/
  loading : ∃ l,
    (options.load true path text).run.run (.start (options.fileSystem.key path)) =
      some ((readState options path text).1, l) ∧ l.reading = (readState options path text).2 ∧
    l.loading = [options.fileSystem.key path] ∧
    ∀ stack ∈ l.history, stack.Nodup ∧ stack.length ≤ options.fileSystem.keys.dedup.length
  /-- However a file ends that is read for another, the stack is as it was. -/
  restored : ∀ q text', options.fileSystem.read q = .text text' → ∀ l : Loader, ∃ result l',
    (options.loadNested true q text').run.run l = some (result, l') ∧
      l'.loading = l.loading

variable {options : Options} {path : Path} {text : Text}

theorem read_result (options : Options) (path : Path) (text : Text) :
    (read options path text).result =
      match (readState options path text).1 with
      | .ok document => .ok ⟨(readState options path text).2.sources, document⟩
      | .error fault =>
        .error (options.failure (readState options path text).2.sources fault) := rfl

theorem importCycle_of_read {place : Location} {unicode : Bool}
    (h : (read options path text).result = .error (.located .importCycle place unicode)) :
    ∃ span, (readState options path text).1 = .error ⟨.importCycle, span⟩ := by
  rw [read_result] at h
  cases hread : (readState options path text).1 with
  | ok document =>
      rw [hread] at h
      cases h
  | error fault =>
      rw [hread] at h
      obtain ⟨cause, span⟩ := fault
      obtain ⟨rfl, -, -⟩ := Failure.located.inj (Except.error.inj h)
      exact ⟨span, rfl⟩

/-- A file that is read with success is accepted. -/
theorem accepts_of_readState {document : Document}
    (hread : options.fileSystem.read path = .text text)
    (h : (readState options path text).1 = .ok document) :
    options.Accepts [options.fileSystem.key path] path := by
  refine ⟨text, hread, options.fileSystem.keys.length + 1, document, ⟨#[], #[], #[]⟩,
    (readState options path text).2, ?_⟩
  rw [Document.readNested_eq_readEntry]
  exact Prod.ext h rfl

/-- The check for cycles is exact, whatever the file that is read first. -/
theorem exactImports (hfile : options.fileSystem.isFile path = true)
    (hread : options.fileSystem.read path = .text text) : ExactImports options path text where
  sound place unicode hrefused := by
    obtain ⟨span, hfault⟩ := importCycle_of_read hrefused
    obtain ⟨_, -, -, -, -, hcycle⟩ := Loading.load_entry_follows
      (Loading.guided_checking options path) hread (.start (options.fileSystem.key path)) rfl
    exact hcycle span hfault
  complete hcycle := by
    rw [read_result]
    cases hresult : (readState options path text).1 with
    | ok document => exact ((accepts_of_readState hread hresult).not_reachesCycle hcycle).elim
    | error fault => exact ⟨_, rfl⟩
  accepted hacyclic := by
    obtain ⟨l, hrun, hreading, -⟩ := Loading.load_entry_follows
      (Loading.guided_acyclic hacyclic) hread (.start (options.fileSystem.key path)) rfl
    exact ⟨l, hrun, hreading⟩
  loading := by
    obtain ⟨l, hrun, hreading, hloading, hhistory, -⟩ := Loading.load_entry_follows
      (Loading.guided_checking options path) hread (.start (options.fileSystem.key path)) rfl
    refine ⟨l, hrun, hreading, hloading, fun stack hstack => ?_⟩
    have hgrown : options.Grown [options.fileSystem.key path] stack :=
      (hhistory stack hstack).elim (fun h => List.mem_singleton.mp h ▸ .refl _) id
    refine hgrown.bounded (List.nodup_singleton _) fun key hkey => ?_
    rw [List.mem_singleton.mp hkey]
    exact options.fileSystem.key_mem_keys hfile
  restored q text' hread' l := by
    have hguided : Loading.Guided options true True fun _ _ => True :=
      ⟨fun _ _ _ => ⟨rfl, trivial⟩, fun _ _ _ => trivial⟩
    obtain ⟨l', hrun, -, hloading, -⟩ := Loading.load_follows hguided
      (fun _ _ => .fail .importCycle ⟨0, 0, 0⟩) _ (Nat.lt_succ_self _) trivial hread'
      (l.push (options.fileSystem.key q)) rfl
    refine ⟨_, l'.pop, (Options.loadNested.eq_1 ..).trans (congrArg (· >>= _) hrun), ?_⟩
    rw [Loader.pop, hloading]
    rfl

/-- Two files import each other. A third one is imported by one of them, and twice where
there is no cycle: by another file, and by what that imports. -/
theorem exactImports_mutual : ∃ options : Options,
    options.ReachesCycle ⟨"a.less"⟩ ∧ ¬options.ReachesCycle ⟨"d.less"⟩ := by
  let files : MemoryFiles :=
    { files := [(⟨"a.less"⟩, .text "@import 'b';"),
        (⟨"b.less"⟩, .text "@import <c>; @import \"a.less\";"),
        (⟨"c.less"⟩, .text "p \x7b q: r \x7d"),
        (⟨"d.less"⟩, .text "@import 'e'; @import 'c';"),
        (⟨"e.less"⟩, .text "@import 'c';")]
      aliases := [] }
  let options : Options := { fileSystem := files.fileSystem }
  refine ⟨options, ?_, fun hcycle => ?_⟩
  · have hrefused : ((readState options ⟨"a.less"⟩ "@import 'b';").1.map fun _ => ()) =
        .error ⟨.importCycle, ⟨1, 13, 29⟩⟩ := by decide +kernel
    cases hresult : (readState options ⟨"a.less"⟩ "@import 'b';").1 with
    | ok document =>
        rw [hresult] at hrefused
        cases hrefused
    | error fault =>
        rw [hresult] at hrefused
        obtain rfl : fault = ⟨.importCycle, ⟨1, 13, 29⟩⟩ := Except.error.inj hrefused
        have hread := read_result options ⟨"a.less"⟩ "@import 'b';"
        rw [hresult] at hread
        exact (exactImports rfl rfl).sound _ _ hread
  · have hok : (readState options ⟨"d.less"⟩ "@import 'e'; @import 'c';").1.isOk = true := by
      decide +kernel
    have hread : options.fileSystem.read ⟨"d.less"⟩ = .text "@import 'e'; @import 'c';" := rfl
    obtain ⟨failure, hfailure⟩ := (exactImports rfl hread).complete hcycle
    rw [read_result] at hfailure
    cases hresult : (readState options ⟨"d.less"⟩ "@import 'e'; @import 'c';").1 with
    | ok document =>
        rw [hresult] at hfailure
        cases hfailure
    | error fault =>
        rw [hresult] at hok
        cases hok

end StyleSheet

end Cascade
