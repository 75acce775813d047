import Cascade.Proofs.Simulation

/-!
# No variable is captured

A text that an argument or a variable came to may have an unknown `@name` in it. Put in
the place of another variable it looks like a reference, but it has been evaluated where
it was written and stays as it is. So only what is written in raw values refers to
variables: if neither a value nor any definition it leads to refers to a name, the name
may be defined, in whatever scope, as anything or nothing (`Scope.uncaptured`). The same
holds of a block that is expanded, with all the mixins that it calls and that these call,
where such texts are handed on from call to call.
-/

namespace Cascade

/-! ## Taking a name away -/

/-- Leaves out the definitions of a name, at every address. -/
def Retabling.removing (n : Text) : Retabling where
  table _ t := t.filter (·.1 ≠ n)
  bindings b := b.filter (·.1 ≠ n)
  bindings_nil := rfl

theorem lookup_filter_ne {α : Type} {n name : Text} (h : name ≠ n) (table : List (Text × α)) :
    (table.filter (·.1 ≠ n)).lookup name = table.lookup name := by
  induction table with
  | nil => rfl
  | cons entry rest ih =>
      by_cases hentry : entry.1 = n
      · have hname : (name == entry.1) = false := beq_eq_false_iff_ne.mpr (hentry ▸ h)
        rw [List.filter_cons_of_neg (by simpa using hentry), List.lookup_cons, hname, ih]
      · rw [List.filter_cons_of_pos (by simpa using hentry), List.lookup_cons, List.lookup_cons, ih]

theorem Retabling.removing_spares {n name : Text} (h : name ≠ n) :
    (removing n).Spares name fun _ _ => True where
  closed := ⟨fun _ => trivial, fun _ _ => trivial⟩
  table _ _ _ := lookup_filter_ne h
  bindings := lookup_filter_ne h

namespace Scope

/-- The scope without any definition of the name: in its blocks, in all that these import
and contain, and among its bindings. -/
def without (n : Text) (s : Scope) : Scope := s.retable (.removing n) []

/-! ## Values -/

/-- Neither the value nor any definition that it leads to refers to the name. -/
def Avoids (s : Scope) (raw : Raw) (n : Text) : Prop :=
  n ∉ raw.references ∧ ∀ x, s.Reaches raw x → n ∉ x.value.references

theorem Avoids.uses {s : Scope} {raw : Raw} {n : Text} {x : Definition} (h : s.Avoids raw n)
    (hx : s.Uses raw x) : x.home.Avoids x.value n := by
  refine ⟨h.2 x ⟨x, hx, .refl⟩, fun y hy => ?_⟩
  obtain ⟨first, hfirst, hpath⟩ := hy
  exact h.2 y ⟨x, hx, .head hfirst hpath⟩

theorem Avoids.of_evaluated {s : Scope} {raw : Raw} {n : Text} (hn : n ∉ raw.references)
    (h : ∀ name ∈ raw.references, ∃ t, s.meaning? name = some (.evaluated t)) :
    s.Avoids raw n := by
  refine ⟨hn, ?_⟩
  rintro x ⟨y, ⟨hname, hmeaning⟩, -⟩
  obtain ⟨t, ht⟩ := h y.name hname
  cases ht.symm.trans hmeaning

/-- The scopes are those of two documents, and differ at most in the definitions of the
name. -/
structure AlikeBut (n : Text) (d d' : Document) (s s' : Scope) : Prop where
  inside : d.HasScope s
  inside' : d'.HasScope s'
  without : ∃ a a', s.retable (.removing n) a = s'.retable (.removing n) a'

end Scope

theorem Document.idleAmong (d d' : Document) (now : Moment) :
    IdleAmong (d.BothHave d') (d.idleAt now) (d'.idleAt now) := by
  rintro key ⟨hkey, hkey'⟩
  rw [Document.mem_idleAt hkey, Document.mem_idleAt hkey']

namespace Scope.AlikeBut

variable {n : Text} {d d' : Document} {s s' : Scope}

theorem meaning (h : AlikeBut n d d' s s') {name : Text} (hname : name ≠ n) :
    MeaningAlike (fun value home home' => d.BothHave d' (name, value.span) ∧
      AlikeBut n d d' home home') (s.meaning? name) (s'.meaning? name) := by
  obtain ⟨a, a', hwithout⟩ := h.without
  obtain ⟨b, -, hfound⟩ := s.meaning?_retable (Retabling.removing_spares hname) a trivial
  obtain ⟨b', -, hfound'⟩ := s'.meaning?_retable (Retabling.removing_spares hname) a' trivial
  rw [hwithout, hfound'] at hfound
  cases hmeaning : s.meaning? name with
  | none =>
      rw [hmeaning, Option.map_none, Option.map_eq_none_iff] at hfound
      rw [hfound]
      exact .unknown
  | some found =>
      rw [hmeaning, Option.map_some, Option.map_eq_some_iff] at hfound
      obtain ⟨found', hmeaning', heq⟩ := hfound
      rw [hmeaning']
      cases found with
      | evaluated t =>
          cases found' with
          | evaluated t' =>
              cases heq
              exact .evaluated t
          | raw => cases heq
      | raw value home =>
          cases found' with
          | evaluated => cases heq
          | raw value' home' =>
              obtain ⟨rfl, hhomes⟩ := Meaning.raw.inj heq
              obtain ⟨hhome, hkey⟩ := h.inside.of_meaning? hmeaning
              obtain ⟨hhome', hkey'⟩ := h.inside'.of_meaning? hmeaning'
              exact .raw ⟨⟨hkey, hkey'⟩, hhome, hhome', b, b', hhomes.symm⟩

theorem simulation (n : Text) (d d' : Document) :
    Simulation (d.BothHave d') fun raw s s' => AlikeBut n d d' s s' ∧ s.Avoids raw n := by
  rintro raw s s' ⟨h, havoids⟩ name hname
  refine (h.meaning (ne_of_mem_of_not_mem hname havoids.1)).imp ?_
  rintro value home home' hmeaning ⟨hkeys, hhome⟩
  exact ⟨hkeys, hhome, havoids.uses (x := ⟨name, value, home⟩) ⟨hname, hmeaning⟩⟩

theorem evaluate_eq (h : AlikeBut n d d' s s') {raw : Raw} (havoids : s.Avoids raw n)
    (now : Moment) : s.evaluate (d.idleAt now) raw = s'.evaluate (d'.idleAt now) raw :=
  Simulation.evaluate_eq (simulation n d d') (d.idleAmong d' now) ⟨h, havoids⟩

end Scope.AlikeBut

/-! ## Blocks -/

/-- The values that are evaluated while the innermost block of a scope is expanded, each
with the scope that it is evaluated in: those of its properties, the arguments of its
calls, and what the bodies of the mixins that it calls demand in turn. -/
inductive Scope.Demands (idle : List DefinitionKey) : Scope → Scope → Raw → Prop
  | property {s : Scope} {p : Property} : Declaration.property p ∈ s.body.declarations →
      Demands idle s s p.value
  | argument {s home : Scope} {c : MixinCall} {rule : Rule} {i : Nat} {a : Raw} :
      Declaration.call c ∈ s.body.declarations → s.mixin? c.name = some (rule, home) →
      i < rule.kind.parameters.length → c.argument? i = some a → Demands idle s s a
  | call {s home t : Scope} {c : MixinCall} {rule : Rule} {bindings : Bindings} {raw : Raw} :
      Declaration.call c ∈ s.body.declarations → s.mixin? c.name = some (rule, home) →
      c.bindings idle rule s = .ok bindings → Demands idle (home.ofCall rule.block bindings) t raw →
      Demands idle s t raw

namespace Scope.AlikeBut

variable {n : Text} {d d' : Document} {s s' : Scope}

theorem declarations (h : AlikeBut n d d' s s') : s.body.declarations = s'.body.declarations := by
  obtain ⟨a, a', hwithout⟩ := h.without
  have hbody := congrArg (fun s => s.body.declarations) hwithout
  simpa only [body_retable_declarations] using hbody

/-- A call expands nothing in either scope, or rules that are alike in homes that are. -/
theorem mixin (h : AlikeBut n d d' s s') (name : Text) :
    (s.mixin? name = none ∧ s'.mixin? name = none) ∨
      ∃ rule home rule' home', s.mixin? name = some (rule, home) ∧
        s'.mixin? name = some (rule', home') ∧ rule.kind = rule'.kind ∧ rule.name = rule'.name ∧
        ∀ bindings, ∃ a a', (home.ofCall rule.block bindings).retable (.removing n) a =
          (home'.ofCall rule'.block bindings).retable (.removing n) a' := by
  obtain ⟨a, a', hwithout⟩ := h.without
  have hclosed : Closed fun _ _ => True := ⟨fun _ => trivial, fun _ _ => trivial⟩
  obtain ⟨b, i, -, hfound, -⟩ := s.mixin?_retable (r := .removing n) name hclosed a trivial
  obtain ⟨b', i', -, hfound', -⟩ := s'.mixin?_retable (r := .removing n) name hclosed a' trivial
  rw [hwithout, hfound'] at hfound
  cases hmixin : s.mixin? name with
  | none =>
      rw [hmixin, Option.map_none, Option.map_eq_none_iff] at hfound
      exact .inl ⟨rfl, hfound⟩
  | some found =>
      obtain ⟨rule, home⟩ := found
      rw [hmixin, Option.map_some, Option.map_eq_some_iff] at hfound
      obtain ⟨⟨rule', home'⟩, hmixin', heq⟩ := hfound
      obtain ⟨hrules, hhomes⟩ := Prod.mk.inj heq
      have hblocks := congrArg Rule.block hrules
      simp only [Rule.retable_eq] at hrules hblocks
      refine .inr ⟨rule, home, rule', home', rfl, hmixin', (congrArg Rule.kind hrules).symm,
        (congrArg Rule.name hrules).symm, fun bindings => ⟨.child i :: b, .child i' :: b', ?_⟩⟩
      rw [retable_ofCall, retable_ofCall, hblocks, hhomes]

theorem bodySimulation (n : Text) (d d' : Document) (now : Moment) :
    BodySimulation (d.idleAt now) (d'.idleAt now) fun s s' =>
      AlikeBut n d d' s s' ∧ ∀ t raw, s.Demands (d.idleAt now) t raw → t.Avoids raw n where
  declarations h := h.1.declarations
  property h hmem := h.1.evaluate_eq (h.2 _ _ (.property hmem)) now
  call := by
    rintro s s' c ⟨h, havoids⟩ hmem
    refine (h.mixin c.name).imp_right ?_
    rintro ⟨rule, home, rule', home', hrule, hrule', hkind, hname, hbodies⟩
    have hbindings : c.bindings (d.idleAt now) rule s = c.bindings (d'.idleAt now) rule' s' :=
      MixinCall.bindings_eq hkind hname fun i hi a ha =>
        h.evaluate_eq (havoids s a (.argument hmem hrule hi ha)) now
    refine ⟨rule, home, rule', home', hrule, hrule', hbindings, fun bindings hbound => ?_⟩
    refine ⟨⟨?_, ?_, hbodies bindings⟩, fun t raw hdemands => ?_⟩
    · exact h.inside.of_mixin? hrule (MixinCall.bindings_fit hbound)
    · exact h.inside'.of_mixin? hrule' (MixinCall.bindings_fit (hbindings ▸ hbound))
    · exact havoids t raw (.call hmem hrule hbound hdemands)

end Scope.AlikeBut

/-- Two scopes that differ only in what defines a name, in the two or around them or in
what they import. A value that does not lead to the name comes to the same in both, and so
do the declarations of the block if nothing that they demand leads to it. -/
theorem Scope.uncaptured {n : Text} {d d' : Document} {s s' : Scope} (hs : d.HasScope s)
    (hs' : d'.HasScope s') (hwithout : s.without n = s'.without n) (now : Moment) :
    (∀ raw, s.Avoids raw n → s.evaluate (d.idleAt now) raw = s'.evaluate (d'.idleAt now) raw) ∧
      ((∀ t raw, s.Demands (d.idleAt now) t raw → t.Avoids raw n) → ∀ depth,
        s.declarations (d.idleAt now) depth s.body =
          s'.declarations (d'.idleAt now) depth s'.body) := by
  have halike : AlikeBut n d d' s s' := ⟨hs, hs', [], [], hwithout⟩
  refine ⟨fun raw havoids => halike.evaluate_eq havoids now, fun havoids depth => ?_⟩
  exact (AlikeBut.bodySimulation n d d' now).declarations_eq depth ⟨halike, havoids⟩

/-- A mixin hands on an argument that came to `@y` to a mixin that may have a variable of
that name or none. -/
theorem Scope.uncaptured_argument :
    ∃ (d d' : Document) (s s' : Scope), s.without "y" = s'.without "y" ∧
      s.declarations (d.idleAt ⟨[], 0⟩) 1 s.body = s'.declarations (d'.idleAt ⟨[], 0⟩) 1 s'.body ∧
      ((s.declarations (d.idleAt ⟨[], 0⟩) 1 s.body).run.run ⟨.empty, []⟩).1 =
        .ok [⟨"d", "@y"⟩] := by
  let a : Raw := ⟨"@a", ⟨0, 2, 3⟩⟩
  let b : Raw := ⟨"@b", ⟨0, 6, 7⟩⟩
  let m : Rule := ⟨[".m"], [".m"], .mixin [⟨"a", none⟩], none,
    ⟨[], [], [.call ⟨".k", [a], ⟨0, 1, 3⟩⟩], []⟩, ⟨0, 0, 4⟩⟩
  let k : Rule := ⟨[".k"], [".k"], .mixin [⟨"b", none⟩], none,
    ⟨[], [], [.property ⟨"d", b⟩], []⟩, ⟨0, 4, 8⟩⟩
  let k' : Rule := { k with block := k.block.addVariable "y" ⟨"5px", ⟨0, 8, 9⟩⟩ }
  let d : Document := ⟨⟨"d"⟩, ⟨[], [], [], [m, k]⟩⟩
  let d' : Document := ⟨⟨"d"⟩, ⟨[], [], [], [m, k']⟩⟩
  let s : Scope := (Scope.ofBlock d.block).ofCall m.block [("a", .argument "@y")]
  let s' : Scope := (Scope.ofBlock d'.block).ofCall m.block [("a", .argument "@y")]
  have hs : d.HasScope s := .body .root (List.mem_cons_self ..) (List.nil_sublist _)
  have hs' : d'.HasScope s' := .body .root (List.mem_cons_self ..) (List.nil_sublist _)
  have hwithout : s.without "y" = s'.without "y" := rfl
  have ha : s.Avoids a "y" := by
    have hreferences : a.references = [['a']] := by decide +kernel
    refine .of_evaluated (by rw [hreferences]; decide) fun name hname => ⟨"@y", ?_⟩
    rw [hreferences] at hname
    rw [List.mem_singleton.mp hname]
    rfl
  have hb : ((Scope.ofBlock d.block).ofCall k.block [("b", .argument "@y")]).Avoids b "y" := by
    have hreferences : b.references = [['b']] := by decide +kernel
    refine .of_evaluated (by rw [hreferences]; decide) fun name hname => ⟨"@y", ?_⟩
    rw [hreferences] at hname
    rw [List.mem_singleton.mp hname]
    rfl
  have havoids : ∀ t raw, s.Demands (d.idleAt ⟨[], 0⟩) t raw → t.Avoids raw "y" := by
    intro t raw hdemands
    cases hdemands with
    | property hmem => cases List.mem_singleton.mp hmem
    | argument hmem hmixin hi hargument =>
        cases List.mem_singleton.mp hmem
        cases hmixin
        obtain rfl := Nat.lt_one_iff.mp hi
        cases hargument
        exact ha
    | call hmem hmixin hbindings hinner =>
        cases List.mem_singleton.mp hmem
        cases hmixin
        have hbound : MixinCall.bindings (d.idleAt ⟨[], 0⟩) ⟨".k", [a], ⟨0, 1, 3⟩⟩ k s =
          .ok [("b", .argument "@y")] := by decide +kernel
        cases hbound.symm.trans hbindings
        cases hinner with
        | property hmem =>
            cases List.mem_singleton.mp hmem
            exact hb
        | argument hmem | call hmem => cases List.mem_singleton.mp hmem
  refine ⟨d, d', s, s', hwithout, (uncaptured hs hs' hwithout ⟨[], 0⟩).2 havoids 1, ?_⟩
  decide +kernel

end Cascade
