/-
One scope or two. Definitions that can be made in one scope, or the last of
them in a scope nested in that of the others, give the same names in the same
order, and formulas that ask the same hooks (`grouped_alike`). The ids differ,
as they depend on the outermost definitions and on the depth. The meaning does
not: a name stands for the latest condition made before, on the same level or
on one around it (`expandName_congr`), and the formula over the texts of hooks
is that of the expansion (`formulaOverTexts_eq`).
-/
import VarLogic.Proofs.Condition.Renaming
import VarLogic.Proofs.Scope.Build
import VarLogic.Proofs.Scope.Expansion

namespace VarLogic

/-! ## Formulas over texts -/

/-- Conditions with the same normal form have the same formula. -/
theorem Formula.ofCondition?_congr {α : Type} {c d : Condition α} (h : c.normal? = d.normal?) :
    ofCondition? c = ofCondition? d := by
  rw [ofCondition?, ofCondition?, h]

/-- The formula of a condition is that of its tree. -/
theorem Made.formula_eq {ids : String → Option String} {history : List NamedCondition}
    (h : Made ids history) {c : NamedCondition} (hc : c ∈ history) :
    c.compiled.map (·.formula) = Formula.ofCondition? (Target.reference c.compiled).tree := by
  obtain ⟨targets, base, hof⟩ := h.compiled c hc
  cases hk : c.compiled with
  | none => rfl
  | some k => exact (Compiled.ofTargets?_eq_some.1 (hof.symm.trans hk)).2.1.symm

namespace Scope

/-- The text of the hook that has an id. -/
def hookText? (s : Scope) (id : String) : Option String :=
  (s.hooks.find? (·.id = id)).map (·.hook.text)

/-- The formula of a name, with the texts of hooks in place of their ids. -/
def formulaOverTexts (s : Scope) (name : String) :
    Except Error (Option (Formula (Option String))) :=
  (s.formula name).map (Option.map (Formula.map s.hookText?))

variable {s : Scope}

theorem hookText?_of_hookId? (hs : s.Sound) {text id : String} (h : s.hookId? text = some id) :
    s.hookText? id = some text := by
  obtain ⟨entry, hentry, rfl, rfl⟩ := mem_hooks_of_hookId? h
  cases hf : s.hooks.find? (·.id = entry.id) with
  | none => simpa using List.find?_eq_none.1 hf entry hentry
  | some found =>
    have hid : found.id = entry.id := by simpa using List.find?_some hf
    obtain rfl := List.inj_on_of_nodup_map hs.nodup_hookIds (List.mem_of_find?_eq_some hf) hentry hid
    simp [hookText?, hf]

/-- **The formula over texts is that of the expansion.** -/
theorem formulaOverTexts_eq (hs : s.Sound) {name : String} (hn : name ∈ s.names) :
    s.formulaOverTexts name =
      .ok ((Formula.ofCondition? (s.expansion name)).map (Formula.map some)) := by
  obtain ⟨c, hc, hlookup, hformula⟩ := formula_eq hs hn
  have htree : Made.treeOf s.history name = (Target.reference c.compiled).tree := by
    rw [Made.treeOf, ← hs.lookup?_eq, hlookup]
    rfl
  -- Each hook was replaced by its id; the id is replaced by the text again.
  have hback : ((s.expansion name).bind (Made.leafOfId s.hookId?)).map s.hookText? =
      (s.expansion name).map some := by
    rw [Condition.map, Condition.bind_bind, Condition.map]
    refine Condition.bind_congr fun text ht => ?_
    obtain ⟨id, hid⟩ := Option.isSome_iff_exists.1 (hs.made.isSome_of_mem_expandName name text ht)
    simp [Made.leafOfId, hid, Condition.bind, hookText?_of_hookId? hs hid]
  rw [formulaOverTexts, hformula, hs.made.formula_eq hc, ← htree,
    Formula.ofCondition?_congr (hs.made.normal?_treeOf name), Except.map,
    ← Condition.ofCondition?_map, ← Condition.ofCondition?_map]
  exact congrArg (fun c => Except.ok (Formula.ofCondition? c)) hback

/-! ## Histories -/

/-- What a name stands for depends on the names and the definitions only. -/
theorem expandName_congr : ∀ {history history' : List NamedCondition},
    history.map (fun c => (c.name, c.definition)) = history'.map (fun c => (c.name, c.definition)) →
      ∀ name, expandName history name = expandName history' name
  | [], [], _, _ => rfl
  | c :: earlier, c' :: earlier', h, name => by
    simp only [List.map_cons, List.cons.injEq, Prod.mk.injEq] at h
    obtain ⟨⟨hname, hdefinition⟩, h⟩ := h
    simp only [expandName, hname, hdefinition, expandName_congr h]

theorem history_eq (s : Scope) :
    s.history = s.level.conditions.reverse ++ s.ancestors.flatMap (·.conditions.reverse) := rfl

/-- **The history of a scope** are its definitions, the latest first, on top of
the levels around. -/
theorem history_create {definitions : Definitions} {parent : Option Scope}
    (h : create definitions parent = .ok s) :
    s.history.map (fun c => (c.name, c.definition)) =
      definitions.reverse ++
        (parent.elim [] history).map fun c => (c.name, c.definition) := by
  rw [create_eq] at h
  obtain ⟨-, hancestors, hconditions⟩ := shape_defineAll h
  rw [history_eq, hancestors, List.map_append, List.map_reverse, hconditions]
  cases parent with
  | none => simp [start, Level.empty]
  | some p => simp [start, Level.empty, history]

/-! ## Names -/

/-- The names in sight are those of the levels around, and then the new ones. -/
theorem names_eq {definitions : Definitions} {parent : Option Scope}
    (h : create definitions parent = .ok s) :
    s.names = parent.elim [] names ++
      (definitions.map (·.1)).filter (· ∉ parent.elim [] names) := by
  have hnames := names_create h
  rw [create_eq] at h
  have hancestors := (shape_defineAll h).2.1
  rw [names, levels, Level.namesInSight, hnames, hancestors]
  cases parent <;> rfl

/-- The names of definitions that can be made in one scope are distinct. -/
theorem nodup_names {definitions : Definitions} {parent : Option Scope}
    (hp : ∀ p ∈ parent, p.Reachable) (h : create definitions parent = .ok s) :
    (definitions.map (·.1)).Nodup := by
  rw [← names_create h]
  exact (reachable_create hp h).sound.names s.level (by simp [levels])

/-- **Nesting the last definitions changes nothing that can be seen.** Names
come in the same order, and the two formulas of a name are the same tree over
the texts of hooks. -/
theorem grouped_alike {before after : Definitions} {parent : Option Scope}
    (hp : ∀ p ∈ parent, p.Reachable) {flat outer inner : Scope}
    (hflat : create (before ++ after) parent = .ok flat)
    (houter : create before parent = .ok outer) (hinner : outer.nest after = .ok inner) :
    flat.names = inner.names ∧
      ∀ name ∈ flat.names, ∃ f : Option (Formula String),
        flat.formulaOverTexts name = .ok (f.map (Formula.map some)) ∧
          inner.formulaOverTexts name = .ok (f.map (Formula.map some)) := by
  have houterReach := reachable_create hp houter
  have hinner' : create after (some outer) = .ok inner := hinner
  have hnames : flat.names = inner.names := by
    rw [names_eq hflat, names_eq hinner', Option.elim_some, names_eq houter, List.append_assoc,
      List.map_append, List.filter_append, List.append_cancel_left_eq, List.append_cancel_left_eq]
    -- A later name is none of the earlier ones, or the scope could not be made.
    refine List.filter_congr fun name hname => ?_
    have hnodup := nodup_names hp hflat
    rw [List.map_append, List.nodup_append] at hnodup
    have hne : name ∉ before.map (·.1) := fun hm => hnodup.2.2 name hm name hname rfl
    simp only [List.mem_append, List.mem_filter, hne, false_and, or_false]
  refine ⟨hnames, fun name hname => ⟨Formula.ofCondition? (flat.expansion name), ?_, ?_⟩⟩
  · exact formulaOverTexts_eq (reachable_create hp hflat).sound hname
  · rw [formulaOverTexts_eq (Reachable.nest houterReach hinner).sound (hnames ▸ hname), expansion,
      expansion, expandName_congr]
    rw [history_create hflat, history_create hinner', Option.elim_some, history_create houter,
      List.reverse_append, List.append_assoc]

/-- At night, what is hovered is dim; a later name refers to an earlier one and
to one around it. -/
def nightDefinitions : Definitions :=
  [("dim", .and [.leaf "dark", .leaf "&:hover"])]

/-- Also at night. -/
def duskDefinitions : Definitions :=
  [("lit", .or [.leaf "dim", .leaf "lit"]), ("faint", .not (.leaf "lit"))]

theorem grouped_alike_dusk :
    ∃ parent flat outer inner, root litDefinitions = .ok parent ∧
      create (nightDefinitions ++ duskDefinitions) (some parent) = .ok flat ∧
      create nightDefinitions (some parent) = .ok outer ∧ outer.nest duskDefinitions = .ok inner ∧
      flat.names = ["dark", "lit", "dim", "faint"] ∧ flat.names = inner.names ∧
      flat.toggle? "faint" ≠ inner.toggle? "faint" ∧
      flat.formulaOverTexts "faint" = inner.formulaOverTexts "faint" := by
  have hany : ((root litDefinitions).toOption.any fun parent =>
      (create (nightDefinitions ++ duskDefinitions) (some parent)).toOption.any fun flat =>
        (create nightDefinitions (some parent)).toOption.any fun outer =>
          (outer.nest duskDefinitions).toOption.any fun inner =>
            decide (flat.names = ["dark", "lit", "dim", "faint"] ∧
              flat.toggle? "faint" ≠ inner.toggle? "faint")) = true := by decide +kernel
  obtain ⟨parent, hparent, hany⟩ := exists_of_any hany
  obtain ⟨flat, hflat, hany⟩ := exists_of_any hany
  obtain ⟨outer, houter, hany⟩ := exists_of_any hany
  obtain ⟨inner, hinner, hany⟩ := exists_of_any hany
  obtain ⟨hnames, hne⟩ := of_decide_eq_true hany
  have hp : ∀ p ∈ some parent, p.Reachable := fun p hm => Option.some.inj hm ▸ .root hparent
  obtain ⟨hsame, hformulas⟩ := grouped_alike hp hflat houter hinner
  obtain ⟨f, hf, hf'⟩ := hformulas "faint" (by simp [hnames])
  exact ⟨parent, flat, outer, inner, hparent, hflat, houter, hinner, hnames, hsame, hne,
    hf.trans hf'.symm⟩

end Scope

end VarLogic
