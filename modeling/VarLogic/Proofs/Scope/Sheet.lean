/-
What the sheet of a scope and its inline declarations declare. Every property
belongs to the family of one id (`nodup_properties`), so nothing is lost when
the sheets of the levels are merged (`sheet_eq`), and what an element under
the sheet has for a property can be told from where it is declared
(`lookup_composite`, `lookup_hook`).
-/
import VarLogic.Proofs.Scope.Invariant
import VarLogic.Proofs.Sheet.Adding

namespace VarLogic

/-! ## Properties of families -/

namespace ShortId

/-- The id a property is named after ends where its path begins. -/
theorem IsWord.takeWhile_append {id path : String} (hid : IsWord id) (hp : Formula.IsPath path) :
    (id ++ path).toList.takeWhile ShortId.isWordChar = id.toList := by
  have hpath : path.toList.takeWhile ShortId.isWordChar = [] := by
    cases hl : path.toList with
    | nil => rfl
    | cons c cs =>
      have hc : ShortId.isWordChar c = false := by
        rcases hp c (by simp [hl]) with rfl | rfl | rfl <;> decide
      rw [List.takeWhile_cons, hc]
      rfl
  rw [String.toList_append, List.takeWhile_append_of_pos fun c hc => hid.isWordChar hc, hpath,
    List.append_nil]

theorem IsWord.append_inj {id id' path path' : String} (hid : IsWord id) (hid' : IsWord id')
    (hp : Formula.IsPath path) (hp' : Formula.IsPath path') (h : id ++ path = id' ++ path') :
    id = id' := by
  have := congrArg (fun s => s.toList.takeWhile ShortId.isWordChar) h
  exact String.ext (by simpa only [hid.takeWhile_append hp, hid'.takeWhile_append hp'] using this)

theorem IsWord.isPlain {id : String} (h : IsWord id) : Element.IsPlain id := by
  intro c hc
  have hn := toNat_of_isWordChar (h.isWordChar hc)
  have hparens : c ≠ '(' ∧ c ≠ ')' ∧ c ≠ ',' := by
    refine ⟨?_, ?_, ?_⟩ <;> rintro rfl <;> revert hn <;> decide
  have hblank : Text.isBlank c = false := by
    simp only [Text.isBlank, Bool.or_eq_false_iff, Bool.and_eq_false_iff, decide_eq_false_iff_not,
      beq_eq_false_iff_ne]
    omega
  exact ⟨hparens.1, hparens.2.1, hparens.2.2, hblank⟩

end ShortId

namespace Family

/-- Its properties are distinct and named after its id. -/
structure Named (f : Family) : Prop where
  nodup : (f.declarations.map (·.property)).Nodup
  named : ∀ d ∈ f.declarations, ∃ path on,
    Formula.IsPath path ∧ d.property = Toggle.property (f.id ++ path) on

theorem named_ofHook (h : HookEntry) : Named (.ofHook h) where
  nodup := by simp [ofHook, Sheet.atRest, Toggle.property_inj]
  named := fun d hd => by
    simp only [ofHook, Sheet.atRest, List.mem_cons, List.not_mem_nil, or_false] at hd
    rcases hd with rfl | rfl
    · exact ⟨"", false, Formula.isPath_empty, by simp [ofHook]⟩
    · exact ⟨"", true, Formula.isPath_empty, by simp [ofHook]⟩

theorem named_ofCondition {c : NamedCondition} {targets : Condition Target} {base : String}
    (hc : c.compiled = Compiled.ofTargets? targets base) : ∀ f ∈ ofCondition c, f.Named := by
  intro f hf
  obtain ⟨rfl, hd⟩ := Scope.id_of_mem_ofCondition hc hf
  cases hk : Compiled.ofTargets? targets base with
  | none => simp [NamedCondition.declarations, hc, hk] at hd
  | some k =>
    obtain ⟨-, -, g, -, -, hg⟩ := Compiled.ofTargets?_eq_some.1 hk
    have hdecl : c.declarations = g.network base := by
      simp [NamedCondition.declarations, hc, hk, hg]
    refine ⟨?_, fun d hd => ?_⟩
    · simpa only [hdecl] using Formula.nodup_network g base
    · simp only [hdecl] at hd
      exact Formula.property_of_mem_network hd

theorem declarations_ofCondition (c : NamedCondition) :
    (ofCondition c).flatMap (·.declarations) = c.declarations := by
  unfold ofCondition NamedCondition.toggle? NamedCondition.declarations
  cases c.compiled with
  | none => rfl
  | some k => cases hd : k.declarations <;> simp [hd]

/-- Families of different ids have no property in common. -/
theorem nodup_properties {families : List Family} (hn : ∀ f ∈ families, f.Named)
    (hw : ∀ f ∈ families, ShortId.IsWord f.id) (hid : (families.map (·.id)).Nodup) :
    ((families.flatMap (·.declarations)).map (·.property)).Nodup := by
  induction families with
  | nil => exact List.nodup_nil
  | cons f families ih =>
    rw [List.map_cons, List.nodup_cons] at hid
    rw [List.flatMap_cons, List.map_append, List.nodup_append]
    refine ⟨(hn f (by simp)).nodup,
      ih (fun g hg => hn g (by simp [hg])) (fun g hg => hw g (by simp [hg])) hid.2, ?_⟩
    intro p hp q hq he
    obtain ⟨d, hd, rfl⟩ := List.mem_map.1 hp
    obtain ⟨d', hd', rfl⟩ := List.mem_map.1 hq
    obtain ⟨g, hg, hd'⟩ := List.mem_flatMap.1 hd'
    obtain ⟨path, on, hpath, hprop⟩ := (hn f (by simp)).named d hd
    obtain ⟨path', on', hpath', hprop'⟩ := (hn g (by simp [hg])).named d' hd'
    have := (Toggle.property_inj.1 (hprop.symm.trans (he.trans hprop'))).1
    have := (hw f (by simp)).append_inj (hw g (by simp [hg])) hpath hpath' this
    exact hid.1 (this ▸ List.mem_map_of_mem hg)

end Family

/-! ## Merging -/

namespace Sheet

theorem foldl_mergeDefault {ds xs : List Declaration}
    (h : ((ds ++ xs).map (·.property)).Nodup) : xs.foldl mergeDefault ds = ds ++ xs := by
  rw [mergeDefault_eq]
  exact addAll_of_nodup h

theorem foldl_mergeRule {rs xs : List Rule} (h : (rs ++ xs).Nodup) :
    xs.foldl mergeRule rs = rs ++ xs := by
  have hkeys : ((rs ++ xs).map id).Nodup := by rwa [List.map_id]
  rw [mergeRule_eq]
  exact addAll_of_nodup hkeys

/-- The rule of a hook. -/
def ruleOf (h : HookEntry) : Rule := ⟨h.hook, whileActive h.id⟩

theorem foldl_addHook (hooks : List HookEntry) (sheet : Sheet) :
    hooks.foldl (fun sheet h => sheet.addHook h.hook h.id) sheet =
      ⟨sheet.defaults ++ hooks.flatMap (atRest ·.id), sheet.rules ++ hooks.map ruleOf⟩ := by
  induction hooks generalizing sheet with
  | nil => simp
  | cons h hooks ih =>
    rw [List.foldl_cons, ih]
    simp [addHook, ruleOf]

theorem foldl_addDefault (ds : List Declaration) (sheet : Sheet) :
    ds.foldl addDefault sheet = { sheet with defaults := sheet.defaults ++ ds } := by
  induction ds generalizing sheet with
  | nil => simp
  | cons d ds ih =>
    rw [List.foldl_cons, ih]
    simp [addDefault]

end Sheet

namespace Level

/-- What a level puts into the `*` block. -/
def ownDefaults (level : Level) (isOutermost : Bool) : List Declaration :=
  level.hooks.flatMap (Sheet.atRest ·.id) ++ if isOutermost then level.declarations else []

theorem sheet_eq (level : Level) (isOutermost : Bool) :
    level.sheet isOutermost = ⟨level.ownDefaults isOutermost, level.hooks.map Sheet.ruleOf⟩ := by
  cases isOutermost <;>
    simp [sheet, hookSheet, Sheet.foldl_addHook, Sheet.foldl_addDefault, ownDefaults, Sheet.empty]

/-- The `*` block of all levels, outermost first. -/
def defaultsOf : List Level → List Declaration
  | [] => []
  | level :: outer => defaultsOf outer ++ level.ownDefaults outer.isEmpty

/-- The rules of all levels, outermost first. -/
def rulesOf : List Level → List Rule
  | [] => []
  | level :: outer => rulesOf outer ++ level.hooks.map Sheet.ruleOf

/-- Nothing is lost in merging levels that share no property and no rule. -/
theorem sheetOf_eq {levels : List Level} (hd : ((defaultsOf levels).map (·.property)).Nodup)
    (hr : (rulesOf levels).Nodup) : sheetOf levels = ⟨defaultsOf levels, rulesOf levels⟩ := by
  induction levels with
  | nil => rfl
  | cons level outer ih =>
    have hd' : ((defaultsOf outer).map (·.property)).Nodup := by
      rw [defaultsOf, List.map_append] at hd
      exact hd.of_append_left
    have hr' : (rulesOf outer).Nodup := (rulesOf.eq_2 level outer ▸ hr).of_append_left
    rw [sheetOf, ih hd' hr', sheet_eq, Sheet.merge, Sheet.foldl_mergeDefault hd,
      Sheet.foldl_mergeRule hr, defaultsOf, rulesOf]

theorem declarations_families (level : Level) :
    level.families.flatMap (·.declarations) =
      level.hooks.flatMap (Sheet.atRest ·.id) ++ level.declarations := by
  rw [families, List.flatMap_append, List.flatMap_map, List.flatMap_assoc, declarations]
  simp only [Family.declarations_ofCondition, Family.ofHook]

/-- What the families declare stands in the `*` block or inline. -/
theorem perm_declarations (levels : List Level) :
    (defaultsOf levels ++ inlineDeclarations levels).Perm
      ((levels.flatMap (·.families)).flatMap (·.declarations)) := by
  induction levels with
  | nil => exact .refl _
  | cons level outer ih =>
    rw [List.flatMap_cons, List.flatMap_append, declarations_families]
    rw [List.perm_iff_count] at ih ⊢
    intro d
    have := ih d
    cases outer with
    | nil => simp [defaultsOf, ownDefaults, inlineDeclarations]
    | cons next rest =>
      simp only [defaultsOf, ownDefaults, inlineDeclarations, List.isEmpty_cons, List.count_append,
        Bool.false_eq_true, if_false, List.count_nil] at this ⊢
      omega

theorem perm_rulesOf (levels : List Level) :
    (rulesOf levels).Perm ((levels.flatMap (·.hooks)).map Sheet.ruleOf) := by
  induction levels with
  | nil => exact .refl _
  | cons level outer ih =>
    rw [rulesOf, List.flatMap_cons, List.map_append]
    exact (ih.append_right _).trans List.perm_append_comm

end Level

/-! ## Sound scopes -/

namespace Scope

/-- The families are those of the hooks and those of the conditions. -/
theorem perm_families (s : Scope) :
    s.families.Perm (s.hooks.map Family.ofHook ++ s.history.flatMap Family.ofCondition) := by
  rw [families, hooks, history]
  generalize s.levels = levels
  induction levels with
  | nil => exact .refl _
  | cons level outer ih =>
    have hr := (List.reverse_perm level.conditions).flatMap_right Family.ofCondition
    simp only [List.flatMap_cons, List.map_append, List.flatMap_append, Level.families]
    rw [List.perm_iff_count] at ih hr ⊢
    intro f
    have h := ih f
    have hr := hr f
    simp only [Level.families, List.count_append] at h hr ⊢
    omega

variable {s : Scope}

theorem Sound.named (hs : s.Sound) : ∀ f ∈ s.families, f.Named := by
  intro f hf
  rw [s.perm_families.mem_iff, List.mem_append] at hf
  rcases hf with hf | hf
  · obtain ⟨h, -, rfl⟩ := List.mem_map.1 hf
    exact Family.named_ofHook h
  · obtain ⟨c, hc, hf⟩ := List.mem_flatMap.1 hf
    obtain ⟨targets, base, hk⟩ := hs.made.compiled c hc
    exact Family.named_ofCondition hk f hf

/-- **No property is declared twice**, neither in the `*` block nor inline. -/
theorem Sound.nodup_properties (hs : s.Sound) :
    ((Level.defaultsOf s.levels ++ s.declarations).map (·.property)).Nodup := by
  rw [declarations, ((Level.perm_declarations s.levels).map _).nodup_iff]
  exact Family.nodup_properties hs.named hs.words hs.ids

theorem Sound.nodup_defaults (hs : s.Sound) :
    ((Level.defaultsOf s.levels).map (·.property)).Nodup := by
  have h := hs.nodup_properties
  rw [List.map_append] at h
  exact h.of_append_left

theorem Sound.nodup_declarations (hs : s.Sound) : (s.declarations.map (·.property)).Nodup := by
  have h := hs.nodup_properties
  rw [List.map_append] at h
  exact h.of_append_right

/-- What is declared are the pairs of the hooks and the composite nodes of the
conditions. -/
theorem perm_declared (s : Scope) :
    (Level.defaultsOf s.levels ++ s.declarations).Perm
      (s.hooks.flatMap (Sheet.atRest ·.id) ++ s.history.flatMap (·.declarations)) := by
  have h := s.perm_families.flatMap_right (·.declarations)
  rw [List.flatMap_append, List.flatMap_map, List.flatMap_assoc] at h
  simp only [Family.declarations_ofCondition, Family.ofHook] at h
  exact (Level.perm_declarations s.levels).trans h

theorem Sound.nodup_declared (hs : s.Sound) :
    ((s.hooks.flatMap (Sheet.atRest ·.id) ++ s.history.flatMap (·.declarations)).map
      (·.property)).Nodup :=
  (s.perm_declared.map _).nodup_iff.1 hs.nodup_properties

theorem Sound.nodup_hookIds (hs : s.Sound) : (s.hooks.map (·.id)).Nodup := by
  have h := ((s.perm_families.map (·.id)).nodup_iff).1 hs.ids
  rw [List.map_append, List.map_map] at h
  exact h.of_append_left

theorem Sound.nodup_rules (hs : s.Sound) : (Level.rulesOf s.levels).Nodup := by
  rw [(Level.perm_rulesOf s.levels).nodup_iff]
  have h : ((s.hooks.map Sheet.ruleOf).map (·.hook.text)).Nodup := by
    simpa [Sheet.ruleOf, Function.comp_def] using hs.texts
  exact h.of_map

/-- **The sheet of a scope** has the pairs of all hooks, the composite nodes of
the outermost level and a rule a hook. -/
theorem Sound.sheet_eq (hs : s.Sound) :
    s.sheet = ⟨Level.defaultsOf s.levels, Level.rulesOf s.levels⟩ :=
  Level.sheetOf_eq hs.nodup_defaults hs.nodup_rules

theorem Sound.perm_rules (hs : s.Sound) : s.sheet.rules.Perm (s.hooks.map Sheet.ruleOf) := by
  rw [hs.sheet_eq]
  exact Level.perm_rulesOf s.levels

end Scope

end VarLogic
