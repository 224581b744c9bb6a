/-
The key of a sheet tells sheets apart, unless two texts that were hashed have
one hash. The key covers properties and hooks only, and where the properties end
in its text cannot be told from the text. But the first property is that of a
hook (`exists_first_property`), and its id comes from a text that holds the hash
of the outermost definitions: two scopes with one first property have the same
outermost level. What is left are the pairs of other hooks, where an id again
says which hook it is of. So one list of hooks begins with the other, and then
the lengths of the two texts leave no room for a difference (`sheet_eq_of_begins`).
-/
import VarLogic.Proofs.Scope.Conditions
import VarLogic.Proofs.Scope.Hashed
import VarLogic.Proofs.Sheet.Issued
import VarLogic.Proofs.Sheet.Key

namespace VarLogic

open Sheet (terminated)

/-! ## Hooks from the outermost level on -/

namespace Level

/-- The hooks of all levels, outermost first. -/
def hooksOf : List Level → List HookEntry
  | [] => []
  | level :: outer => hooksOf outer ++ level.hooks

theorem mem_hooksOf {levels : List Level} {h : HookEntry} :
    h ∈ hooksOf levels ↔ ∃ level ∈ levels, h ∈ level.hooks := by
  induction levels with
  | nil => simp [hooksOf]
  | cons level outer ih => simp [hooksOf, ih, or_comm]

theorem hooksOf_append (inner : List Level) (outermost : Level) :
    hooksOf (inner ++ [outermost]) = outermost.hooks ++ hooksOf inner := by
  induction inner with
  | nil => simp [hooksOf]
  | cons level inner ih => simp [hooksOf, ih]

theorem rulesOf_eq (levels : List Level) : rulesOf levels = (hooksOf levels).map Sheet.ruleOf := by
  induction levels with
  | nil => rfl
  | cons level outer ih => rw [rulesOf, hooksOf, ih, List.map_append]

/-- Behind the outermost level's own part, the `*` block has pairs of hooks
only. -/
theorem defaultsOf_append (inner : List Level) (outermost : Level) :
    defaultsOf (inner ++ [outermost]) =
      outermost.ownDefaults true ++ (hooksOf inner).flatMap (Sheet.atRest ·.id) := by
  induction inner with
  | nil => simp [defaultsOf, hooksOf]
  | cons level inner ih => simp [defaultsOf, hooksOf, ih, ownDefaults]

end Level

/-! ## Properties of pairs -/

/-- The properties of hooks' pairs. -/
def pairProperties (hooks : List HookEntry) : List String :=
  (hooks.flatMap (Sheet.atRest ·.id)).map (·.property)

@[simp] theorem pairProperties_nil : pairProperties [] = [] := rfl

theorem pairProperties_cons (h : HookEntry) (hooks : List HookEntry) :
    pairProperties (h :: hooks) =
      Toggle.property h.id false :: Toggle.property h.id true :: pairProperties hooks := rfl

/-- Where ids tell hooks apart, the pairs of some hooks begin with those of others
only if the hooks do. -/
theorem exists_append_of_pairProperties {hooks others : List HookEntry} {more : List String}
    (hid : ∀ h ∈ hooks, ∀ k ∈ others, h.id = k.id → h = k)
    (h : pairProperties others = pairProperties hooks ++ more) :
    ∃ rest, others = hooks ++ rest := by
  induction hooks generalizing others with
  | nil => exact ⟨others, rfl⟩
  | cons e hooks ih =>
    cases others with
    | nil => simp [pairProperties_cons] at h
    | cons k others =>
      simp only [pairProperties_cons, List.cons_append, List.cons.injEq] at h
      obtain rfl := hid e (by simp) k (by simp) (Toggle.property_inj.1 h.1).1.symm
      obtain ⟨rest, rfl⟩ := ih (fun e he k hk => hid e (by simp [he]) k (by simp [hk])) h.2.2
      exact ⟨rest, rfl⟩

theorem Formula.leaves_ne_nil {α : Type} (f : Formula α) : f.leaves ≠ [] := by
  induction f with
  | leaf a => simp [leaves]
  | and l r ihl | or l r ihl => simp [leaves, ihl]
  | not f ih => exact ih

/-- Properties hold no semicolon. -/
theorem Family.semicolon_not_mem {f : Family} (hn : f.Named) (hw : ShortId.IsWord f.id)
    {d : Declaration} (hd : d ∈ f.declarations) : ';' ∉ d.property.toList := by
  obtain ⟨path, on, hpath, hproperty⟩ := hn.named d hd
  intro hm
  simp only [hproperty, Toggle.property, String.toList_append, List.mem_append] at hm
  rcases hm with (hm | hm | hm) | hm
  · revert hm; decide
  · exact absurd (hw.isWordChar hm) (by decide)
  · rcases hpath _ hm with h | h | h <;> revert h <;> decide
  · cases on <;> revert hm <;> decide

namespace Scope

variable {s : Scope}

/-! ## One sheet -/

theorem Sound.semicolon_not_mem (hs : s.Sound) :
    ∀ p ∈ s.sheet.defaults.map (·.property), ';' ∉ p.toList := by
  intro p hp
  obtain ⟨d, hd, rfl⟩ := List.mem_map.1 hp
  rw [hs.sheet_eq] at hd
  obtain ⟨f, hf, hd⟩ := List.mem_flatMap.1
    ((Level.perm_declarations s.levels).mem_iff.1 (List.mem_append_left _ hd))
  exact Family.semicolon_not_mem (hs.named f hf) (hs.words f hf) hd

theorem mem_hooks_iff {h : HookEntry} : h ∈ s.hooks ↔ h ∈ Level.hooksOf s.levels := by
  rw [hooks, List.mem_flatMap, Level.mem_hooksOf]

theorem hooks_eq_nil_iff : s.hooks = [] ↔ Level.hooksOf s.levels = [] := by
  simp only [List.eq_nil_iff_forall_not_mem, mem_hooks_iff]

/-- Without a hook no condition comes to anything. -/
theorem Sound.declarations_of_hooks (hs : s.Sound) (hn : s.hooks = []) :
    ∀ c ∈ s.history, c.declarations = [] := by
  intro c hc
  rw [NamedCondition.declarations]
  cases hk : c.compiled with
  | none => rfl
  | some k =>
    obtain ⟨a, ha⟩ := List.exists_mem_of_ne_nil _ k.formula.leaves_ne_nil
    obtain ⟨text, hid⟩ := hookId?_of_mem_leaves hs hc hk ha
    obtain ⟨entry, hentry, -⟩ := mem_hooks_of_hookId? hid
    simp [hn] at hentry

/-- Without a hook the sheet is empty. -/
theorem Sound.sheet_of_hooks (hs : s.Sound) (hn : s.hooks = []) : s.sheet = ⟨[], []⟩ := by
  have hdeclared := s.perm_declared
  rw [hn, List.flatMap_nil, List.nil_append,
    List.flatMap_eq_nil_iff.2 (hs.declarations_of_hooks hn), List.perm_nil] at hdeclared
  rw [hs.sheet_eq, (List.append_eq_nil_iff.1 hdeclared).1, Level.rulesOf_eq,
    hooks_eq_nil_iff.1 hn, List.map_nil]

/-- **The first property is that of a hook**, if there are any properties. -/
theorem Reachable.exists_first_property (h : s.Reachable) (hn : s.hooks ≠ []) :
    ∃ entry ∈ s.hooks, ∃ rest,
      s.sheet.defaults.map (·.property) = Toggle.property entry.id false :: rest := by
  obtain ⟨inner, outermost, hl, hroot⟩ := h.exists_outermost
  rw [h.sound.sheet_eq, hl, Level.defaultsOf_append]
  simp only [mem_hooks_iff, hl, Level.hooksOf_append]
  cases hhooks : outermost.hooks with
  | cons entry hooks =>
    exact ⟨entry, by simp, _, by simp [Level.ownDefaults, hhooks, Sheet.atRest]; rfl⟩
  | nil =>
    -- Then the outermost level has no composite nodes either.
    have hown : outermost.ownDefaults true = [] := by
      have houter := (Reachable.root hroot).sound
      have hdeclarations := houter.declarations_of_hooks (by simp [Scope.hooks, levels, hhooks])
      have hnone : outermost.declarations = [] := List.flatMap_eq_nil_iff.2 fun c hc =>
        hdeclarations c (by simpa [history, levels] using hc)
      simp [Level.ownDefaults, hhooks, hnone]
    cases hinner : Level.hooksOf inner with
    | nil =>
      refine absurd (hooks_eq_nil_iff.2 ?_) hn
      rw [hl, Level.hooksOf_append, hhooks, hinner, List.nil_append]
    | cons entry hooks => exact ⟨entry, by simp, _, by simp [hown, Sheet.atRest]; rfl⟩

/-! ## Two sheets -/

variable {a b : Scope}

/-- An id says which hook it is of, and in a scope of which outermost
definitions. -/
theorem CollisionFree.hook_inj (h : a.CollisionFree b) (ha : a.Reachable) (hb : b.Reachable)
    {e k : HookEntry} (he : e ∈ a.hooks) (hk : k ∈ b.hooks) (hid : e.id = k.id) :
    e = k ∧ a.hash = b.hash := by
  obtain ⟨depth, heid, hemem⟩ := ha.exists_hashed he
  obtain ⟨depth', hkid, hkmem⟩ := hb.exists_hashed hk
  obtain ⟨htext, hhash⟩ := ShortId.idText_inj (h _ (mem_hashedTogether_left hemem) _
    (mem_hashedTogether_right hkmem) (heid.symm.trans (hid.trans hkid)))
  have hhook : e.hook = k.hook := Except.ok.inj
    ((ha.sound.parsed e he).symm.trans (htext ▸ hb.sound.parsed k hk))
  exact ⟨by cases e; cases k; simp_all, hhash⟩

/-- The hash of the outermost definitions says which outermost level it is. -/
theorem CollisionFree.outermost_eq (h : a.CollisionFree b) {inner inner' : List Level}
    {outermost outermost' : Level} (hla : a.levels = inner ++ [outermost])
    (hlb : b.levels = inner' ++ [outermost'])
    (hra : root outermost.definitions = .ok ⟨a.hash, outermost, []⟩)
    (hrb : root outermost'.definitions = .ok ⟨b.hash, outermost', []⟩) (hhash : a.hash = b.hash) :
    outermost = outermost' := by
  have hdefinitions := Definitions.compact_inj
    (h _ (mem_hashedTogether_left (compact_mem_hashedTexts hla)) _
      (mem_hashedTogether_right (compact_mem_hashedTexts hlb))
      ((hash_of_root hra).symm.trans (hhash.trans (hash_of_root hrb))))
  rw [hdefinitions] at hra
  exact (Scope.mk.inj (Except.ok.inj (hra.symm.trans hrb))).2.1

/-- Where two scopes have the same outermost definitions, the hooks of one begin
with those of the other, and then the texts leave no room for a difference. -/
theorem sheet_eq_of_hash_eq (h : a.CollisionFree b) (ha : a.Reachable) (hb : b.Reachable)
    (hhash : a.hash = b.hash) {more : List String}
    (hdefaults : b.sheet.defaults.map (·.property) = a.sheet.defaults.map (·.property) ++ more)
    (hrules : terminated (a.sheet.rules.map (·.hook.text)) =
      terminated more ++ terminated (b.sheet.rules.map (·.hook.text))) : a.sheet = b.sheet := by
  obtain ⟨inner, outermost, hla, hra⟩ := ha.exists_outermost
  obtain ⟨inner', outermost', hlb, hrb⟩ := hb.exists_outermost
  obtain rfl := h.outermost_eq hla hlb hra hrb hhash
  have hid : ∀ e ∈ Level.hooksOf inner, ∀ k ∈ Level.hooksOf inner', e.id = k.id → e = k := by
    intro e he k hk hid
    refine (h.hook_inj ha hb ?_ ?_ hid).1
    · exact mem_hooks_iff.2 (by simp [hla, Level.hooksOf_append, he])
    · exact mem_hooks_iff.2 (by simp [hlb, Level.hooksOf_append, hk])
  rw [ha.sound.sheet_eq, hb.sound.sheet_eq, hla, hlb] at hdefaults hrules ⊢
  simp only [Level.rulesOf_eq, Level.defaultsOf_append, Level.hooksOf_append] at hdefaults hrules ⊢
  have hpairs : pairProperties (Level.hooksOf inner') =
      pairProperties (Level.hooksOf inner) ++ more := by
    simpa [pairProperties] using hdefaults
  obtain ⟨rest, hrest⟩ := exists_append_of_pairProperties hid hpairs
  have hnone : rest = [] := by
    rw [hrest, ← List.append_assoc] at hrules
    generalize outermost.hooks ++ Level.hooksOf inner = hooks at hrules
    rw [List.map_append, List.map_append] at hrules
    simpa using Sheet.eq_nil_of_terminated hrules
  rw [hrest, hnone, List.append_nil]

/-- Where the properties of one sheet begin with those of another, the sheets are
the same. -/
theorem sheet_eq_of_begins (h : a.CollisionFree b) (ha : a.Reachable) (hb : b.Reachable)
    {more : List String}
    (hdefaults : b.sheet.defaults.map (·.property) = a.sheet.defaults.map (·.property) ++ more)
    (hrules : terminated (a.sheet.rules.map (·.hook.text)) =
      terminated more ++ terminated (b.sheet.rules.map (·.hook.text))) : a.sheet = b.sheet := by
  by_cases hn : a.hooks = []
  · have hempty := ha.sound.sheet_of_hooks hn
    rw [hempty] at hdefaults hrules ⊢
    obtain ⟨hmore, htexts⟩ := List.append_eq_nil_iff.1 hrules.symm
    rw [Sheet.terminated_eq_nil] at hmore htexts
    rw [hmore, List.map_nil, List.append_nil, List.map_eq_nil_iff] at hdefaults
    rw [List.map_eq_nil_iff] at htexts
    rw [← hdefaults, ← htexts]
  · obtain ⟨e, he, resta, hfirsta⟩ := ha.exists_first_property hn
    have hnb : b.hooks ≠ [] := fun hnb => by
      rw [hb.sound.sheet_of_hooks hnb, hfirsta] at hdefaults
      cases hdefaults
    obtain ⟨k, hk, restb, hfirstb⟩ := hb.exists_first_property hnb
    have hfirst : Toggle.property e.id false = Toggle.property k.id false := by
      rw [hfirsta, hfirstb, List.cons_append] at hdefaults
      exact (List.cons.inj hdefaults).1.symm
    have hhash := (h.hook_inj ha hb he hk (Toggle.property_inj.1 hfirst).1).2
    exact sheet_eq_of_hash_eq h ha hb hhash hdefaults hrules

/-- Sheets of one key text are the same. -/
theorem sheet_eq_of_keyText_eq (h : a.CollisionFree b) (ha : a.Reachable) (hb : b.Reachable)
    (hkey : a.sheet.keyText = b.sheet.keyText) : a.sheet = b.sheet := by
  have htexts := congrArg String.toList hkey
  rw [Sheet.toList_keyText, Sheet.toList_keyText] at htexts
  rcases Sheet.terminated_split ha.sound.semicolon_not_mem hb.sound.semicolon_not_mem htexts with
    ⟨more, hdefaults, hrules⟩ | ⟨more, hdefaults, hrules⟩
  · exact sheet_eq_of_begins h ha hb hdefaults hrules
  · exact (sheet_eq_of_begins h.symm hb ha hdefaults hrules).symm

/-- Equal keys come from equal texts. -/
theorem CollisionFree.sheet_eq (h : a.CollisionFree b) (ha : a.Reachable) (hb : b.Reachable)
    (hkey : a.sheet.key = b.sheet.key) : a.sheet = b.sheet :=
  sheet_eq_of_keyText_eq h ha hb (h _ (by simp [hashedTogether]) _ (by simp [hashedTogether]) hkey)

/-- **The key of a sheet tells sheets apart**, as far as hashes tell texts apart.
So nothing that was handed out keeps the sheet of a scope from being handed out,
unless it is the same sheet. -/
theorem key_faithful {a b : Scope} (ha : a.Reachable) (hb : b.Reachable)
    (h : a.CollisionFree b) :
    (a.sheet.key = b.sheet.key → a.sheet = b.sheet) ∧
      ∀ (issued : Issued) (before after : List (Sheet × Layout)) (layout layout' : Layout),
        ((issued.insertAll (before ++ after)).insert b.sheet layout).1 ≠ none →
          ((issued.insertAll (before ++ (a.sheet, layout') :: after)).insert b.sheet layout).1 =
            none →
          a.sheet = b.sheet :=
  ⟨h.sheet_eq ha hb, fun _ _ _ _ _ hbefore hafter =>
    h.sheet_eq ha hb (Issued.key_eq_of_withheld hbefore hafter)⟩

/-- What glows is not lit. -/
def glowDefinitions : Definitions := [("glow", .not (.leaf "lit"))]

/-- What dazzles is lit and in the dark, by hooks that are in sight outside. -/
def dazzleDefinitions : Definitions := [("dazzle", .and [.leaf "lit", .leaf ".dark &"])]

theorem key_faithful_dazzle :
    ∃ parent a b, root litDefinitions = .ok parent ∧ parent.nest glowDefinitions = .ok a ∧
      parent.nest dazzleDefinitions = .ok b ∧ a.CollisionFree b ∧ a.names ≠ b.names ∧
      a.sheet.isEmpty = false ∧ a.sheet.key = b.sheet.key ∧ a.sheet = b.sheet := by
  have hany : ((root litDefinitions).toOption.any fun parent =>
      (parent.nest glowDefinitions).toOption.any fun a =>
        (parent.nest dazzleDefinitions).toOption.any fun b =>
          decide (a.CollisionFree b ∧ a.names ≠ b.names ∧ a.sheet.isEmpty = false ∧
            a.sheet.key = b.sheet.key)) = true := by decide +kernel
  obtain ⟨parent, hparent, hany⟩ := exists_of_any hany
  obtain ⟨a, ha, hany⟩ := exists_of_any hany
  obtain ⟨b, hb, hany⟩ := exists_of_any hany
  obtain ⟨hfree, hnames, hempty, hkey⟩ := of_decide_eq_true hany
  have hreach := Reachable.root hparent
  exact ⟨parent, a, b, hparent, ha, hb, hfree, hnames, hempty, hkey,
    (key_faithful (.nest hreach ha) (.nest hreach hb) hfree).1 hkey⟩

end Scope

end VarLogic
